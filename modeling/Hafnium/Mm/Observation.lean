import Hafnium.Mm.Trace

/-!
# Observing one entry during a walk

The writes and invalidations of a walk, as the entry at one address sees them: it is
left alone, released, or overwritten while it is absent.
-/

namespace Hafnium

open Support Aarch64 PageTableEntry RawPageTable List TableEvent Option

/-! ## Observing an entry -/

theorem archMmPteIsValid_absent (l l' : Nat) : archMmPteIsValid (archMmAbsentPte l) l' = false := by
  simp [archMmPteIsValid, archMmAbsentPte]

/-- The event does not concern the entry: it writes neither the entry nor one above
it. -/
def TableEvent.Apart (l a : Nat) : TableEvent → Prop
  | @write level base _ => ¬(l ≤ level ∧ base ≤ a ∧ a < base + entrySize level)
  | .invalidateTlb _ _ => True

/-- The entry has been released, or it is absent and lies in a region that will be
invalidated. -/
def Pending (l a begin endAddr : Nat) (word : Option Pte) (c : Option Cached) : Prop :=
  c = cached l word ∨ word = some (archMmAbsentPte l) ∧ begin ≤ a ∧ a + entrySize l ≤ endAddr ∧
      ∃ v, c = some ⟨v, true⟩

section Observe

variable {l a begin endAddr : Nat} {word : Option Pte} {c : Option Cached}

theorem cached_absent : cached l (some (archMmAbsentPte l)) = none := by
  rw [cached, bind_some, archMmPteIsValid_absent]
  rfl

theorem cached_cases (l : Nat) (word : Option Pte) :
    cached l word = none ∨ ∃ w, cached l word = some ⟨w, false⟩ := by
  cases word with
  | none => exact Or.inl rfl
  | some w =>
    rw [cached, bind_some]
    split
    · exact Or.inr ⟨w, rfl⟩
    · exact Or.inl rfl

theorem observe_write_apart {level base : Nat} {pte : PageTableEntry level}
    (h : (write base pte).Apart l a) : observe l a c (.write base pte) = some c := by
  have hpos := entrySize_pos level
  have hself : ¬(level = l ∧ base = a) := by
    rintro ⟨rfl, rfl⟩
    exact h ⟨le_rfl, le_rfl, by omega⟩
  have hbelow : ¬(l < level ∧ base ≤ a ∧ a < base + entrySize level) := fun hpos =>
    h ⟨hpos.1.le, hpos.2⟩
  simp only [observe, if_neg hself, if_neg hbelow]

/-- An invalidation does not matter for an entry that is not broken. -/
theorem observe_invalidateTlb_cached (begin endAddr : Nat) :
    observe l a (cached l word) (.invalidateTlb begin endAddr) = some (cached l word) := by
  rcases cached_cases l word with h | ⟨w, h⟩ <;> rw [h] <;> rfl

theorem foldlM_apart_cached {events : List TableEvent} (h : ∀ ev ∈ events, ev.Apart l a) :
    events.foldlM (observe l a) (cached l word) = some (cached l word) := by
  induction events with
  | nil => rfl
  | cons ev events ih =>
    rw [forall_mem_cons] at h
    have hev : observe l a (cached l word) ev = some (cached l word) := by
      cases ev with
      | write base pte => exact observe_write_apart h.1
      | invalidateTlb b e => exact observe_invalidateTlb_cached b e
    rw [foldlM_cons, hev]
    exact ih h.2

theorem foldlM_apart_pending {events : List TableEvent} (h : ∀ ev ∈ events, ev.Apart l a)
    (hc : Pending l a begin endAddr word c) :
    ∃ c', events.foldlM (observe l a) c = some c' ∧ Pending l a begin endAddr word c' := by
  induction events generalizing c with
  | nil => exact ⟨c, rfl, hc⟩
  | cons ev events ih =>
    rw [forall_mem_cons] at h
    obtain ⟨c₁, hc₁, hp₁⟩ : ∃ c₁, observe l a c ev = some c₁ ∧
        Pending l a begin endAddr word c₁ := by
      cases ev with
      | write base pte => exact ⟨c, observe_write_apart h.1, hc⟩
      | invalidateTlb b e =>
        rcases hc with rfl | ⟨hword, hlo, hhi, v, rfl⟩
        · exact ⟨_, observe_invalidateTlb_cached b e, Or.inl rfl⟩
        · simp only [observe]
          split
          · exact ⟨none, rfl, Or.inl (by rw [hword, cached_absent])⟩
          · exact ⟨_, rfl, Or.inr ⟨hword, hlo, hhi, v, rfl⟩⟩
    obtain ⟨c₂, hc₂, hp₂⟩ := ih h.2 hp₁
    exact ⟨c₂, by rw [foldlM_cons, hc₁]; exact hc₂, hp₂⟩

theorem Pending.release (hc : Pending l a begin endAddr word c) :
    observe l a c (.invalidateTlb begin endAddr) = some (cached l word) := by
  rcases hc with rfl | ⟨hword, hlo, hhi, v, rfl⟩
  · exact observe_invalidateTlb_cached _ _
  · simp only [observe]
    rw [if_pos ⟨hlo, hhi⟩, hword, cached_absent]

end Observe

/-- Along the events an entry goes from one value to another.  If a CPU may still
have cached an old value at the end, the entry is absent and lies in the region. -/
def Follows (l a begin endAddr : Nat) (word : Option Pte) (events : List TableEvent)
    (word' : Option Pte) : Prop :=
  ∃ c, events.foldlM (observe l a) (cached l word) = some c ∧ Pending l a begin endAddr word' c

namespace Follows

variable {l a begin endAddr : Nat} {word word' word'' : Option Pte}
    {events events' : List TableEvent}

theorem of_foldlM (h : events.foldlM (observe l a) (cached l word) = some (cached l word')) :
    Follows l a begin endAddr word events word' :=
  ⟨_, h, Or.inl rfl⟩

theorem refl : Follows l a begin endAddr word [] word := of_foldlM rfl

theorem of_apart (h : ∀ ev ∈ events, ev.Apart l a) : Follows l a begin endAddr word events word :=
  of_foldlM (foldlM_apart_cached h)

theorem foldlM_eq (h : Follows l a 0 0 word events word') :
    events.foldlM (observe l a) (cached l word) = some (cached l word') := by
  obtain ⟨c, hc, rfl | ⟨-, -, hhi, -⟩⟩ := h
  · exact hc
  · have := entrySize_pos l
    omega

theorem trans (h : Follows l a 0 0 word events word')
    (h' : Follows l a begin endAddr word' events' word'') :
    Follows l a begin endAddr word (events ++ events') word'' := by
  obtain ⟨c, hc, hp⟩ := h'
  exact ⟨c, by rw [foldlM_append, h.foldlM_eq]; exact hc, hp⟩

theorem release (h : Follows l a begin endAddr word events word') :
    Follows l a 0 0 word (events ++ [.invalidateTlb begin endAddr]) word' := by
  obtain ⟨c, hc, hp⟩ := h
  refine of_foldlM ?_
  rw [foldlM_append, hc]
  exact congrArg (· >>= _) hp.release

end Follows

namespace PageTableEntry

variable {l a level base begin endAddr : Nat} {w : Pte}

theorem wordAt_self (e : PageTableEntry level) : e.wordAt level base base = some e.inner := by
  cases e with
  | leaf w => cases level <;> simp [wordAt]
  | table w es => simp [wordAt]

theorem wordAt_table (es : RawPageTable level) (h : ¬(level + 1 = l ∧ base = a)) :
    (table w es).wordAt l a base = (es ⟨index a level, index_lt a level⟩).wordAt l a
      (slotBase base (entrySize level) (index a level)) := by
  rw [wordAt, if_neg h]

/-- An entry is found only in the range of the entry from which it is reached, and
at the same level only at its start. -/
theorem of_wordAt {e : PageTableEntry level} (h : e.wordAt l a base = some w) :
    l ≤ level ∧ base ≤ a ∧ a < base + entrySize level ∧ (l = level → base = a) := by
  induction e generalizing base with
  | @leaf level v =>
    have hv : (leaf v : PageTableEntry level).wordAt l a base =
        if level = l ∧ base = a then some v else none := by
      cases level <;> rfl
    rw [hv] at h
    split at h
    · rename_i hpos
      obtain ⟨rfl, rfl⟩ := hpos
      have := entrySize_pos level
      exact ⟨le_rfl, le_rfl, by omega, fun _ => rfl⟩
    · contradiction
  | @table level v es ih =>
    by_cases hpos : level + 1 = l ∧ base = a
    · obtain ⟨rfl, rfl⟩ := hpos
      have := entrySize_pos (level + 1)
      exact ⟨le_rfl, le_rfl, by omega, fun _ => rfl⟩
    · rw [wordAt_table es hpos] at h
      obtain ⟨hl, hlo, hhi, -⟩ := ih _ h
      have hend := slotBase_add_le base level ⟨index a level, index_lt a level⟩
      have hge : base ≤ slotBase base (entrySize level) (index a level) := Nat.le_add_right _ _
      dsimp only at hend
      exact ⟨by omega, by omega, by omega, fun h => by omega⟩

/-- The observer of another entry follows the value written. -/
theorem observe_write_other (old new : PageTableEntry level) (h : ¬(level = l ∧ base = a)) :
    observe l a (cached l (old.wordAt l a base)) (.write base new) =
      some (cached l (new.wordAt l a base)) := by
  simp only [observe, if_neg h]
  split
  · rfl
  · rename_i hbelow
    have hnone : ∀ e : PageTableEntry level, e.wordAt l a base = none := by
      intro e
      cases hw : e.wordAt l a base with
      | none => rfl
      | some w =>
        obtain ⟨hl, hlo, hhi, hsame⟩ := of_wordAt hw
        have hlt : l < level := by
          refine lt_of_le_of_ne hl fun heq => h ⟨heq.symm, hsame heq⟩
        exact absurd ⟨hlt, hlo, hhi⟩ hbelow
    rw [hnone, hnone]

theorem observe_write_self (new : PageTableEntry level) :
    observe level base none (.write base new) = some (cached level (some new.inner)) := by
  simp only [observe, cached, bind_some, true_and, if_true]
  split
  · rfl
  · split <;> rfl

theorem entryBase_eq (haligned : base % entrySize level = 0) (hlo : base ≤ begin)
    (hhi : begin < base + entrySize level) : entryBase level begin = base := by
  have hdiv : begin / entrySize level = base / entrySize level := by
    simpa using div_eq_of_slot (entrySize_pos level) haligned
      (by simpa [slotBase] using hlo : slotBase base (entrySize level) 0 ≤ begin)
      (by simpa [slotBase] using hhi)
  rw [entryBase, hdiv]
  exact Nat.div_mul_cancel (Nat.dvd_of_mod_eq_zero haligned)

/-- Replacing an entry releases its old value, if the update starts with the entry
or the old value is not valid. -/
theorem replaceEvents_exact (self new : PageTableEntry level) (hbase : entryBase level begin = base)
    (hvalid : self.isValid aarch64 = true → new.isValid aarch64 = true ∧ begin = base) :
    Follows l a 0 0 (self.wordAt l a base) (self.replaceEvents aarch64 new begin)
      (new.wordAt l a base) := by
  refine .of_foldlM ?_
  rw [replaceEvents, hbase]
  by_cases hpos : level = l ∧ base = a
  · obtain ⟨rfl, rfl⟩ := hpos
    rw [wordAt_self, wordAt_self]
    cases hself : self.isValid aarch64 with
    | false =>
      have hnone : cached level (some self.inner) = none := by
        rw [cached, bind_some]
        exact if_neg (by rw [← Bool.not_eq_true] at hself; exact hself)
      rw [Bool.false_and, if_neg Bool.false_ne_true, nil_append, hnone]
      exact congrArg (· >>= _) (observe_write_self new)
    | true =>
      obtain ⟨hnew, rfl⟩ := hvalid hself
      have hsome : cached level (some self.inner) = some ⟨self.inner, false⟩ := by
        rw [cached, bind_some]
        exact if_pos hself
      have hbreak : observe level begin (some ⟨self.inner, false⟩)
          (.write begin (absent aarch64 level)) = some (some ⟨self.inner, true⟩) := by
        simp [observe, absent, inner, archMmPteIsValid_absent]
      have hflush : observe level begin (some ⟨self.inner, true⟩)
          (.invalidateTlb begin (begin + entrySize level)) = some none := by
        simp [observe]
      rw [hnew, Bool.and_self, if_pos rfl, hsome, cons_append, cons_append,
        nil_append, foldlM_cons, hbreak]
      change (do let c ← observe level begin (some ⟨self.inner, true⟩) _; _) = _
      rw [hflush]
      exact congrArg (· >>= _) (observe_write_self new)
  · have hwrite : ∀ old : PageTableEntry level,
        [write base new].foldlM (observe l a) (cached l (old.wordAt l a base)) =
          some (cached l (new.wordAt l a base)) := fun old =>
      congrArg (· >>= _) (observe_write_other old new hpos)
    split
    · rw [cons_append, cons_append, nil_append, foldlM_cons, observe_write_other _ _ hpos]
      change (do let c ← observe l a (cached l ((absent aarch64 level).wordAt l a base)) _; _) = _
      rw [observe_invalidateTlb_cached]
      exact hwrite _
    · exact hwrite _

/-- Replacing an entry of the region by an absent one leaves it to be released. -/
theorem replaceEvents_absent (self : PageTableEntry level) (hbase : entryBase level begin = base)
    {begin₀ : Nat} (hlo : begin₀ ≤ base) (hhi : base + entrySize level ≤ endAddr) :
    Follows l a begin₀ endAddr (self.wordAt l a base)
      (self.replaceEvents aarch64 (absent aarch64 level) begin)
      ((absent aarch64 level).wordAt l a base) := by
  have hinvalid : (absent aarch64 level).isValid aarch64 = false :=
    archMmPteIsValid_absent level level
  rw [replaceEvents, hbase, hinvalid, Bool.and_false, if_neg Bool.false_ne_true, nil_append]
  by_cases hpos : level = l ∧ base = a
  · obtain ⟨rfl, rfl⟩ := hpos
    rw [wordAt_self, wordAt_self]
    rcases cached_cases level (some self.inner) with h | ⟨w, h⟩
    · refine .of_foldlM ?_
      rw [h]
      exact congrArg (· >>= _) (observe_write_self _)
    · refine ⟨some ⟨w, true⟩, ?_, Or.inr ⟨rfl, hlo, hhi, w, rfl⟩⟩
      rw [h]
      simp [observe, absent, inner, archMmPteIsValid_absent]
  · exact .of_foldlM (congrArg (· >>= _) (observe_write_other self _ hpos))

end PageTableEntry

/-! ## The events of a walk -/

/-- The event writes only entries of the given level or below, in a range of
addresses. -/
def TableEvent.Within (level base size : Nat) : TableEvent → Prop
  | @write level' base' _ => level' ≤ level ∧ base ≤ base' ∧
      base' + entrySize level' ≤ base + size
  | .invalidateTlb _ _ => True

namespace TableEvent.Within

variable {level base size l a : Nat} {ev : TableEvent}

theorem apart (h : ev.Within level base size) (ha : ¬(l ≤ level ∧ base ≤ a ∧ a < base + size)) :
    ev.Apart l a := by
  cases ev with
  | write base' pte =>
    obtain ⟨hlevel, hlo, hhi⟩ := h
    rintro ⟨hl, hlo', hhi'⟩
    exact ha ⟨by omega, by omega, by omega⟩
  | invalidateTlb b e => trivial

theorem mono {level' base' size' : Nat} (h : ev.Within level base size) (hlevel : level ≤ level')
    (hlo : base' ≤ base) (hhi : base + size ≤ base' + size') : ev.Within level' base' size' := by
  cases ev with
  | write b pte =>
    obtain ⟨hl, hlo', hhi'⟩ := h
    exact ⟨by omega, by omega, by omega⟩
  | invalidateTlb b e => trivial

theorem of_slot {i : Fin 512}
    (h : ev.Within level (slotBase base (entrySize level) i) (entrySize level)) :
    ev.Within level base (entrySize (level + 1)) :=
  h.mono le_rfl (Nat.le_add_right _ _) (slotBase_add_le base level i)

end TableEvent.Within

namespace RawPageTable

open PageTableEntry

variable {A : ArchMm} {endAddr : Nat} {attrs : BitVec 64} {flags : Flags}
  {level base begin : Nat} {mpool : MPool}

/-- The events of one iteration of the loop of `map_level`. -/
def mapEntryEvents (A : ArchMm) (endAddr : Nat) (attrs : BitVec 64) (flags : Flags) :
    (level : Nat) → UpdateEvents level
  | 0 => mapPteEvents A endAddr attrs flags 0 fun _ _ _ => []
  | level + 1 => mapPteEvents A endAddr attrs flags (level + 1)
      (mapSubtableEvents A flags (mapLevel A endAddr attrs flags level)
        (mapLevelEvents A endAddr attrs flags level))

theorem mapLevelEvents_eq (begin : Nat) (es : RawPageTable level) (mpool : MPool) :
    mapLevelEvents A endAddr attrs flags level begin es mpool =
      forEachTrace (mapEntry A endAddr attrs flags level)
        (mapEntryEvents A endAddr attrs flags level) (visits endAddr level begin) es mpool := by
  cases level <;> rfl

theorem mapEntryEvents_skip {pte : PageTableEntry level} (hskip : skips A attrs flags pte = true) :
    mapEntryEvents A endAddr attrs flags level begin pte mpool = [] := by
  cases level <;> simp [mapEntryEvents, mapPteEvents, hskip]

theorem mapEntryEvents_cover {pte : PageTableEntry level} (hskip : skips A attrs flags pte = false)
    (hcover : coversEntry A endAddr flags level begin = true) :
    mapEntryEvents A endAddr attrs flags level begin pte mpool =
      if flags.commit then pte.replaceEvents A (newEntry A attrs flags level begin) begin
      else [] := by
  cases level <;> simp [mapEntryEvents, mapPteEvents, hskip, hcover]

theorem mapEntryEvents_descend {pte : PageTableEntry (level + 1)}
    (hskip : skips A attrs flags pte = false)
    (hcover : coversEntry A endAddr flags (level + 1) begin = false) :
    mapEntryEvents A endAddr attrs flags (level + 1) begin pte mpool =
      mapSubtableEvents A flags (mapLevel A endAddr attrs flags level)
        (mapLevelEvents A endAddr attrs flags level) begin pte mpool := by
  simp [mapEntryEvents, mapPteEvents, hskip, hcover]

section Subtable

variable {mapBelow : Nat → RawPageTable level → MPool → Outcome × RawPageTable level × MPool}
  {belowEvents : Nat → RawPageTable level → MPool → List TableEvent} {w : Pte}
  {es es' : RawPageTable level} {mpool' : MPool}

theorem mapSubtableEvents_leaf_none (h : mpool.alloc = none) :
    mapSubtableEvents A flags mapBelow belowEvents begin (.leaf w) mpool = [] := by
  simp [mapSubtableEvents, populateTableEvents, populateTable_leaf_none h]

theorem mapSubtableEvents_leaf_some {page : Nat} (h : mpool.alloc = some (page, mpool')) :
    mapSubtableEvents A flags mapBelow belowEvents begin (.leaf w) mpool =
      (leaf w).replaceEvents A (.table (A.tablePte (level + 1) page) (splitEntries A level w))
          begin ++
        mapSubtableEvents A flags mapBelow belowEvents begin
          (.table (A.tablePte (level + 1) page) (splitEntries A level w)) mpool' := by
  simp only [mapSubtableEvents, populateTableEvents, populateTable_leaf_some h,
    populateTable_table, nil_append]

theorem mapSubtableEvents_table_first {unmap : Bool} :
    mapSubtableEvents A ⟨false, unmap⟩ mapBelow belowEvents begin (.table w es) mpool =
      belowEvents begin es mpool := by
  simp only [mapSubtableEvents, populateTableEvents, populateTable_table, nil_append]
  rcases mapBelow begin es mpool with ⟨_ | _, es', mpool'⟩ <;> simp

theorem mapSubtableEvents_table_ok (h : mapBelow begin es mpool = (.ok, es', mpool'))
    (hempty : (flags.commit && flags.unmap && isEmpty A es') = false) :
    mapSubtableEvents A flags mapBelow belowEvents begin (.table w es) mpool =
      belowEvents begin es mpool := by
  simp [mapSubtableEvents, populateTableEvents, populateTable_table, h, hempty]

end Subtable

theorem within_replaceEvents {self new : PageTableEntry level}
    (hbase : entryBase level begin = base) :
    ∀ ev ∈ self.replaceEvents A new begin, ev.Within level base (entrySize level) := by
  intro ev hev
  rw [replaceEvents, mem_append, mem_singleton, hbase] at hev
  rcases hev with hev | rfl
  · split at hev
    · rcases mem_pair.mp hev with rfl | rfl
      · exact ⟨le_rfl, le_rfl, le_rfl⟩
      · trivial
    · exact absurd hev not_mem_nil
  · exact ⟨le_rfl, le_rfl, le_rfl⟩

theorem within_mapSubtableEvents
    {mapBelow : Nat → RawPageTable level → MPool → Outcome × RawPageTable level × MPool}
    {belowEvents : Nat → RawPageTable level → MPool → List TableEvent}
    (hbase : entryBase (level + 1) begin = base)
    (hbelow : ∀ es mpool, ∀ ev ∈ belowEvents begin es mpool,
      ev.Within level base (entrySize (level + 1))) (pte : PageTableEntry (level + 1)) :
    ∀ ev ∈ mapSubtableEvents A flags mapBelow belowEvents begin pte mpool,
      ev.Within (level + 1) base (entrySize (level + 1)) := by
  intro ev hev
  rw [mapSubtableEvents, mem_append] at hev
  rcases hev with hev | hev
  · unfold populateTableEvents at hev
    split at hev
    · exact absurd hev not_mem_nil
    · split at hev
      · exact within_replaceEvents hbase ev hev
      · exact absurd hev not_mem_nil
  · split at hev
    · rw [mem_append] at hev
      rcases hev with hev | hev
      · exact (hbelow _ _ ev hev).mono (Nat.le_succ _) le_rfl le_rfl
      · split at hev
        · split at hev
          · exact within_replaceEvents hbase ev hev
          · exact absurd hev not_mem_nil
        · exact absurd hev not_mem_nil
    · exact absurd hev not_mem_nil

theorem within_mapLevelEvents (hin : InEntry (level + 1) base begin endAddr)
    {es : RawPageTable level}
    (hentry : ∀ {base begin : Nat} {pte : PageTableEntry level} {mpool : MPool},
      InEntry level base begin endAddr →
      ∀ ev ∈ mapEntryEvents A endAddr attrs flags level begin pte mpool,
        ev.Within level base (entrySize level)) :
    ∀ ev ∈ mapLevelEvents A endAddr attrs flags level begin es mpool,
      ev.Within level base (entrySize (level + 1)) := by
  intro ev hev
  rw [mapLevelEvents_eq] at hev
  obtain ⟨i, b, pte, mpool', hb, hev⟩ := of_mem_forEachTrace hev
  exact (hentry (hin.child hb) ev hev).of_slot

theorem within_mapEntryEvents : ∀ (level : Nat) {base begin : Nat} {pte : PageTableEntry level}
    {mpool : MPool}, InEntry level base begin endAddr →
    ∀ ev ∈ mapEntryEvents A endAddr attrs flags level begin pte mpool,
      ev.Within level base (entrySize level) := by
  intro level
  induction level with
  | zero =>
    intro base begin pte mpool hin ev hev
    rw [mapEntryEvents, mapPteEvents] at hev
    split at hev
    · exact absurd hev not_mem_nil
    · split at hev
      · split at hev
        · exact within_replaceEvents (entryBase_eq hin.aligned hin.lo hin.hi) ev hev
        · exact absurd hev not_mem_nil
      · exact absurd hev not_mem_nil
  | succ level ih =>
    intro base begin pte mpool hin ev hev
    have hbase := entryBase_eq hin.aligned hin.lo hin.hi
    rw [mapEntryEvents, mapPteEvents] at hev
    split at hev
    · exact absurd hev not_mem_nil
    · split at hev
      · split at hev
        · exact within_replaceEvents hbase ev hev
        · exact absurd hev not_mem_nil
      · exact within_mapSubtableEvents hbase (fun es mpool => within_mapLevelEvents hin ih) pte ev
          hev

/-- The events at another entry of a table do not concern an entry. -/
theorem apart_of_slot (hin : InEntry (level + 1) base begin endAddr) {i : Fin 512} {l a : Nat}
    (hne : i ≠ ⟨index a level, index_lt a level⟩) {ev : TableEvent}
    (h : ev.Within level (slotBase base (entrySize level) i) (entrySize level)) : ev.Apart l a := by
  refine h.apart fun ha => hne (Fin.ext ?_)
  exact (index_of_slot hin.aligned i.isLt ha.2.1 ha.2.2).symm

/-- A loop over the entries of a table, as seen by an entry: only what happens at
the entry of the table that leads to it matters. -/
theorem mapLevel_follows {l a begin₀ endAddr₀ : Nat} {es : RawPageTable level}
    (hin : InEntry (level + 1) base begin endAddr) (I : MPool → Prop) (hI : I mpool)
    (hstep : ∀ i b, (i, b) ∈ visits endAddr level begin → ∀ s, I s →
      I (mapEntry A endAddr attrs flags level b (es i) s).2.2)
    (hentry : ∀ i b, (i, b) ∈ visits endAddr level begin → ∀ s, I s →
      Follows l a begin₀ endAddr₀ ((es i).wordAt l a (slotBase base (entrySize level) i))
        (mapEntryEvents A endAddr attrs flags level b (es i) s)
        ((mapEntry A endAddr attrs flags level b (es i) s).2.1.wordAt l a
          (slotBase base (entrySize level) i))) (w : Pte) :
    Follows l a begin₀ endAddr₀ ((table w es).wordAt l a base)
      (mapLevelEvents A endAddr attrs flags level begin es mpool)
      ((table w (mapLevel A endAddr attrs flags level begin es mpool).2.1).wordAt l a base) := by
  by_cases hself : level + 1 = l ∧ base = a
  · obtain ⟨rfl, rfl⟩ := hself
    rw [wordAt_self, wordAt_self]
    exact .of_apart fun ev hev =>
      (within_mapLevelEvents hin (within_mapEntryEvents level) ev hev).apart fun h => by omega
  · rw [wordAt_table _ hself, wordAt_table _ hself, mapLevelEvents_eq, mapLevel_eq]
    have hother : ∀ i b, (i, b) ∈ visits endAddr level begin →
        i ≠ ⟨index a level, index_lt a level⟩ → ∀ s,
        ∀ ev ∈ mapEntryEvents A endAddr attrs flags level b (es i) s, ev.Apart l a :=
      fun i b hb hne s ev hev =>
        apart_of_slot hin hne (within_mapEntryEvents level (hin.child hb) ev hev)
    exact forEachTrace_cell I
      (fun c => c = cached l ((es ⟨index a level, index_lt a level⟩).wordAt l a
        (slotBase base (entrySize level) (index a level))))
      (fun e c => Pending l a begin₀ endAddr₀
        (e.wordAt l a (slotBase base (entrySize level) (index a level))) c)
      ⟨index a level, index_lt a level⟩ (InEntry.visits_nodup endAddr level begin) hI
      (fun i b hb hne s c hc =>
        ⟨c, by rw [hc]; exact foldlM_apart_cached (hother i b hb hne s), hc⟩)
      (fun e i b hb hne s c hc => foldlM_apart_pending (hother i b hb hne s) hc)
      hstep (fun b hb s hs c hc => by rw [hc]; exact hentry _ b hb s hs)
      (fun c hc => Or.inl hc) rfl

end RawPageTable

end Hafnium
