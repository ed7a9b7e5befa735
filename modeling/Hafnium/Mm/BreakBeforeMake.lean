import Hafnium.Mm.Merging
import Hafnium.Mm.Passes

/-!
# When updates of page tables break before they make

`replace` breaks before it makes, but only for the addresses from where the
update starts in the entry, and not every write goes through it with both values
valid.  For updates that split no valid block except at its start, map valid
modes only and empty no table, each reachable entry is released before it gets
another valid value; `defrag` has to find nothing to merge.
-/

namespace Hafnium

open Support Aarch64 PageTableEntry RawPageTable List PageTable

/-! ## Whole page tables -/

namespace PageTable

variable {S : Stage} {strict unmap : Bool} {l a begin endAddr : Nat} {attrs : BitVec 64}
  {flags : Flags} {mpool : MPool}

theorem wordAt_eq (pt : PageTable S) (ht : a / entrySize S.rootLevel < S.rootTableCount)
    (hl : l ≤ S.maxLevel) :
    pt.wordAt l a = (pt.entry ⟨_, ht⟩).wordAt l a (S.rootBase (a / entrySize S.rootLevel)) := by
  rw [wordAt, dif_pos ht, entry, wordAt_table _ (by omega)]

theorem wordAt_eq_none (pt : PageTable S)
    (h : ¬(l ≤ S.maxLevel ∧ a / entrySize S.rootLevel < S.rootTableCount)) :
    pt.wordAt l a = none := by
  rw [wordAt]
  split
  · rename_i ht
    cases hw : (pt.tables ⟨_, ht⟩ ⟨index a S.maxLevel, S.rootIndex_lt a⟩).wordAt l a
        (slotBase (S.rootBase (a / entrySize S.rootLevel)) (entrySize S.maxLevel)
          (index a S.maxLevel)) with
    | none => rfl
    | some w => exact absurd ⟨(of_wordAt hw).1, ht⟩ h
  · rfl

/-- The events at a root table concern only the entries below it. -/
theorem apart_of_root (hS : S.Valid) (hin : InSpace S begin endAddr) {t : Fin S.rootTableCount}
    {b : Nat} (hb : (t, b) ∈ visits S endAddr begin)
    (h : ¬(l ≤ S.maxLevel ∧ a / entrySize S.rootLevel = t)) (es : RawPageTable S.maxLevel) :
    ∀ ev ∈ mapLevelEvents aarch64 endAddr attrs flags S.maxLevel b es mpool, ev.Apart l a := by
  intro ev hev
  refine (within_mapLevelEvents (hin.child hS hb)
    (within_mapEntryEvents S.maxLevel) ev hev).apart ?_
  rintro ⟨hl, hlo, hhi⟩
  have hdiv := div_eq_of_slot (entrySize_pos S.rootLevel) (Nat.zero_mod _) hlo hhi
  exact h ⟨hl, by simpa using hdiv⟩

variable {r : Outcome × PageTable S × MPool} {pt : PageTable S}

/-- A pass over the root tables, as seen by an entry. -/
theorem mapRoot_follows (hS : S.Valid) (hin : InSpace S begin endAddr) {begin₀ endAddr₀ : Nat}
    (I : MPool → Prop) (hI : I mpool)
    (hstep : ∀ t b, (t, b) ∈ visits S endAddr begin → ∀ s, I s →
      I (mapLevel aarch64 endAddr attrs flags S.maxLevel b (pt.tables t) s).2.2)
    (htable : ∀ t b, (t, b) ∈ visits S endAddr begin → ∀ s, I s → ∀ w, Follows l a begin₀ endAddr₀
        ((table w (pt.tables t)).wordAt l a (S.rootBase t))
        (mapLevelEvents aarch64 endAddr attrs flags S.maxLevel b (pt.tables t) s)
        ((table w (mapLevel aarch64 endAddr attrs flags S.maxLevel b
          (pt.tables t) s).2.1).wordAt l a (S.rootBase t)))
    (hr : pt.mapRoot aarch64 begin endAddr attrs flags mpool = some r) :
    Follows l a begin₀ endAddr₀ (pt.wordAt l a)
      (pt.mapRootEvents aarch64 begin endAddr attrs flags mpool) (r.2.1.wordAt l a) := by
  have hidx := InSpace.index_eq hS (hin.lt.trans_le hin.le)
  rw [mapRoot_eq pt mpool (by omega)] at hr
  cases hr
  rw [mapRootEvents, if_neg (by omega)]
  by_cases hpos : l ≤ S.maxLevel ∧ a / entrySize S.rootLevel < S.rootTableCount
  · obtain ⟨hl, ht⟩ := hpos
    rw [wordAt_eq _ ht hl, wordAt_eq _ ht hl, entry, entry]
    have hother : ∀ t b, (t, b) ∈ visits S endAddr begin → t ≠ ⟨a / entrySize S.rootLevel, ht⟩ →
        ∀ s, ∀ ev ∈ mapLevelEvents aarch64 endAddr attrs flags S.maxLevel b
          (pt.tables t) s, ev.Apart l a := fun t b hb hne s =>
      apart_of_root hS hin hb (fun h => hne (Fin.ext h.2.symm)) _
    exact forEachTrace_cell I
      (fun c => c = cached l ((table (archMmTablePte (S.maxLevel + 1) 0)
        (pt.tables ⟨_, ht⟩)).wordAt l a (S.rootBase (a / entrySize S.rootLevel))))
      (fun es c => Pending l a begin₀ endAddr₀
        ((table (archMmTablePte (S.maxLevel + 1) 0) es).wordAt l a
          (S.rootBase (a / entrySize S.rootLevel))) c)
      ⟨_, ht⟩ (InSpace.visits_nodup S endAddr begin) hI
      (fun t b hb hne s c hc =>
        ⟨c, by rw [hc]; exact foldlM_apart_cached (hother t b hb hne s), hc⟩)
      (fun es t b hb hne s c hc => foldlM_apart_pending (hother t b hb hne s) hc)
      hstep (fun b hb s hs c hc => by rw [hc]; exact htable _ b hb s hs _)
      (fun c hc => Or.inl hc) rfl
  · rw [wordAt_eq_none _ hpos, wordAt_eq_none _ hpos]
    refine .of_apart fun ev hev => ?_
    obtain ⟨t, b, es, s, hb, hev⟩ := of_mem_forEachTrace hev
    exact apart_of_root hS hin hb (fun h => hpos ⟨h.1, h.2 ▸ t.isLt⟩) es ev hev

/-- An update does not cut a valid block at its start. -/
def StartsAt (pt : PageTable S) (attrs : BitVec 64) (unmap : Bool) (begin : Nat) : Prop :=
  ∀ x ∈ pt.lookup begin, x.StartsAt attrs unmap begin

/-- Every table that the region meets but does not contain has a present page
outside the region. -/
def KeepsTables (pt : PageTable S) (begin endAddr : Nat) : Prop :=
  ∀ t (i : Fin 512), (pt.tables t i).KeepsTables begin endAddr
    (slotBase (S.rootBase t) (entrySize S.maxLevel) i)

/-- The region meets no valid leaf, and contains no table that a block could replace. -/
def Void (pt : PageTable S) (begin endAddr : Nat) : Prop :=
  ∀ t (i : Fin 512), (pt.tables t i).Void begin endAddr
    (slotBase (S.rootBase t) (entrySize S.maxLevel) i)

theorem startsAt_entry (hS : S.Valid) (hin : InSpace S begin endAddr)
    (h : pt.StartsAt attrs unmap begin) {t : Fin S.rootTableCount} {b : Nat}
    (hb : (t, b) ∈ visits S endAddr begin) :
    ((pt.entry t).lookup b).StartsAt attrs unmap b := by
  obtain ⟨hle, rfl, -⟩ := (hin.mem_visits hS t b).mp hb
  obtain ⟨hlo, hhi⟩ := InSpace.rootBase_le S begin
  obtain ⟨-, ht⟩ := InSpace.index_eq hS (hin.lt.trans_le hin.le)
  by_cases heq : begin / entrySize S.rootLevel = t
  · obtain rfl : t = ⟨_, ht⟩ := Fin.ext heq.symm
    rw [max_eq_left hlo]
    exact h _ (by rw [lookup_eq pt ht]; rfl)
  · have hmono := slotBase_mono 0 (entrySize S.rootLevel) (Nat.lt_of_le_of_ne hle heq)
    rw [slotBase_succ] at hmono
    have hge : begin ≤ S.rootBase t := hhi.le.trans hmono
    rw [max_eq_right hge]
    exact startsAt_of_aligned _ (InSpace.rootBase_aligned S t)

theorem mapRoot_first (hS : S.Valid) (hin : InSpace S begin endAddr)
    (hwf : pt.Wf strict) (hpool : mpool.Wf) (hstarts : pt.StartsAt attrs unmap begin)
    (hr : pt.mapRoot aarch64 begin endAddr attrs ⟨false, unmap⟩ mpool = some r) :
    Follows l a 0 0 (pt.wordAt l a)
      (pt.mapRootEvents aarch64 begin endAddr attrs ⟨false, unmap⟩ mpool) (r.2.1.wordAt l a) := by
  refine mapRoot_follows hS hin MPool.Wf hpool (fun t b hb s hs => ?_) (fun t b hb s hs w => ?_) hr
  · exact (splitTable_of_entries (hin.child hS hb) hs
      (mapEntry_splitPass rfl S.maxLevel)).drawn.wf
  · have hchild := hin.child hS hb
    exact mapLevel_follows hchild MPool.Wf hs
      (fun i b' hb' s' hs' =>
        (mapEntry_splitPass rfl S.maxLevel (hchild.child hb') hs').wf)
      (fun i b' hb' s' hs' => mapEntry_first S.maxLevel (hchild.child hb') (hwf t i) hs'
        (startsAt_child hchild (startsAt_entry hS hin hstarts hb) hb')) w

theorem mapRoot_throughout {P : Nat → Nat → Pte → Prop}
    {T : {level : Nat} → Nat → PageTableEntry level → Prop} (hS : S.Valid)
    (hin : InSpace S begin endAddr) (hwf : pt.Wf strict) (hpool : mpool.Wf)
    (hkept : KeptBySplit strict unmap begin endAddr attrs P T)
    (hpt : ∀ t (i : Fin 512), (pt.tables t i).Throughout P T
      (slotBase (S.rootBase t) (entrySize S.maxLevel) i))
    (hr : pt.mapRoot aarch64 begin endAddr attrs ⟨false, unmap⟩ mpool = some r) :
    ∀ t (i : Fin 512), (r.2.1.tables t i).Throughout P T
      (slotBase (S.rootBase t) (entrySize S.maxLevel) i) := by
  have hidx := InSpace.index_eq hS (hin.lt.trans_le hin.le)
  rw [mapRoot_eq pt mpool (by omega)] at hr
  cases hr
  refine forEach_forall MPool.Wf
    (fun (t : Fin S.rootTableCount) (es : RawPageTable S.maxLevel) => ∀ i, (es i).Throughout P T
      (slotBase (S.rootBase t) (entrySize S.maxLevel) i))
    (InSpace.visits_nodup S endAddr begin) hpool hpt fun t b hb s hs => ?_
  have hchild := hin.child hS hb
  refine ⟨(splitTable_of_entries hchild hs (mapEntry_splitPass rfl S.maxLevel)).drawn.wf, ?_⟩
  obtain ⟨-, rfl, -⟩ := (hin.mem_visits hS t b).mp hb
  exact mapLevel_throughout hchild rfl hs (hwf t) (hpt t) (mapEntry_throughout hkept S.maxLevel)

theorem mapRoot_second (hS : S.Valid) (hin : InSpace S begin endAddr) (hattrs : AttrsOk attrs)
    (hwf : pt.Wf strict)
    (hcovered : Covered endAddr attrs ⟨true, unmap⟩ begin pt)
    (hok : ∀ (t : Fin S.rootTableCount) (i : Fin 512),
      RawPageTable.SecondOk attrs unmap begin endAddr
      (slotBase (S.rootBase t) (entrySize S.maxLevel) i) (pt.tables t i))
    (hr : pt.mapRoot aarch64 begin endAddr attrs ⟨true, unmap⟩ mpool = some r) :
    Follows l a begin endAddr (pt.wordAt l a)
      (pt.mapRootEvents aarch64 begin endAddr attrs ⟨true, unmap⟩ mpool) (r.2.1.wordAt l a) := by
  refine mapRoot_follows hS hin (fun _ => True) trivial (fun _ _ _ _ _ => trivial)
    (fun t b hb s _ w => ?_) hr
  have hchild := hin.child hS hb
  have hmax : b = max begin (S.rootBase t) := ((hin.mem_visits hS t b).mp hb).2.1
  exact mapLevel_follows hchild (fun _ => True) trivial (fun _ _ _ _ _ => trivial)
    (fun i b' hb' s' _ => mapEntry_second hattrs (hcovered t b hb i b' hb')
      (hchild.child hb') (hchild.eq_max hmax hb') (hwf t i) (hok t i) s') w

/-- An orderly update breaks before it makes, and has released everything when it
returns. -/
theorem identityUpdate_follows (hpt : pt.Regular strict) (hpool : mpool.Wf)
    (hattrs : AttrsOk attrs) (hstarts : pt.StartsAt attrs unmap (archMmClearPa begin))
    (hkeeps : unmap = true → pt.KeepsTables (archMmClearPa begin) (S.updateEnd endAddr))
    (hvalid : unmap = false → (∀ l, archMmPteIsValid attrs l = true) ∨
      pt.Void (archMmClearPa begin) (S.updateEnd endAddr)) :
    ∃ word', Follows l a 0 0 (pt.wordAt l a)
        (pt.identityUpdateEvents aarch64 begin endAddr attrs ⟨false, unmap⟩ mpool) word' ∧
      ∀ r, pt.identityUpdate aarch64 begin endAddr attrs ⟨false, unmap⟩ mpool = some r →
        word' = r.2.1.wordAt l a := by
  have hS := hpt.fits.toValid
  simp only [identityUpdateEvents, identityUpdate, aarch64_clearPa]
  by_cases hlt : archMmClearPa begin < S.updateEnd endAddr
  · have hin := inSpace_update hS hlt
    have hbound : S.updateEnd endAddr ≤ 2 ^ 48 :=
      (Nat.min_le_right _ _).trans hpt.fits.ptableAddrSpaceEnd_le_field
    obtain ⟨⟨o, mid, mpool'⟩, hfirst, hsplit⟩ :=
      mapRoot_splitPass hS hin attrs ⟨false, unmap⟩ rfl pt hpool
    have hfollows₁ := mapRoot_first (l := l) (a := a) hS hin hpt.wf hpool hstarts hfirst
    simp only [hfirst]
    cases o with
    | err => exact ⟨_, by rw [append_nil]; exact hfollows₁, fun r hr => by cases hr; rfl⟩
    | ok =>
      have hcovered := (hsplit.covered rfl).commit
      obtain ⟨⟨o', pt', mpool''⟩, hsecond, hres⟩ := mapRoot_commitPass hS hin rfl hcovered mpool'
      obtain rfl : o' = .ok := hres.ok
      have hok : ∀ (t : Fin S.rootTableCount) (i : Fin 512),
          RawPageTable.SecondOk attrs unmap (archMmClearPa begin) (S.updateEnd endAddr)
            (slotBase (S.rootBase t) (entrySize S.maxLevel) i) (mid.tables t i) := by
        cases unmap with
        | true =>
          exact mapRoot_throughout hS hin hpt.wf hpool keptBySplit_outlasts (hkeeps rfl) hfirst
        | false =>
          intro t i
          refine ⟨hbound, (hvalid rfl).imp_right fun hvoid => ?_⟩
          exact mapRoot_throughout hS hin hpt.wf hpool keptBySplit_void hvoid hfirst t i
      have hfollows₂ := mapRoot_second (l := l) (a := a) hS hin hattrs
        (hsplit.splits.wf hpt.wf) hcovered hok hsecond
      simp only [hsecond]
      exact ⟨_, hfollows₁.trans hfollows₂.release, fun r hr => by cases hr; rfl⟩
  · -- the region is empty, so both passes visit nothing
    have hnil := visits_eq_nil (S := S) (Nat.not_lt.mp hlt)
    have hroot : ∀ flags, pt.mapRootEvents aarch64 (archMmClearPa begin) (S.updateEnd endAddr) attrs
        flags mpool = [] ∧
        (pt.mapRoot aarch64 (archMmClearPa begin) (S.updateEnd endAddr) attrs flags mpool = none ∨
          pt.mapRoot aarch64 (archMmClearPa begin) (S.updateEnd endAddr) attrs flags mpool =
            some (.ok, pt, mpool)) := by
      intro flags
      rw [mapRoot, mapRootEvents, hnil]
      split
      · exact ⟨rfl, Or.inl rfl⟩
      · exact ⟨rfl, Or.inr rfl⟩
    obtain ⟨h1, h2 | h2⟩ := hroot ⟨false, unmap⟩
    · simp only [h1, h2]
      exact ⟨_, .refl, fun r hr => by cases hr⟩
    · obtain ⟨h3, h4 | h4⟩ := hroot ⟨true, unmap⟩
      · simp only [h1, h2, h3, h4]
        exact ⟨_, .refl, fun r hr => by cases hr⟩
      · simp only [h1, h2, h3, h4]
        exact ⟨_, .of_apart (by simp [TableEvent.Apart]), fun r hr => by cases hr; rfl⟩

end PageTable

/-! ## Defragmentation -/

namespace PageTableEntry

variable {level base : Nat}

theorem entries_of_mergeTable {w : Pte} {es : RawPageTable level}
    {r : List (Option (BitVec 64)) × RawPageTable level × MPool}
    (h : (mergeTable aarch64 w r).2.1 = table w es) : r.2.1 = es := by
  obtain ⟨rs, es', mpool⟩ := r
  simp only [mergeTable] at h
  split at h
  · injection h
  · split at h
    · contradiction
    · split at h
      · injection h
      · contradiction

/-- `defrag` writes nothing where it finds nothing to merge. -/
theorem defragEvents_eq_nil (e : PageTableEntry level) {mpool : MPool}
    (h : (e.defrag aarch64 mpool).2.1 = e) : e.defragEvents aarch64 base mpool = [] := by
  induction e generalizing base mpool with
  | @leaf level w => cases level <;> rfl
  | @table level w es ih =>
    rw [defragEvents]
    split
    · rfl
    · rename_i hblock
      have hdefrag : (table w es).defrag aarch64 mpool = mergeTable aarch64 w
          (mapAll (fun pte mpool => pte.defrag aarch64 mpool) (finRange 512) es mpool) :=
        if_neg hblock
      have hnodup := nodup_finRange 512
      rw [hdefrag] at h ⊢
      generalize finRange 512 = is at h hnodup ⊢
      rw [mapAllTrace_eq_nil hnodup (fun i _ s => ih i) (entries_of_mergeTable h), nil_append]
      rcases hres : mergeTable aarch64 w
        (mapAll (fun pte mpool => pte.defrag aarch64 mpool) is es mpool) with ⟨o, e', mpool'⟩
      rw [hres] at h
      obtain rfl : e' = table w es := h
      rfl

/-- What `defrag` reports of an entry that is no table. -/
def leafAttrs : {level : Nat} → PageTableEntry level → Option (BitVec 64)
  | level, leaf w => if archMmPteIsBlock w level then some (archMmPteAttrs w level) else none
  | _, table _ _ => none

/-- No table has only entries of the same attributes, unless these are present and no block
is allowed in its place. -/
def Settled : {level : Nat} → PageTableEntry level → Prop
  | _, leaf _ => True
  | level + 1, table _ es => (∀ a, (∀ i, (es i).leafAttrs = some a) →
      archMmPteIsPresent a level = true ∧ archMmIsBlockAllowed (level + 1) = false) ∧
    ∀ i, (es i).Settled

theorem defragResult_of_settled {strict : Bool} (e : PageTableEntry level)
    (hwf : e.Wf strict base) (h : e.Settled) : e.defragResult aarch64 = (e.leafAttrs, e) := by
  induction e generalizing base with
  | leaf w => exact defragResult_leaf aarch64 w
  | @table level w es ih =>
    have hentries : (fun i => (es i).defragResult aarch64) = fun i => ((es i).leafAttrs, es i) :=
      funext fun i => ih i (hwf.2 i) (h.2 i)
    have hblock : aarch64.pteIsBlock w (level + 1) = false := archMmPteIsBlock_of_isTable hwf.1
    rw [defragResult_table_eq, hblock, if_neg Bool.false_ne_true, hentries]
    have hmerging := merging_mergeResult aarch64 w fun i => ((es i).leafAttrs, es i)
    generalize mergeResult aarch64 w (fun i => ((es i).leafAttrs, es i)) = r at hmerging ⊢
    cases hmerging with
    | stays _ => rfl
    | emptied ha hpresent => cases (h.1 _ ha).1.symm.trans hpresent
    | merged ha _ hallowed => cases hallowed.symm.trans (h.1 _ ha).2

end PageTableEntry

/-- No table is to be replaced by a block or an absent entry. -/
def PageTable.Settled {S : Stage} (pt : PageTable S) : Prop := ∀ t i, (pt.tables t i).Settled

theorem PageTable.defrag_of_settled {S : Stage} {strict : Bool} {pt : PageTable S}
    (hwf : pt.Wf strict) (h : pt.Settled) (mpool : MPool) : (pt.defrag aarch64 mpool).1 = pt := by
  have htables : (pt.defrag aarch64 mpool).1.tables = pt.tables := by
    funext t i
    rw [defrag_tables, defragResult_of_settled _ (hwf t i) (h t i)]
  rw [defrag] at htables ⊢
  exact congrArg (mk pt.root) htables

theorem PageTable.defragEvents_eq_nil {S : Stage} {pt : PageTable S} {mpool : MPool}
    (h : (pt.defrag aarch64 mpool).1 = pt) : pt.defragEvents aarch64 mpool = [] := by
  have hnodup := nodup_finRange 512
  rw [defragEvents]
  rw [defrag] at h
  generalize finRange 512 = is at h hnodup ⊢
  refine mapAllTrace_eq_nil (nodup_finRange _) (fun t _ s ht => ?_)
    (congrArg tables h)
  exact mapAllTrace_eq_nil hnodup (fun i _ s' hi => PageTableEntry.defragEvents_eq_nil _ hi) ht

/-! ## Runs -/

/-- A call on a page table, with the pool that it finds. -/
inductive TableCall
  | identityMap (begin endAddr : Nat) (mode : Mode) (mpool : MPool)
  | unmap (begin endAddr : Nat) (mpool : MPool)
  | defrag (mpool : MPool)

def TableCall.mpool : TableCall → MPool
  | .identityMap _ _ _ mpool => mpool
  | .unmap _ _ mpool => mpool
  | .defrag mpool => mpool

namespace PageTable

variable {S : Stage} {strict : Bool}

/-- The table after a call; `none` is a panic. -/
def call (pt : PageTable S) : TableCall → Option (PageTable S)
  | .identityMap begin endAddr mode mpool =>
    (pt.identityMap aarch64 begin endAddr mode mpool).map fun r => r.2.1
  | .unmap begin endAddr mpool => (pt.unmap aarch64 begin endAddr mpool).map fun r => r.2.1
  | .defrag mpool => some (pt.defrag aarch64 mpool).1

def callEvents (pt : PageTable S) : TableCall → List TableEvent
  | .identityMap begin endAddr mode mpool => pt.identityMapEvents aarch64 begin endAddr mode mpool
  | .unmap begin endAddr mpool => pt.unmapEvents aarch64 begin endAddr mpool
  | .defrag mpool => pt.defragEvents aarch64 mpool

/-- A call that cuts no valid block except at its start, replaces valid entries by valid
ones only, empties no table that is not in its region, and finds nothing to merge. -/
def Orderly (pt : PageTable S) : TableCall → Prop
  | .identityMap begin endAddr mode _ =>
    (mode &&& Mode.INVALID = 0#32 ∨ pt.Void (archMmClearPa begin) (S.updateEnd endAddr)) ∧
      pt.StartsAt (S.modeToAttrs aarch64 mode) false (archMmClearPa begin)
  | .unmap begin endAddr _ =>
    pt.StartsAt (S.modeToAttrs aarch64 (Mode.UNOWNED ||| Mode.INVALID ||| Mode.SHARED)) true
      (archMmClearPa begin) ∧
    pt.KeepsTables (archMmClearPa begin) (S.updateEnd endAddr)
  | .defrag _ => pt.Settled

theorem Regular.call {pt pt' : PageTable S} (hpt : pt.Regular strict) {x : TableCall}
    (hpool : x.mpool.Wf) (h : pt.call x = some pt') : pt'.Regular strict := by
  cases x with
  | identityMap begin endAddr mode mpool =>
    obtain ⟨⟨o, pt'', mpool'⟩, hr, rfl⟩ := Option.map_eq_some_iff.mp h
    exact (hpt.identityUpdate hpool (attrsOk_modeToAttrs S mode) hr).1
  | unmap begin endAddr mpool =>
    obtain ⟨⟨o, pt'', mpool'⟩, hr, rfl⟩ := Option.map_eq_some_iff.mp h
    exact (hpt.identityUpdate hpool (attrsOk_modeToAttrs S _) hr).1
  | defrag mpool =>
    cases h
    have hspec := defrag_spec hpt.wf hpt.plain mpool
    exact ⟨hpt.fits, hspec.wf, hspec.plain⟩

/-- An orderly call releases every value that it replaces. -/
theorem Orderly.follows {pt : PageTable S} (hpt : pt.Regular strict) {x : TableCall}
    (hpool : x.mpool.Wf) (h : pt.Orderly x) (l a : Nat) :
    ∃ word', Follows l a 0 0 (pt.wordAt l a) (pt.callEvents x) word' ∧
      ∀ pt', pt.call x = some pt' → word' = pt'.wordAt l a := by
  cases x with
  | identityMap begin endAddr mode mpool =>
    obtain ⟨hmode, hstarts⟩ := h
    obtain ⟨word', hfollows, hword⟩ := identityUpdate_follows (l := l) (a := a) hpt hpool
      (attrsOk_modeToAttrs S mode) hstarts nofun (fun _ => hmode.imp_left fun hmode l => by
        rw [isValid_modeToAttrs, hmode]
        rfl)
    refine ⟨word', hfollows, fun pt' hpt' => ?_⟩
    obtain ⟨r, hr, rfl⟩ := Option.map_eq_some_iff.mp hpt'
    exact hword r hr
  | unmap begin endAddr mpool =>
    obtain ⟨hstarts, hkeeps⟩ := h
    obtain ⟨word', hfollows, hword⟩ := identityUpdate_follows (l := l) (a := a) hpt hpool
      (attrsOk_modeToAttrs S _) hstarts (fun _ => hkeeps) nofun
    refine ⟨word', hfollows, fun pt' hpt' => ?_⟩
    obtain ⟨r, hr, rfl⟩ := Option.map_eq_some_iff.mp hpt'
    exact hword r hr
  | defrag mpool =>
    have hsame := defrag_of_settled hpt.wf h mpool
    refine ⟨pt.wordAt l a, ?_, fun pt' hpt' => ?_⟩
    · rw [callEvents, defragEvents_eq_nil hsame]
      exact .refl
    · cases hpt'
      rw [hsame]

/-- Runs of orderly calls break before they make. -/
theorem breakBeforeMake_of_orderly {pt : PageTable S} (hpt : pt.Regular strict)
    {calls : List TableCall} (hpool : ∀ x ∈ calls, x.mpool.Wf)
    (h : Always call Orderly calls pt) : BreakBeforeMake pt (trace call callEvents calls pt) := by
  intro l a
  refine isSome_foldlM_trace (observe l a) (fun pt => cached l (pt.wordAt l a))
    (fun pt => pt.Regular strict) (fun _ _ _ hpt hx h => hpt.call hx h)
    (fun pt x hpt hx hok => ?_) hpt hpool h
  obtain ⟨word', hfollows, hword⟩ := Orderly.follows hpt hx hok l a
  exact ⟨_, hfollows.foldlM_eq, fun pt' hpt' => congrArg (cached l) (hword pt' hpt')⟩

/-- A block is split at its start and its first page changed. -/
theorem breakBeforeMake_split : BreakBeforeMake emptyTable
    (trace call callEvents [.identityMap 0 0x200000 0#32 examplePool,
      .identityMap 0 0x1000 Mode.R examplePool] emptyTable) := by
  have hzero : archMmClearPa 0 = 0 := by decide
  have hstart : ∀ (pt : PageTable exampleStage) attrs, pt.StartsAt attrs false (archMmClearPa 0) :=
    fun pt attrs x _ _ => Or.inr (by rw [hzero, Nat.zero_mod])
  refine breakBeforeMake_of_orderly (regular_emptyTable false) ?_
    ⟨⟨.inl (by decide), hstart _ _⟩, fun pt _ =>
      ⟨⟨.inl (by decide), hstart pt _⟩, fun _ _ => trivial⟩⟩
  intro x hx
  rcases List.mem_pair.mp hx with rfl | rfl <;> exact wf_examplePool

/-- Pages that are all mapped alike. -/
def fullEntries : RawPageTable 0 := fun j =>
  .block aarch64 0 (j.val * 0x1000) (archMmModeToStage2Attrs 0#32)

def fullTable : PageTable exampleStage where
  root := 0x10000
  tables _ i :=
    if i = 0 then .table (archMmTablePte 1 0x20000) fullEntries else .absent aarch64 1

theorem isPa_fullEntries (j : Fin 512) : IsPa (j.val * 0x1000) :=
  ⟨Nat.mul_mod_left _ _, by have := j.isLt; omega⟩

theorem regular_fullTable : fullTable.Regular true :=
  ⟨fits_exampleStage, by decide +kernel, by decide +kernel⟩

theorem defrag_fullEntries (mpool : MPool) :
    mapAll (fun (pte : PageTableEntry 0) mpool => pte.defrag aarch64 mpool) (finRange 512)
        fullEntries mpool =
      ((finRange 512).map fun _ => some (archMmModeToStage2Attrs 0#32), fullEntries, mpool) := by
  refine mapAll_id fun j _ => ?_
  have hpa := isPa_fullEntries j
  have hattrs := attrsOk_modeToStage2Attrs 0#32
  rw [fullEntries, block, defrag_leaf, aarch64_blockPte,
    archMmPteAttrs_blockPte hpa hattrs, if_pos
      (archMmPteIsBlock_blockPte hpa hattrs (by decide) ?_)]
  rw [archMmPteIsPresent, archMmPteIsValid_blockPte hpa hattrs]
  rfl

theorem defragEvents_fullEntries (mpool : MPool) :
    (PageTableEntry.table (archMmTablePte 1 0x20000) fullEntries).defragEvents aarch64 0 mpool =
      [.write 0 (.block aarch64 1 0 (archMmModeToStage2Attrs 0#32) : PageTableEntry 1)] := by
  have htable : archMmPteIsTable (archMmTablePte 1 0x20000) 1 = true := by decide
  have hnil : mapAllTrace (fun (pte : PageTableEntry 0) mpool => pte.defrag aarch64 mpool)
      (fun (i : Fin 512) pte mpool => pte.defragEvents aarch64 (slotBase 0 (entrySize 0) i) mpool)
      (finRange 512) fullEntries mpool = [] :=
    mapAllTrace_eq_nil (nodup_finRange _) (fun j _ s _ => rfl)
      (by rw [defrag_fullEntries])
  have hmerge : PageTableEntry.mergeTable aarch64 (archMmTablePte 1 0x20000)
      ((finRange 512).map fun _ => some (archMmModeToStage2Attrs 0#32), fullEntries, mpool) =
      (some (archMmModeToStage2Attrs 0#32),
        .block aarch64 1 0 (archMmModeToStage2Attrs 0#32), mpool.free 0x20000) := by
    have hjoin : (reduceAttrs ((finRange 512).map fun _ =>
        some (archMmModeToStage2Attrs 0#32))).join = some (archMmModeToStage2Attrs 0#32) := by
      decide +kernel
    simp only [PageTableEntry.mergeTable, hjoin]
    rfl
  rw [PageTableEntry.defragEvents, hnil, PageTableEntry.defrag_table htable, defrag_fullEntries,
    hmerge]
  rfl

theorem defragEvents_head (pt : PageTable exampleStage) (mpool : MPool) : ∃ rest,
    pt.defragEvents aarch64 mpool =
      (pt.tables (0 : Fin 1) 0).defragEvents aarch64 0 mpool ++ rest := by
  obtain ⟨is, his⟩ : ∃ is, finRange 512 = 0 :: is := ⟨_, finRange_succ⟩
  rw [defragEvents, his]
  exact ⟨_, append_assoc _ _ _⟩

/-- Values that are not released: `defrag` overwrites a table with a block, a block
is split in the middle, a page is mapped again after it has been made invalid, and
a table is removed with only one page of it. -/
theorem breakBeforeMake_violated :
    fullTable.Regular true ∧ emptyTable.Regular true ∧ examplePool.Wf ∧
    (∀ mpool, ¬BreakBeforeMake fullTable (trace call callEvents [.defrag mpool] fullTable)) ∧
    ¬BreakBeforeMake emptyTable (trace call callEvents
      [.identityMap 0 0x200000 0#32 examplePool,
        .identityMap 0x1000 0x2000 Mode.R examplePool] emptyTable) ∧
    ¬BreakBeforeMake emptyTable (trace call callEvents
      [.identityMap 0 0x1000 0#32 examplePool, .identityMap 0 0x1000 Mode.INVALID examplePool,
        .identityMap 0 0x1000 Mode.R examplePool] emptyTable) ∧
    ¬BreakBeforeMake emptyTable (trace call callEvents
      [.identityMap 0x1000 0x2000 0#32 examplePool, .unmap 0x1000 0x2000 examplePool,
        .identityMap 0 0x200000 Mode.R examplePool] emptyTable) := by
  refine ⟨regular_fullTable, regular_emptyTable true, wf_examplePool, fun mpool h => ?_,
    fun h => absurd (h 1 0) (by decide +kernel), fun h => absurd (h 0 0) (by decide +kernel),
      fun h => absurd (h 1 0) (by decide +kernel)⟩
  obtain ⟨rest, hrest⟩ := defragEvents_head fullTable mpool
  have hhead := hrest.trans (congrArg (· ++ rest) (defragEvents_fullEntries mpool))
  have hstuck : observe 1 0 (cached 1 (fullTable.wordAt 1 0))
      (.write 0 (.block aarch64 1 0 (archMmModeToStage2Attrs 0#32) : PageTableEntry 1)) = none := by
    decide +kernel
  have hcall := h 1 0
  rw [trace, callEvents, hhead, List.cons_append, List.cons_append, List.foldlM_cons,
    hstuck] at hcall
  cases hcall

end PageTable

end Hafnium
