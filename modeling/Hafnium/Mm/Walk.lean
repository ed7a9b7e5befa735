import Hafnium.Mm.PageTable

/-!
# The shape of a page table walk

What one iteration of the loop of `map_level` can do, case by case, and which
entries a walk visits.  The lemmas hold for any entry encoding; the properties
of updates in the following modules are derived from them and never unfold the
loops again.
-/

namespace Hafnium

open Support PageTableEntry RawPageTable

namespace PageTableEntry

variable {A : ArchMm} {level : Nat}

@[simp] theorem inner_leaf (w : Pte) : (leaf w : PageTableEntry level).inner = w := rfl

@[simp] theorem inner_table (w : Pte) (es : RawPageTable level) : (table w es).inner = w := rfl

@[simp] theorem drop_leaf (w : Pte) (mpool : MPool) :
    (leaf w : PageTableEntry level).drop A mpool = mpool := by
  cases level <;> rfl

/-- Replacing an entry that is not a table frees nothing. -/
theorem replace_leaf (w : Pte) (newPte : PageTableEntry level) (mpool : MPool) :
    (leaf w).replace A newPte mpool = (newPte, mpool) := by
  simp only [replace]
  split <;> simp [absent]

/-- The entries of the table by which an entry that is not one is replaced. -/
def splitEntries (A : ArchMm) (level : Nat) (w : Pte) : RawPageTable level :=
  if A.pteIsBlock w (level + 1) then
    fun i => block A level (w.toNat + i * entrySize level) (A.pteAttrs w (level + 1))
  else fun _ => absent A level

theorem splitEntries_block {w : Pte} (h : A.pteIsBlock w (level + 1) = true) (i : Fin 512) :
    splitEntries A level w i =
      block A level (w.toNat + i * entrySize level) (A.pteAttrs w (level + 1)) := by
  simp [splitEntries, h]

theorem splitEntries_absent {w : Pte} (h : A.pteIsBlock w (level + 1) = false) (i : Fin 512) :
    splitEntries A level w i = absent A level := by
  simp [splitEntries, h]

theorem populateTable_table (w : Pte) (es : RawPageTable level) (mpool : MPool) :
    (table w es).populateTable A mpool = (.ok, table w es, mpool) := rfl

/-- The entries of the table that replaces an entry are no tables. -/
theorem splitEntries_eq_leaf (A : ArchMm) (level : Nat) (w : Pte) (i : Fin 512) :
    ∃ v, splitEntries A level w i = leaf v := by
  cases hblock : A.pteIsBlock w (level + 1) with
  | true => exact ⟨_, splitEntries_block hblock i⟩
  | false => exact ⟨_, splitEntries_absent hblock i⟩

theorem populateTable_leaf_none {w : Pte} {mpool : MPool} (h : mpool.alloc = none) :
    (leaf w : PageTableEntry (level + 1)).populateTable A mpool = (.err, leaf w, mpool) := by
  simp [populateTable, h]

/-- Splitting an entry frees nothing: the old value is not a table. -/
theorem populateTable_leaf_some {w : Pte} {mpool mpool' : MPool} {page : Nat}
    (h : mpool.alloc = some (page, mpool')) :
    (leaf w : PageTableEntry (level + 1)).populateTable A mpool =
      (.ok, table (A.tablePte (level + 1) page) (splitEntries A level w), mpool') := by
  simp only [populateTable, h, replace_leaf, splitEntries]

end PageTableEntry

namespace RawPageTable

variable {A : ArchMm} {endAddr : Nat} {attrs : BitVec 64} {flags : Flags} {level : Nat}

/-- One iteration of the loop of `map_level`. -/
def mapEntry (A : ArchMm) (endAddr : Nat) (attrs : BitVec 64) (flags : Flags) :
    (level : Nat) → Update level
  | 0 => mapPte A endAddr attrs flags 0 fun _ pte mpool => (.err, pte, mpool)
  | level + 1 => mapPte A endAddr attrs flags (level + 1)
      (mapSubtable A flags (mapLevel A endAddr attrs flags level))

theorem mapLevel_eq (begin : Nat) (t : RawPageTable level) (mpool : MPool) :
    mapLevel A endAddr attrs flags level begin t mpool =
      forEach (mapEntry A endAddr attrs flags level) (visits endAddr level begin) t mpool := by
  cases level <;> rfl

theorem mapEntry_skip {begin : Nat} {pte : PageTableEntry level} {mpool : MPool}
    (hskip : skips A attrs flags pte = true) :
    mapEntry A endAddr attrs flags level begin pte mpool = (.ok, pte, mpool) := by
  cases level <;> simp [mapEntry, mapPte, hskip]

theorem mapEntry_cover {begin : Nat} {pte : PageTableEntry level} {mpool : MPool}
    (hskip : skips A attrs flags pte = false)
    (hcover : coversEntry A endAddr flags level begin = true)
    (hcommit : flags.commit = false) :
    mapEntry A endAddr attrs flags level begin pte mpool = (.ok, pte, mpool) := by
  cases level <;> simp [mapEntry, mapPte, hskip, hcover, hcommit]

/-- The entry that a committing pass writes over a wholly covered entry. -/
def newEntry (A : ArchMm) (attrs : BitVec 64) (flags : Flags) (level begin : Nat) :
    PageTableEntry level :=
  if flags.unmap then absent A level
  else block A level begin attrs

theorem mapEntry_cover_commit {begin : Nat} {pte : PageTableEntry level} {mpool : MPool}
    (hskip : skips A attrs flags pte = false)
    (hcover : coversEntry A endAddr flags level begin = true)
    (hcommit : flags.commit = true) :
    mapEntry A endAddr attrs flags level begin pte mpool = (.ok, newEntry A attrs flags level begin,
        (pte.replace A (newEntry A attrs flags level begin) mpool).2) := by
  cases level <;>
    simp [mapEntry, mapPte, hskip, hcover, hcommit, newEntry, replace]

theorem mapEntry_descend {begin : Nat} {pte : PageTableEntry (level + 1)} {mpool : MPool}
    (hskip : skips A attrs flags pte = false)
    (hcover : coversEntry A endAddr flags (level + 1) begin = false) :
    mapEntry A endAddr attrs flags (level + 1) begin pte mpool =
      mapSubtable A flags (mapLevel A endAddr attrs flags level) begin pte mpool := by
  simp [mapEntry, mapPte, hskip, hcover]

section MapSubtable

variable {mapBelow : Nat → RawPageTable level → MPool → Outcome × RawPageTable level × MPool}
variable {begin : Nat} {mpool mpool' : MPool} {w : Pte} {es es' : RawPageTable level}

theorem mapSubtable_leaf_none (h : mpool.alloc = none) :
    mapSubtable A flags mapBelow begin (.leaf w) mpool = (.err, .leaf w, mpool) := by
  simp [mapSubtable, populateTable_leaf_none h]

/-- Descending into an entry that is not a table is descending into the table
it is split into. -/
theorem mapSubtable_leaf_some {page : Nat} (h : mpool.alloc = some (page, mpool')) :
    mapSubtable A flags mapBelow begin (.leaf w) mpool = mapSubtable A flags mapBelow begin
        (.table (A.tablePte (level + 1) page) (splitEntries A level w)) mpool' := by
  simp only [mapSubtable, populateTable_leaf_some h, populateTable_table]

theorem mapSubtable_table_err (h : mapBelow begin es mpool = (.err, es', mpool')) :
    mapSubtable A flags mapBelow begin (.table w es) mpool = (.err, .table w es', mpool') := by
  simp [mapSubtable, populateTable_table, h]

theorem mapSubtable_table_ok (h : mapBelow begin es mpool = (.ok, es', mpool'))
    (hempty : (flags.commit && flags.unmap && isEmpty A es') = false) :
    mapSubtable A flags mapBelow begin (.table w es) mpool = (.ok, .table w es', mpool') := by
  simp [mapSubtable, populateTable_table, h, hempty]

/-- The first pass goes on below a table. -/
theorem mapSubtable_table_first {unmap : Bool} :
    mapSubtable A ⟨false, unmap⟩ mapBelow begin (.table w es) mpool =
      ((mapBelow begin es mpool).1, .table w (mapBelow begin es mpool).2.1,
        (mapBelow begin es mpool).2.2) := by
  rcases h : mapBelow begin es mpool with ⟨_ | _, es', mpool'⟩
  · exact mapSubtable_table_ok h rfl
  · exact mapSubtable_table_err h

theorem mapSubtable_table_empty (h : mapBelow begin es mpool = (.ok, es', mpool'))
    (hempty : (flags.commit && flags.unmap && isEmpty A es') = true) :
    mapSubtable A flags mapBelow begin (.table w es) mpool = (.ok, .absent A (level + 1),
        ((table w es').replace A (.absent A (level + 1)) mpool').2) := by
  simp only [mapSubtable, populateTable_table, h, hempty, if_true]
  rfl

end MapSubtable

theorem isEmpty_iff {t : RawPageTable level} :
    isEmpty A t = true ↔ ∀ i, (t i).isPresent A = false := by
  simp [isEmpty, List.all_eq_true]

end RawPageTable

/-! ## Which entries a walk visits -/

/-- A walk that enters the entry at `base` with the region `[begin, endAddr)`:
the region starts inside the entry and consists of whole pages. -/
structure InEntry (level base begin endAddr : Nat) : Prop where
  aligned : base % entrySize level = 0
  lo : base ≤ begin
  hi : begin < base + entrySize level
  lt : begin < endAddr
  beginPage : begin % 4096 = 0
  endPage : endAddr % 4096 = 0

namespace InEntry

variable {level base begin endAddr : Nat}

theorem levelEnd_eq (h : InEntry (level + 1) base begin endAddr) :
    levelEnd begin level = base + entrySize (level + 1) := by
  have hs := entrySize_pos (level + 1)
  have hb : base = base / entrySize (level + 1) * entrySize (level + 1) :=
    (Nat.div_mul_cancel (Nat.dvd_of_mod_eq_zero h.aligned)).symm
  have hdiv : begin / entrySize (level + 1) = base / entrySize (level + 1) := by
    have := div_eq_of_slot (i := 0) hs h.aligned
      (by simpa [slotBase] using h.lo) (by simpa [slotBase] using h.hi)
    simpa using this
  rw [Hafnium.levelEnd_eq, hdiv, Nat.add_mul, ← hb, Nat.one_mul]

theorem mem_visits (h : InEntry (level + 1) base begin endAddr) (i : Fin 512) (b : Nat) :
    (i, b) ∈ visits endAddr level begin ↔
      index begin level ≤ i ∧ b = max begin (slotBase base (entrySize level) i) ∧ b < endAddr := by
  have hs := entrySize_pos level
  have hslot := slot_of_index h.aligned h.lo h.hi
  have hbase : base % entrySize level = 0 := by
    have := h.aligned
    rw [entrySize_succ] at this
    exact mod_of_mod_mul this
  rw [visits, mem_zipBlocks_drop hs hbase hslot.1 hslot.2, h.levelEnd_eq]
  have hi := slotBase_add_le base level i
  constructor
  · rintro ⟨h1, h2, h3⟩
    exact ⟨h1, h2, by omega⟩
  · rintro ⟨h1, h2, h3⟩
    have := h.hi
    exact ⟨h1, h2, by omega⟩

theorem visits_nodup (endAddr level begin : Nat) :
    ((visits endAddr level begin).map Prod.fst).Nodup :=
  zipBlocks_drop_nodup _ _ _ _ _

/-- A visited entry is entered with the part of the region from its own slot
on. -/
theorem child (h : InEntry (level + 1) base begin endAddr) {i : Fin 512} {b : Nat}
    (hb : (i, b) ∈ visits endAddr level begin) :
    InEntry level (slotBase base (entrySize level) i) b endAddr := by
  obtain ⟨hi, rfl, hlt⟩ := (h.mem_visits i b).mp hb
  have hslot := slot_of_index h.aligned h.lo h.hi
  have hmono := slotBase_mono base (entrySize level) hi
  have hpage : slotBase base (entrySize level) i % 4096 = 0 :=
    Nat.mod_eq_zero_of_dvd ((pageSize_dvd_entrySize level).trans
      (Nat.dvd_of_mod_eq_zero (slotBase_aligned h.aligned i)))
  refine ⟨slotBase_aligned h.aligned i, le_max_right _ _, ?_, hlt, ?_, h.endPage⟩
  · have := entrySize_pos level
    omega
  · rcases max_choice begin (slotBase base (entrySize level) i) with hm | hm
    · rw [hm]; exact h.beginPage
    · rw [hm]; exact hpage

/-- The entry of an address of the region is visited, from an address at or
below it. -/
theorem visits_of_mem (h : InEntry (level + 1) base begin endAddr) {a : Nat}
    (hlo : base ≤ a) (hhi : a < base + entrySize (level + 1))
    (hba : begin ≤ a) (hae : a < endAddr) :
    ∃ b, ((⟨index a level, index_lt a level⟩ : Fin 512), b) ∈
      visits endAddr level begin ∧ b ≤ a := by
  have hslot := slot_of_index h.aligned hlo hhi
  have hslotb := slot_of_index h.aligned h.lo h.hi
  refine ⟨_, (h.mem_visits _ _).mpr ⟨?_, rfl, ?_⟩, ?_⟩
  · by_contra hlt
    have hlt' : index a level < index begin level := Nat.not_le.mp hlt
    have := slotBase_mono base (entrySize level) (Nat.succ_le_of_lt hlt')
    rw [Nat.succ_eq_add_one, slotBase_succ] at this
    omega
  · simp only
    omega
  · simp only
    omega

theorem le_of_visits (h : InEntry (level + 1) base begin endAddr) {i : Fin 512} {b : Nat}
    (hb : (i, b) ∈ visits endAddr level begin) : begin ≤ b := by
  obtain ⟨-, rfl, -⟩ := (h.mem_visits i b).mp hb
  exact le_max_left _ _

theorem covers_zero (h : InEntry 0 base begin endAddr) (A : ArchMm) (flags : Flags)
    (hA : A.isBlockAllowed 0 = true) :
    coversEntry A endAddr flags 0 begin = true := by
  have h1 := h.lt
  have h2 := h.beginPage
  have h3 := h.endPage
  simp only [coversEntry, entrySize_zero, hA, Bool.or_true, Bool.and_true,
    Bool.and_eq_true, beq_iff_eq, ge_iff_le]
  exact ⟨decide_eq_true (by omega), h2⟩

/-- A covered entry is entered at its start and ends inside the region. -/
theorem of_covers (h : InEntry level base begin endAddr) {A : ArchMm} {flags : Flags}
    (hc : coversEntry A endAddr flags level begin = true) :
    begin = base ∧ base + entrySize level ≤ endAddr := by
  simp only [coversEntry, Bool.and_eq_true, decide_eq_true_eq, beq_iff_eq] at hc
  obtain ⟨⟨hsize, -⟩, hmod⟩ := hc
  have hs := entrySize_pos level
  have hbase : begin = base := by
    have h1 := h.lo
    have h2 := h.hi
    obtain ⟨q, hq⟩ := Nat.dvd_of_mod_eq_zero h.aligned
    obtain ⟨r, hr⟩ := Nat.dvd_of_mod_eq_zero hmod
    rw [hq, hr] at h1
    rw [hq, hr] at h2
    have hqr : q ≤ r := Nat.le_of_mul_le_mul_left h1 hs
    have hrq : r < q + 1 := by
      apply Nat.lt_of_mul_lt_mul_left (a := entrySize level)
      rw [Nat.mul_add, Nat.mul_one]
      exact h2
    rw [hq, hr, show r = q by omega]
  have := h.lt
  exact ⟨hbase, by omega⟩

end InEntry
end Hafnium
