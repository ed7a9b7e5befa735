import Hafnium.Arch.Encoding
import Hafnium.Mm.Walk

/-!
# What page table updates do to the mapping

The meaning of a page table is the leaf that each address resolves to.  This
module states well-formedness for the aarch64 encoding, and proves what the two
passes of an update do: the first keeps the meaning of every page and leaves
the table split along the region's boundary, the second then changes exactly
the pages of the region and cannot fail.
-/

namespace Hafnium

open Support Aarch64 Prod

/-- The entry that an address resolves to, with its level. -/
structure Leaf where
  level : Nat
  inner : Pte

namespace Leaf

def isPresent (x : Leaf) : Bool := archMmPteIsPresent x.inner x.level

def attrs (x : Leaf) : BitVec 64 := archMmPteAttrs x.inner x.level

/-- The address that `a` is mapped to. -/
def output (x : Leaf) (a : Nat) : Nat := archMmBlockFromPte x.inner x.level + a % entrySize x.level

/-- What a page table says about a page: its attributes if it is present. -/
def view (x : Leaf) : Option (BitVec 64) := if x.isPresent then some x.attrs else none

theorem view_congr {x y : Leaf} (h : x.attrs = y.attrs) : x.view = y.view := by
  have hp : x.isPresent = y.isPresent := archMmPteIsPresent_congr h _ _
  simp only [view, hp, h]

theorem view_eq_none {x : Leaf} : x.view = none ↔ x.isPresent = false := by
  simp [view]

theorem view_of_not_present {level : Nat} {w : Pte} (h : archMmPteIsPresent w level = false) :
    (Leaf.mk level w).view = none :=
  view_eq_none.mpr h

theorem view_of_present {level : Nat} {w : Pte} (h : archMmPteIsPresent w level = true) :
    (Leaf.mk level w).view = some (archMmPteAttrs w level) :=
  if_pos h

end Leaf

theorem RawPageTable.skips_table {level : Nat} {w : Pte}
    (hw : archMmPteIsTable w (level + 1) = true) (es : RawPageTable level) (attrs : BitVec 64)
    (flags : Flags) :
    skips aarch64 attrs flags (.table w es) = false := by
  simp [skips, PageTableEntry.isPresent, PageTableEntry.isBlock, archMmPteIsPresent_of_isTable hw,
    archMmPteIsBlock_of_isTable hw]

namespace PageTableEntry

open RawPageTable

/-- The leaf below an entry to which an address resolves. -/
def lookup : {level : Nat} → PageTableEntry level → Nat → Leaf
  | level, leaf w, _ => ⟨level, w⟩
  | level + 1, table _ es, a => (es ⟨index a level, index_lt a level⟩).lookup a

@[simp] theorem lookup_leaf {level : Nat} (w : Pte) (a : Nat) :
    (leaf w : PageTableEntry level).lookup a = ⟨level, w⟩ := by
  cases level <;> rfl

@[simp] theorem lookup_table {level : Nat} (w : Pte) (es : RawPageTable level) (a : Nat) :
    (table w es).lookup a = (es ⟨index a level, index_lt a level⟩).lookup a := rfl

/-- An entry for the addresses from `base` on is well-formed: present entries
are tables or blocks, and present blocks map exactly the addresses of their
position.  If `strict`, so do entries that read as blocks but are not present;
only page entries of invalid and unowned memory are such. -/
def Wf (strict : Bool) : {level : Nat} → Nat → PageTableEntry level → Prop
  | level, base, leaf w =>
    archMmPteIsTable w level = false ∧
      (archMmPteIsPresent w level = true → archMmPteIsBlock w level = true) ∧
      (archMmPteIsPresent w level = true ∨ (strict = true ∧ archMmPteIsBlock w level = true) →
        archMmBlockFromPte w level = base)
  | level + 1, base, table w es =>
    archMmPteIsTable w (level + 1) = true ∧
      ∀ i, (es i).Wf strict (slotBase base (entrySize level) i)

variable {strict : Bool} {level base : Nat}

theorem wf_leaf {w : Pte} : (leaf w : PageTableEntry level).Wf strict base ↔
      archMmPteIsTable w level = false ∧
        (archMmPteIsPresent w level = true → archMmPteIsBlock w level = true) ∧
        (archMmPteIsPresent w level = true ∨ (strict = true ∧ archMmPteIsBlock w level = true) →
          archMmBlockFromPte w level = base) := by
  cases level <;> rfl

instance decidableWf (strict : Bool) : {level : Nat} → (base : Nat) → (e : PageTableEntry level) →
    Decidable (e.Wf strict base)
  | _, _, leaf _ => decidable_of_iff _ wf_leaf.symm
  | level + 1, base, table w es =>
    have := fun i : Fin 512 => decidableWf strict (slotBase base (entrySize level) i) (es i)
    inferInstanceAs (Decidable (archMmPteIsTable w (level + 1) = true ∧
      ∀ i : Fin 512, (es i).Wf strict (slotBase base (entrySize level) i)))

theorem wf_table {w : Pte} {es : RawPageTable level} :
    (table w es).Wf strict base ↔ archMmPteIsTable w (level + 1) = true ∧
      ∀ i, (es i).Wf strict (slotBase base (entrySize level) i) := Iff.rfl

theorem wf_absent : (absent aarch64 level).Wf strict base := by
  have hblock : archMmPteIsBlock (archMmAbsentPte level) level = false := by
    cases level with
    | zero => decide
    | succ level => rw [archMmPteIsBlock_succ, archMmPteIsPresent_absent]; simp
  rw [absent, wf_leaf, aarch64_absentPte, archMmPteIsPresent_absent, archMmPteIsTable_absent,
    hblock]
  simp

theorem wf_block (hbase : IsPa base) {attrs : BitVec 64} (hattrs : AttrsOk attrs)
    (hallowed : archMmIsBlockAllowed level = true) :
    (block aarch64 level base attrs).Wf strict base := by
  rw [block, wf_leaf, aarch64_blockPte]
  exact ⟨archMmPteIsTable_blockPte hbase hattrs level,
    archMmPteIsBlock_blockPte hbase hattrs hallowed,
    fun _ => archMmBlockFromPte_blockPte hbase hattrs level level⟩

/-- Every present page of a well-formed entry is mapped to itself. -/
theorem output_eq {e : PageTableEntry level} (haligned : base % entrySize level = 0)
    (hwf : e.Wf strict base) {a : Nat} (hlo : base ≤ a) (hhi : a < base + entrySize level)
    (hp : (e.lookup a).isPresent = true) : (e.lookup a).output a = a := by
  induction e generalizing base with
  | leaf w =>
    rw [lookup_leaf] at hp ⊢
    rw [Leaf.output, (wf_leaf.mp hwf).2.2 (Or.inl hp)]
    exact add_mod_of_slot haligned hlo hhi
  | @table level w es ih =>
    have hslot := slot_of_index haligned hlo hhi
    exact ih _ (slotBase_aligned haligned _) (hwf.2 _) hslot.1 hslot.2 hp

/-! ## Splitting an entry into a table -/

theorem isPa_offset {i level : Nat} (hi : i < 512)
    (hallowed : archMmIsBlockAllowed (level + 1) = true) :
    i * entrySize level < 2 ^ (12 + 9 * (level + 1)) ∧ IsPa (i * entrySize level) := by
  have hlt : i * entrySize level < entrySize (level + 1) := by
    rw [entrySize_succ]
    exact Nat.mul_lt_mul_of_pos_right hi (entrySize_pos level)
  have hle : entrySize (level + 1) ≤ entrySize 2 :=
    entrySize_mono (by simpa [archMmIsBlockAllowed] using hallowed)
  have htwo : entrySize 2 = 2 ^ 30 := entrySize_eq 2
  refine ⟨by rwa [← entrySize_eq], ?_, by omega⟩
  exact Nat.mod_eq_zero_of_dvd ((pageSize_dvd_entrySize level).mul_left i)

section Split

variable {w : Pte} (haligned : base % entrySize (level + 1) = 0)
  (hwf : (leaf w : PageTableEntry (level + 1)).Wf strict base)
include haligned hwf

theorem blockFromPte_mod (hp : archMmPteIsPresent w (level + 1) = true) :
    archMmBlockFromPte w (level + 1) % 2 ^ (12 + 9 * (level + 1)) = 0 := by
  rwa [(wf_leaf.mp hwf).2.2 (Or.inl hp), ← entrySize_eq]

/-- The entries of the table that replaces an entry are well-formed. -/
theorem wf_splitEntries (i : Fin 512) :
    (splitEntries aarch64 level w i).Wf strict (slotBase base (entrySize level) i) := by
  obtain ⟨htable, -, haddr⟩ := wf_leaf.mp hwf
  cases hblock : archMmPteIsBlock w (level + 1) with
  | false =>
    rw [splitEntries_absent hblock]
    exact wf_absent
  | true =>
    rw [splitEntries_block hblock, block, wf_leaf, aarch64_blockPte, aarch64_pteAttrs]
    rw [archMmPteIsBlock_succ, Bool.and_eq_true, Bool.and_eq_true] at hblock
    obtain ⟨⟨hallowed, hp⟩, -⟩ := hblock
    have hmod := blockFromPte_mod haligned hwf hp
    obtain ⟨hlt, hpa⟩ := isPa_offset i.isLt hallowed
    have hallowed' : archMmIsBlockAllowed level = true := by
      simp only [archMmIsBlockAllowed, decide_eq_true_eq] at hallowed ⊢
      omega
    refine ⟨archMmPteIsTable_splitPte hmod hlt hpa htable,
      fun _ => archMmPteIsBlock_splitPte hmod hlt hpa htable hp hallowed', fun _ => ?_⟩
    rw [archMmBlockFromPte_splitPte hmod hlt hpa, haddr (Or.inl hp), slotBase]

/-- Splitting an entry does not change what it says about any page. -/
theorem view_splitEntries (i : Fin 512) (a : Nat) :
    ((splitEntries aarch64 level w i).lookup a).view = Leaf.view ⟨level + 1, w⟩ := by
  obtain ⟨htable, hpresent, -⟩ := wf_leaf.mp hwf
  cases hblock : archMmPteIsBlock w (level + 1) with
  | false =>
    -- what is neither a table nor a block is not present
    have hp : archMmPteIsPresent w (level + 1) = false := by
      by_contra hp
      exact absurd (hpresent (Bool.eq_true_of_not_eq_false hp)) (by simp [hblock])
    rw [splitEntries_absent hblock, absent, lookup_leaf, Leaf.view_of_not_present hp]
    exact Leaf.view_of_not_present (archMmPteIsPresent_absent level)
  | true =>
    rw [splitEntries_block hblock, block, lookup_leaf]
    rw [archMmPteIsBlock_succ, Bool.and_eq_true, Bool.and_eq_true] at hblock
    obtain ⟨hlt, hpa⟩ := isPa_offset i.isLt hblock.1.1
    exact Leaf.view_congr
      (archMmPteAttrs_splitPte (blockFromPte_mod haligned hwf hblock.1.2) hlt hpa _)

end Split

theorem view_absent (a : Nat) : ((absent aarch64 level).lookup a).view = none := by
  rw [absent, lookup_leaf]
  exact Leaf.view_of_not_present (archMmPteIsPresent_absent level)

/-- An entry that is not present says of all its pages that they are not. -/
theorem view_of_not_present {e : PageTableEntry level} (hwf : e.Wf strict base)
    (hp : e.isPresent aarch64 = false) (a : Nat) : (e.lookup a).view = none := by
  cases e with
  | leaf w =>
    rw [lookup_leaf]
    exact Leaf.view_of_not_present hp
  | table w es =>
    have := archMmPteIsPresent_of_isTable (wf_table.mp hwf).1
    exact absurd (this.symm.trans hp) (by decide)

/-- `e'` arises from `e` by splitting entries into tables. -/
inductive Splits : {level : Nat} → PageTableEntry level → PageTableEntry level → Prop
  | refl {level : Nat} (e : PageTableEntry level) : Splits e e
  | table {level : Nat} {w : Pte} {es es' : RawPageTable level}
      (h : ∀ i, Splits (es i) (es' i)) : Splits (.table w es) (.table w es')
  | split {level page : Nat} {w : Pte} {es' : RawPageTable level} (hpage : IsPa page)
      (h : ∀ i, Splits (splitEntries aarch64 level w i) (es' i)) :
      Splits (.leaf w) (.table (archMmTablePte (level + 1) page) es')

namespace Splits

theorem wf {e e' : PageTableEntry level} (h : Splits e e')
    (haligned : base % entrySize level = 0) (hwf : e.Wf strict base) : e'.Wf strict base := by
  induction h generalizing base with
  | refl e => exact hwf
  | table _ ih =>
    exact ⟨hwf.1, fun i => ih i (slotBase_aligned haligned i) (hwf.2 i)⟩
  | split hpage _ ih =>
    exact ⟨archMmPteIsTable_tablePte hpage _,
      fun i => ih i (slotBase_aligned haligned i) (wf_splitEntries haligned hwf i)⟩

/-- Splitting keeps the meaning of every page. -/
theorem view {e e' : PageTableEntry level} (h : Splits e e')
    (haligned : base % entrySize level = 0) (hwf : e.Wf strict base) (a : Nat) :
    (e'.lookup a).view = (e.lookup a).view := by
  induction h generalizing base with
  | refl e => rfl
  | table _ ih =>
    exact ih _ (slotBase_aligned haligned _) (hwf.2 _)
  | @split level _ _ _ _ _ ih =>
    rw [lookup_leaf, ← view_splitEntries haligned hwf ⟨index a level, index_lt a level⟩ a]
    exact ih _ (slotBase_aligned haligned _) (wf_splitEntries haligned hwf _)

theorem of_split {page : Nat} {w : Pte} {e' : PageTableEntry (level + 1)} (hpage : IsPa page)
    (h : Splits (.table (archMmTablePte (level + 1) page) (splitEntries aarch64 level w)) e') :
    Splits (.leaf w) e' := by
  cases h with
  | refl => exact .split hpage fun i => .refl _
  | table h => exact .split hpage h

end Splits

/-! ## Updating a region -/

section Update

variable (endAddr : Nat) (attrs : BitVec 64) (flags : Flags)

/-- An update of the entry from `begin` on needs no further table: the region
ends at entries that are tables, may be set as a whole, or are as wanted. -/
inductive Covered : {level : Nat} → Nat → PageTableEntry level → Prop
  | skip {level begin : Nat} {e : PageTableEntry level}
      (h : skips aarch64 attrs flags e = true) : Covered begin e
  | cover {level begin : Nat} {e : PageTableEntry level}
      (h : coversEntry aarch64 endAddr flags level begin = true) : Covered begin e
  | table {level begin : Nat} {w : Pte} {es : RawPageTable level}
      (h : ∀ i b, (i, b) ∈ visits endAddr level begin → Covered b (es i)) :
      Covered begin (.table w es)

variable {endAddr attrs flags} in
/-- Whether it is the second pass does not matter for what is covered. -/
theorem Covered.commit {begin : Nat} {e : PageTableEntry level}
    (h : Covered endAddr attrs flags begin e) :
    Covered endAddr attrs { flags with commit := true } begin e := by
  induction h with
  | skip hskip => exact .skip hskip
  | cover hcovers => exact .cover hcovers
  | table _ ih => exact .table ih

/-- `e'` is `e` with the region from `begin` on updated: entries are kept if
they are as wanted, set as a whole if they lie in the region, and updated
entry by entry otherwise; a table that an unmapping has emptied is removed. -/
inductive Updated : {level : Nat} → Nat → PageTableEntry level → PageTableEntry level → Prop
  | skip {level begin : Nat} {e : PageTableEntry level}
      (h : skips aarch64 attrs flags e = true) : Updated begin e e
  | cover {level begin : Nat} {e : PageTableEntry level}
      (h : coversEntry aarch64 endAddr flags level begin = true) :
      Updated begin e (newEntry aarch64 attrs flags level begin)
  | table {level begin : Nat} {w : Pte} {es es' : RawPageTable level}
      (hvisited : ∀ i b, (i, b) ∈ visits endAddr level begin → Updated b (es i) (es' i))
      (hother : ∀ i, i ∉ (visits endAddr level begin).map fst → es' i = es i) :
      Updated begin (.table w es) (.table w es')
  | emptied {level begin : Nat} {w : Pte} {es es' : RawPageTable level}
      (hvisited : ∀ i b, (i, b) ∈ visits endAddr level begin → Updated b (es i) (es' i))
      (hother : ∀ i, i ∉ (visits endAddr level begin).map fst → es' i = es i)
      (hunmap : flags.unmap = true) (hempty : ∀ i, (es' i).isPresent aarch64 = false) :
      Updated begin (.table w es) (.absent aarch64 (level + 1))

/-- What an update establishes for the pages of its region. -/
def Target (strict : Bool) (x : Leaf) (a : Nat) : Prop :=
  if flags.unmap then x.isPresent = false
  else x.attrs = attrs ∧ (strict = true → x.output a = a)

end Update

section Meaning

variable {endAddr begin : Nat} {attrs : BitVec 64} {flags : Flags}

/-- An entry that is skipped already is as the update wants it. -/
theorem target_of_skips {e : PageTableEntry level} (haligned : base % entrySize level = 0)
    (hwf : e.Wf strict base) (hskip : skips aarch64 attrs flags e = true)
    {a : Nat} (hlo : base ≤ a) (hhi : a < base + entrySize level) :
    Target attrs flags strict (e.lookup a) a := by
  unfold Target
  cases hunmap : flags.unmap with
  | true =>
    simp only [skips, hunmap, Bool.true_and, Bool.not_true, Bool.false_and,
      Bool.or_false, Bool.not_eq_true'] at hskip
    exact Leaf.view_eq_none.mp (view_of_not_present hwf hskip a)
  | false =>
    simp only [skips, hunmap, Bool.false_and, Bool.not_false, Bool.true_and,
      Bool.false_or, Bool.and_eq_true, beq_iff_eq] at hskip
    obtain ⟨hblock, hattrs⟩ := hskip
    cases e with
    | table w es =>
      have := archMmPteIsBlock_of_isTable (wf_table.mp hwf).1
      exact absurd (this.symm.trans hblock) (by decide)
    | leaf w =>
      rw [lookup_leaf]
      refine ⟨hattrs, fun hstrict => ?_⟩
      rw [Leaf.output, (wf_leaf.mp hwf).2.2 (Or.inr ⟨hstrict, hblock⟩)]
      exact add_mod_of_slot haligned hlo hhi

variable (hin : InEntry level base begin endAddr)
  (hcovers : coversEntry aarch64 endAddr flags level begin = true)
  (hpa : flags.unmap = false → endAddr ≤ 2 ^ 48) (hattrs : AttrsOk attrs)
include hin hcovers hpa hattrs

theorem wf_newEntry : (newEntry aarch64 attrs flags level begin).Wf strict base := by
  obtain ⟨rfl, hend⟩ := hin.of_covers hcovers
  rw [newEntry]
  cases hunmap : flags.unmap with
  | true => exact wf_absent
  | false =>
    simp only [coversEntry, hunmap, Bool.false_or, Bool.and_eq_true] at hcovers
    have hlt := hin.lt
    have hbound := hpa hunmap
    exact wf_block ⟨hin.beginPage, by omega⟩ hattrs hcovers.1.2

theorem target_newEntry {a : Nat} (hlo : base ≤ a) (hhi : a < base + entrySize level) :
    Target attrs flags strict
      ((newEntry aarch64 attrs flags level begin).lookup a) a := by
  obtain ⟨rfl, hend⟩ := hin.of_covers hcovers
  rw [newEntry, Target]
  cases hunmap : flags.unmap with
  | true =>
    simp only [if_true, absent, lookup_leaf]
    exact archMmPteIsPresent_absent level
  | false =>
    have hlt := hin.lt
    have hbound := hpa hunmap
    have hbegin : IsPa begin := ⟨hin.beginPage, by omega⟩
    simp only [Bool.false_eq_true, if_false, block, lookup_leaf, aarch64_blockPte]
    refine ⟨archMmPteAttrs_blockPte hbegin hattrs _ _, fun _ => ?_⟩
    rw [Leaf.output, archMmBlockFromPte_blockPte hbegin hattrs]
    exact add_mod_of_slot hin.aligned hlo hhi

end Meaning

/-- A property of all entries of an updated table, from the visited ones and
the old values of the others. -/
theorem forall_cells {ι α : Type} {P : ι → α → Prop} {es es' : ι → α} {visits : List (ι × Nat)}
    (hother : ∀ i, i ∉ visits.map fst → es' i = es i)
    (hold : ∀ i, i ∉ visits.map fst → P i (es i))
    (hvisited : ∀ i b, (i, b) ∈ visits → P i (es' i)) (i : ι) : P i (es' i) := by
  by_cases hi : i ∈ visits.map fst
  · obtain ⟨⟨i, b⟩, hb, rfl⟩ := List.mem_map.mp hi
    exact hvisited i b hb
  · rw [hother i hi]
    exact hold i hi

/-- The entry of an address outside the region keeps its meaning if every
visited entry keeps its meaning there. -/
theorem frame_cells {begin endAddr : Nat} (hin : InEntry (level + 1) base begin endAddr)
    {es es' : RawPageTable level} {a : Nat}
    (hother : ∀ i, i ∉ (visits endAddr level begin).map fst → es' i = es i)
    (hvisited : ∀ i b, (i, b) ∈ visits endAddr level begin → slotBase base (entrySize level) i ≤ a →
      a < slotBase base (entrySize level) i + entrySize level → ¬(b ≤ a ∧ a < endAddr) →
      ((es' i).lookup a).view = ((es i).lookup a).view)
    {w : Pte} (hlo : base ≤ a) (hhi : a < base + entrySize (level + 1))
    (hout : ¬(begin ≤ a ∧ a < endAddr)) :
    ((table w es').lookup a).view = ((table w es).lookup a).view := by
  have hslot := slot_of_index hin.aligned hlo hhi
  simp only [lookup_table]
  by_cases hi : (⟨index a level, index_lt a level⟩ : Fin 512) ∈
      (visits endAddr level begin).map fst
  · obtain ⟨⟨i, b⟩, hb, rfl⟩ := List.mem_map.mp hi
    have hle := hin.le_of_visits hb
    exact hvisited _ b hb hslot.1 hslot.2 (by omega)
  · rw [hother _ hi]

namespace Updated

variable {endAddr begin : Nat} {attrs : BitVec 64} {flags : Flags} {e e' : PageTableEntry level}
variable (h : Updated endAddr attrs flags begin e e') (hwf : e.Wf strict base)
  (hin : InEntry level base begin endAddr)
  (hpa : flags.unmap = false → endAddr ≤ 2 ^ 48) (hattrs : AttrsOk attrs)
include h hwf hin hpa hattrs

theorem wf : e'.Wf strict base := by
  induction h generalizing base with
  | skip => exact hwf
  | cover hcovers => exact wf_newEntry hin hcovers hpa hattrs
  | table _ hother ih =>
    exact ⟨hwf.1, forall_cells hother (fun i _ => hwf.2 i)
      fun i b hb => ih i b hb (hwf.2 i) (hin.child hb)⟩
  | emptied => exact wf_absent

/-- Every page of the region is as the update wants it. -/
theorem target {a : Nat} (hlo : base ≤ a) (hhi : a < base + entrySize level)
    (hbegin : begin ≤ a) (hend : a < endAddr) : Target attrs flags strict (e'.lookup a) a := by
  induction h generalizing base with
  | skip hskip => exact target_of_skips hin.aligned hwf hskip hlo hhi
  | cover hcovers => exact target_newEntry hin hcovers hpa hattrs hlo hhi
  | table _ _ ih =>
    obtain ⟨b, hb, hba⟩ := hin.visits_of_mem hlo hhi hbegin hend
    have hslot := slot_of_index hin.aligned hlo hhi
    exact ih _ b hb (hwf.2 _) (hin.child hb) hslot.1 hslot.2 hba
  | emptied _ _ hunmap =>
    rw [Target, if_pos hunmap, absent, lookup_leaf]
    exact archMmPteIsPresent_absent _

theorem frame {a : Nat} (hlo : base ≤ a) (hhi : a < base + entrySize level)
    (hout : ¬(begin ≤ a ∧ a < endAddr)) : (e'.lookup a).view = (e.lookup a).view := by
  induction h generalizing base with
  | skip => rfl
  | cover hcovers =>
    obtain ⟨rfl, hend⟩ := hin.of_covers hcovers
    exact absurd ⟨hlo, by omega⟩ hout
  | table _ hother ih =>
    exact frame_cells hin hother
      (fun i b hb h1 h2 h3 => ih i b hb (hwf.2 i) (hin.child hb) h1 h2 h3) hlo hhi hout
  | @emptied level begin w es es' hvisited hother _ hempty ih =>
    have hcell := frame_cells (w := w) hin hother
      (fun i b hb h1 h2 h3 => ih i b hb (hwf.2 i) (hin.child hb) h1 h2 h3) hlo hhi hout
    have hwf' : ∀ i, (es' i).Wf strict (slotBase base (entrySize level) i) :=
      forall_cells hother (fun i _ => hwf.2 i)
        fun i b hb => (hvisited i b hb).wf (hwf.2 i) (hin.child hb) hpa hattrs
    rw [← hcell, lookup_table, view_of_not_present (hwf' _) (hempty _), absent, lookup_leaf]
    exact Leaf.view_of_not_present (archMmPteIsPresent_absent _)

end Updated

end PageTableEntry
end Hafnium
