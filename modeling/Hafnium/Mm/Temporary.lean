import Hafnium.Mm.Spending

/-!
# Temporary mappings

How many tables it takes to map a region and to unmap it again, and how many of them are
free afterwards.  All of it is read off the page table before the two updates.
-/

namespace Hafnium

open Support Aarch64 RawPageTable InEntry
open List (map_congr_left map_const' sum)

theorem InEntry.exists_outside {level base begin endAddr : Nat} {commit : Bool}
    (hin : InEntry level base begin endAddr)
    (hcovers : coversEntry aarch64 endAddr ⟨commit, true⟩ level begin = false) :
    ∃ a, base ≤ a ∧ a < base + entrySize level ∧ ¬(begin ≤ a ∧ a < endAddr) := by
  have hpos := entrySize_pos level
  by_cases hbase : begin = base
  · refine ⟨base + entrySize level - 1, by omega, by omega, fun h => ?_⟩
    have hcovers' : coversEntry aarch64 endAddr ⟨commit, true⟩ level begin = true := by
      have hsize : endAddr - begin ≥ entrySize level := by omega
      simp only [coversEntry, hbase ▸ hin.aligned, Bool.true_or, Bool.and_true,
        beq_self_eq_true, decide_eq_true_eq]
      exact hsize
    rw [hcovers] at hcovers'
    cases hcovers'
  · have hlo := hin.lo
    exact ⟨base, le_rfl, by omega, fun h => hbase (le_antisymm h.1 hlo)⟩

/-- If a region does not cover an entry, then it does not cover all entries below. -/
theorem InEntry.exists_uncovered {level base begin endAddr : Nat} {commit : Bool}
    (hin : InEntry (level + 1) base begin endAddr)
    (hcovers : coversEntry aarch64 endAddr ⟨commit, true⟩ (level + 1) begin = false) :
    ∃ i : Fin 512, ∀ b, (i, b) ∈ visits endAddr level begin →
      coversEntry aarch64 endAddr ⟨commit, true⟩ level b = false := by
  obtain ⟨a, hlo, hhi, hout⟩ := hin.exists_outside hcovers
  have hslot := slot_of_index hin.aligned hlo hhi
  refine ⟨⟨index a level, index_lt a level⟩, fun b hb => ?_⟩
  rw [← Bool.not_eq_true]
  intro hbelow
  obtain ⟨rfl, hend⟩ := (hin.child hb).of_covers hbelow
  have hbegin := hin.le_of_visits hb
  exact hout ⟨hbegin.trans hslot.1, hslot.2.trans_le hend⟩

theorem card_sum_map {ι M : Type} (l : List ι) (f : ι → Multiset M) :
    ((l.map f).sum).card = (l.map fun p => (f p).card).sum := by
  have hsum := map_list_sum (Multiset.cardHom (α := M)) (l.map f)
  rw [List.map_map] at hsum
  exact hsum

namespace PageTableEntry

open RawPageTable

/-! ## The result of an update -/

section Wf

variable {endAddr : Nat} {attrs : BitVec 64} {unmap strict : Bool} {level base begin : Nat}
  {e e' : PageTableEntry level}

theorem Remade.wf (h : Remade endAddr attrs unmap begin e e') (hwf : e.Wf strict base)
    (hin : InEntry level base begin endAddr) (hpa : unmap = false → endAddr ≤ 2 ^ 48)
    (hattrs : AttrsOk attrs) : e'.Wf strict base := by
  induction h generalizing base with
  | skip => exact hwf
  | cover _ hcovers => exact wf_newEntry hin hcovers hpa hattrs
  | table _ _ hother _ ih =>
    exact ⟨hwf.1, forall_cells hother (fun i _ => hwf.2 i)
      fun i b hb => ih i b hb (hwf.2 i) (hin.child hb)⟩
  | emptied => exact wf_absent
  | split _ _ hpage _ ih =>
    exact ih ⟨archMmPteIsTable_tablePte hpage _, wf_splitEntries hin.aligned hwf⟩ hin

/-- An entry that is not present has no tables. -/
theorem tableCount_of_not_present (hwf : e.Wf strict base) (h : e.isPresent aarch64 = false) :
    e.tableCount = 0 := by
  cases e with
  | leaf w => exact tableCount_leaf w
  | table w es => cases h.symm.trans (archMmPteIsPresent_of_isTable hwf.1)

/-- The entries of a table that replaces an entry are as present as this one. -/
theorem isPresent_splitEntries {w : Pte} (haligned : base % entrySize (level + 1) = 0)
    (hwf : (leaf w : PageTableEntry (level + 1)).Wf strict base) (i : Fin 512) :
    (splitEntries aarch64 level w i).isPresent aarch64 = archMmPteIsPresent w (level + 1) := by
  have hview := view_splitEntries haligned hwf i 0
  obtain ⟨w', hw'⟩ := splitEntries_eq_leaf aarch64 level w i
  rw [hw', lookup_leaf, Leaf.view, Leaf.view] at hview
  rw [hw']
  change archMmPteIsPresent w' level = _
  change (if archMmPteIsPresent w' level then _ else none) =
    if archMmPteIsPresent w (level + 1) then _ else none at hview
  cases h : archMmPteIsPresent w' level <;> cases h' : archMmPteIsPresent w (level + 1) <;>
    simp_all

end Wf

/-! ## Mapping -/

section Mapping

variable (endAddr : Nat)

/-- The number of tables in whose place a mapping of the region puts a block. -/
def wholeTables : {level : Nat} → Nat → PageTableEntry level → Nat
  | _, _, leaf _ => 0
  | level + 1, begin, table w es =>
    if coversEntry aarch64 endAddr ⟨false, false⟩ (level + 1) begin then
      (table w es).tableCount
    else ((visits endAddr level begin).map fun p => wholeTables p.2 (es p.1)).sum

variable {endAddr} {attrs : BitVec 64} {strict : Bool} {level base begin : Nat}
  {e e' : PageTableEntry level}

@[simp] theorem wholeTables_leaf (w : Pte) :
    wholeTables endAddr begin (leaf w : PageTableEntry level) = 0 := by
  cases level <;> rfl

theorem wholeTables_splitEntries (w : Pte) (i : Fin 512) :
    wholeTables endAddr begin (splitEntries aarch64 level w i) = 0 := by
  obtain ⟨w', hw'⟩ := splitEntries_eq_leaf aarch64 level w i
  rw [hw', wholeTables_leaf]

/-- A mapping takes the tables that it needs and puts blocks in the place of whole
tables. -/
theorem Remade.tableCount_map (h : Remade endAddr attrs false begin e e') (hwf : e.Wf strict base)
    (hin : InEntry level base begin endAddr) :
    e'.tableCount + wholeTables endAddr begin e =
      e.tableCount + need endAddr attrs false begin e := by
  induction h generalizing base with
  | @skip level begin e hskip =>
    have hcovered : Covered endAddr attrs ⟨false, false⟩ begin e := .skip hskip
    have hneed := hcovered.need_eq_zero hwf
    cases e with
    | leaf w => rw [hneed, wholeTables_leaf]
    | table w es =>
      cases hskip.symm.trans (skips_table hwf.1 es attrs _)
  | @cover level begin e hskip hcovers =>
    have hcovered : Covered endAddr attrs ⟨false, false⟩ begin e := .cover hcovers
    have hneed := hcovered.need_eq_zero hwf
    rw [hneed, tableCount_newEntry]
    cases e with
    | leaf w => rw [wholeTables_leaf, tableCount_leaf]
    | table w es =>
      rw [wholeTables, if_pos hcovers, Nat.zero_add]
      exact (Nat.add_zero _).symm
  | @table level begin w es es' hcovers hvisited hother _ ih =>
    have hsum := sum_visits_eq (c := fun p => wholeTables endAddr p.2 (es p.1))
      (d := fun p => need endAddr attrs false p.2 (es p.1)) tableCount
      (visits_nodup endAddr level begin)
      (fun p hp => ih p.1 p.2 hp (hwf.2 p.1) (hin.child hp)) hother
    rw [tableCount_table, tableCount_table, wholeTables, hcovers, if_neg Bool.false_ne_true, need,
      hcovers, if_neg Bool.false_ne_true, Nat.add_assoc, hsum, Nat.add_assoc]
  | emptied _ _ _ hempty => cases hempty
  | @split level begin page w e' hskip hcovers hpage _ ih =>
    have h := ih ⟨archMmPteIsTable_tablePte hpage _, wf_splitEntries hin.aligned hwf⟩ hin
    rw [tableCount_table, wholeTables, hcovers, if_neg Bool.false_ne_true, need, hcovers,
      if_neg Bool.false_ne_true, Finset.sum_eq_zero fun i _ => tableCount_splitEntries w i] at h
    simp only [wholeTables_splitEntries, map_const', List.sum_replicate, smul_zero] at h
    rw [wholeTables_leaf, need_split hin.aligned hwf hskip hcovers, tableCount_leaf, h]
    omega

end Mapping

/-! ## Unmapping afterwards -/

section Clearing

variable (endAddr : Nat) (attrs : BitVec 64)

/-- The number of tables that it takes to unmap the region after it has been mapped: a
block that already had the attributes was left alone then and has to be split now. -/
def later : {level : Nat} → Nat → PageTableEntry level → Nat
  | level, begin, leaf w =>
    if Leaf.view ⟨level, w⟩ = some attrs then needLeaf endAddr attrs true (some attrs) level begin
    else 0
  | level + 1, begin, table _ es =>
    if coversEntry aarch64 endAddr ⟨false, true⟩ (level + 1) begin then 0
    else ((visits endAddr level begin).map fun p => later p.2 (es p.1)).sum

/-- Nothing is left of an entry once the region has been unmapped. -/
def vacated : {level : Nat} → Nat → PageTableEntry level → Bool
  | level, begin, leaf w =>
    coversEntry aarch64 endAddr ⟨false, true⟩ level begin ||
      !archMmPteIsPresent w level
  | level + 1, begin, table _ es =>
    coversEntry aarch64 endAddr ⟨false, true⟩ (level + 1) begin ||
      ((visits endAddr level begin).all fun p => vacated p.2 (es p.1)) &&
        (List.finRange 512).all fun i =>
          (visits endAddr level begin).any (fun p => p.1 == i) ||
            !(es i).isPresent aarch64

/-- The number of tables that unmapping the region frees after it has been mapped: those
below what is unmapped as a whole, and those that nothing is left of. -/
def recovered : {level : Nat} → Nat → PageTableEntry level → Nat
  | level, begin, leaf w =>
    if archMmPteIsPresent w level then 0 else needLeaf endAddr attrs false none level begin
  | level + 1, begin, table w es =>
    if coversEntry aarch64 endAddr ⟨false, false⟩ (level + 1) begin then 0
    else if coversEntry aarch64 endAddr ⟨false, true⟩ (level + 1) begin then
      (table w es).tableCount + need endAddr attrs false begin (table w es) -
        wholeTables endAddr begin (table w es)
    else
      ((visits endAddr level begin).map fun p => recovered p.2 (es p.1)).sum +
        if vacated endAddr begin (table w es) then 1 else 0

/-- The number of tables that unmapping the region frees. -/
def freed : {level : Nat} → Nat → PageTableEntry level → Nat
  | _, _, leaf _ => 0
  | level + 1, begin, table w es =>
    if coversEntry aarch64 endAddr ⟨false, true⟩ (level + 1) begin then (table w es).tableCount
    else
      ((visits endAddr level begin).map fun p => freed p.2 (es p.1)).sum +
        if vacated endAddr begin (table w es) then 1 else 0

variable {endAddr attrs} {attrs' : BitVec 64} {strict : Bool} {level base begin : Nat}

@[simp] theorem freed_leaf (w : Pte) : freed endAddr begin (leaf w : PageTableEntry level) = 0 := by
  cases level <;> rfl

theorem later_leaf (w : Pte) : later endAddr attrs begin (leaf w : PageTableEntry level) =
      if Leaf.view ⟨level, w⟩ = some attrs then needLeaf endAddr attrs true (some attrs) level begin
      else 0 := by
  cases level <;> rfl

theorem vacated_leaf (w : Pte) : vacated endAddr begin (leaf w : PageTableEntry level) =
      (coversEntry aarch64 endAddr ⟨false, true⟩ level begin ||
        !archMmPteIsPresent w level) := by
  cases level <;> rfl

theorem recovered_leaf (w : Pte) : recovered endAddr attrs begin (leaf w : PageTableEntry level) =
      if archMmPteIsPresent w level then 0 else needLeaf endAddr attrs false none level begin := by
  cases level <;> rfl

theorem recovered_table (w : Pte) (es : RawPageTable level) :
    recovered endAddr attrs begin (table w es) =
      if coversEntry aarch64 endAddr ⟨false, false⟩ (level + 1) begin then 0
      else if coversEntry aarch64 endAddr ⟨false, true⟩ (level + 1) begin then
        (table w es).tableCount + need endAddr attrs false begin (table w es) -
          wholeTables endAddr begin (table w es)
      else
        ((visits endAddr level begin).map fun p =>
            recovered endAddr attrs p.2 (es p.1)).sum +
          if vacated endAddr begin (table w es) then 1 else 0 := rfl

theorem needLeaf_unmap (v : Option (BitVec 64)) :
    needLeaf endAddr attrs true v level begin = needLeaf endAddr attrs' true v level begin := by
  induction level generalizing begin with
  | zero => rfl
  | succ level ih =>
    simp only [needLeaf, ih]
    rfl

theorem needLeaf_of_covers {unmap : Bool} {v : Option (BitVec 64)}
    (h : coversEntry aarch64 endAddr ⟨false, unmap⟩ level begin = true) :
    needLeaf endAddr attrs unmap v level begin = 0 := by
  cases level with
  | zero => rfl
  | succ level => rw [needLeaf, h, Bool.or_true, if_pos rfl]

theorem isPresent_newEntry_unmap {commit : Bool} :
    (newEntry aarch64 attrs' ⟨commit, true⟩ level begin).isPresent aarch64 = false :=
  archMmPteIsPresent_absent level

theorem vacated_table {w : Pte} {es : RawPageTable level} :
    vacated endAddr begin (table w es) = true ↔
      coversEntry aarch64 endAddr ⟨false, true⟩ (level + 1) begin = true ∨
        (∀ i b, (i, b) ∈ visits endAddr level begin → vacated endAddr b (es i) = true) ∧
        ∀ i, i ∉ (visits endAddr level begin).map Prod.fst → (es i).isPresent aarch64 = false := by
  rw [vacated, Bool.or_eq_true, Bool.and_eq_true, List.all_eq_true, List.all_eq_true]
  refine or_congr Iff.rfl (and_congr Prod.forall (forall_congr' fun i => ?_))
  have hmem : i ∈ (visits endAddr level begin).map Prod.fst ↔
      (visits endAddr level begin).any (fun p => p.1 == i) = true := by
    rw [List.any_eq_true, List.mem_map]
    simp only [beq_iff_eq]
  rw [hmem, Bool.or_eq_true, Bool.not_eq_true']
  simp only [List.mem_finRange, forall_const]
  exact or_iff_not_imp_left

theorem vacated_of_covers {e : PageTableEntry level}
    (h : coversEntry aarch64 endAddr ⟨false, true⟩ level begin = true) :
    vacated endAddr begin e = true := by
  cases e with
  | leaf w => rw [vacated_leaf, h, Bool.true_or]
  | table w es => exact vacated_table.mpr (.inl h)

theorem freed_splitEntries (w : Pte) (i : Fin 512) :
    freed endAddr begin (splitEntries aarch64 level w i) = 0 := by
  obtain ⟨w', hw'⟩ := splitEntries_eq_leaf aarch64 level w i
  rw [hw', freed_leaf]

theorem vacated_eq_isEmpty {w : Pte} {es es' : RawPageTable level}
    (hcovers : coversEntry aarch64 endAddr ⟨false, true⟩ (level + 1) begin = false)
    (hother : ∀ i, i ∉ (visits endAddr level begin).map Prod.fst → es' i = es i)
    (hvisited : ∀ p ∈ visits endAddr level begin,
      (es' p.1).isPresent aarch64 = !vacated endAddr p.2 (es p.1)) :
    vacated endAddr begin (table w es) = isEmpty aarch64 es' := by
  rw [Bool.eq_iff_iff, vacated_table, RawPageTable.isEmpty_iff, hcovers,
    or_iff_right Bool.false_ne_true]
  constructor
  · rintro ⟨hvacated, habsent⟩
    apply forall_cells (P := fun _ e => e.isPresent aarch64 = false) hother habsent
    intro i b hb
    rw [hvisited (i, b) hb, hvacated i b hb, Bool.not_true]
  · intro hempty
    constructor
    · intro i b hb
      have h := hvisited (i, b) hb
      rw [hempty i, eq_comm, Bool.not_eq_false'] at h
      exact h
    · intro i hi
      rw [← hother i hi]
      exact hempty i

section Split

variable {w : Pte} {page : Nat} (hin : InEntry (level + 1) base begin endAddr)
  (hwf : (leaf w : PageTableEntry (level + 1)).Wf strict base)
include hin hwf

theorem later_split (hview : Leaf.view ⟨level + 1, w⟩ ≠ some attrs) : later endAddr attrs begin
      (table (archMmTablePte (level + 1) page) (splitEntries aarch64 level w)) = 0 := by
  rw [later]
  split
  · rfl
  · rw [List.sum_eq_zero_iff, List.forall_mem_map]
    intro p _
    have hsplit := view_splitEntries hin.aligned hwf p.1 0
    obtain ⟨w', hw'⟩ := splitEntries_eq_leaf aarch64 level w p.1
    rw [hw', lookup_leaf] at hsplit
    rw [hw', later_leaf, hsplit, if_neg hview]

theorem vacated_split : vacated endAddr begin
        (table (archMmTablePte (level + 1) page) (splitEntries aarch64 level w)) =
      vacated endAddr begin (leaf w : PageTableEntry (level + 1)) := by
  have hp := isPresent_splitEntries hin.aligned hwf
  have hbelow : ∀ i b, vacated endAddr b (splitEntries aarch64 level w i) =
      (coversEntry aarch64 endAddr ⟨false, true⟩ level b ||
        !archMmPteIsPresent w (level + 1)) := by
    intro i b
    rw [← hp i]
    obtain ⟨w', hw'⟩ := splitEntries_eq_leaf aarch64 level w i
    rw [hw', vacated_leaf]
    rfl
  rw [Bool.eq_iff_iff, vacated_table, vacated_leaf, Bool.or_eq_true]
  refine or_congr_right' fun hcovers => ?_
  rw [Bool.not_eq_true] at hcovers
  simp only [hbelow, hp]
  cases hpresent : archMmPteIsPresent w (level + 1) with
  | false => simp
  | true =>
    -- a part of the block is not in the region
    obtain ⟨i, hi⟩ := hin.exists_uncovered hcovers
    refine iff_of_false ?_ nofun
    rintro ⟨hvisited, hother⟩
    by_cases hmem : i ∈ (visits endAddr level begin).map Prod.fst
    · obtain ⟨⟨i, b⟩, hb, rfl⟩ := List.mem_map.mp hmem
      have h := hvisited i b hb
      rw [hi b hb] at h
      cases h
    · cases hother i hmem

theorem recovered_split (hskip : skips aarch64 attrs ⟨false, false⟩
      (leaf w : PageTableEntry (level + 1)) = false)
    (hcovers : coversEntry aarch64 endAddr ⟨false, false⟩ (level + 1) begin = false) :
    recovered endAddr attrs begin
        (table (archMmTablePte (level + 1) page) (splitEntries aarch64 level w)) =
      recovered endAddr attrs begin (leaf w : PageTableEntry (level + 1)) := by
  have hp := isPresent_splitEntries hin.aligned hwf
  have hbelow : ∀ i b, recovered endAddr attrs b (splitEntries aarch64 level w i) =
      if archMmPteIsPresent w (level + 1) then 0 else needLeaf endAddr attrs false none
        level b := by
    intro i b
    rw [← hp i]
    obtain ⟨w', hw'⟩ := splitEntries_eq_leaf aarch64 level w i
    rw [hw', recovered_leaf]
    rfl
  rw [recovered_table, hcovers, if_neg Bool.false_ne_true, recovered_leaf, vacated_split hin hwf,
    vacated_leaf]
  simp only [hbelow]
  cases hpresent : archMmPteIsPresent w (level + 1) with
  | true =>
    -- blocks are allowed where there is one, so the region is the same for both updates
    have hblock := (wf_leaf.mp hwf).2.1 hpresent
    rw [archMmPteIsBlock_succ, Bool.and_eq_true, Bool.and_eq_true] at hblock
    have hsame : coversEntry aarch64 endAddr ⟨false, true⟩ (level + 1) begin =
        coversEntry aarch64 endAddr ⟨false, false⟩ (level + 1) begin := by
      simp only [coversEntry, aarch64_isBlockAllowed, hblock.1.1, Bool.or_true]
    rw [hsame, hcovers]
    simp
  | false =>
    have hnone : Leaf.view ⟨level + 1, w⟩ = none := Leaf.view_of_not_present hpresent
    have hneed := need_split hin.aligned hwf hskip hcovers
    rw [need_leaf, hnone] at hneed
    cases hcovers' : coversEntry aarch64 endAddr ⟨false, true⟩ (level + 1) begin with
    | true =>
      rw [if_pos rfl, if_neg Bool.false_ne_true, tableCount_table, need, hcovers,
        if_neg Bool.false_ne_true, wholeTables, hcovers, if_neg Bool.false_ne_true, hneed,
        Finset.sum_eq_zero fun i _ => tableCount_splitEntries w i]
      simp only [wholeTables_splitEntries, map_const', List.sum_replicate, smul_zero]
      omega
    | false =>
      simp only [Bool.false_eq_true, if_false, Bool.not_false, Bool.or_true, if_true, needLeaf,
        hcovers, wanted, Bool.or_false]
      rw [Nat.add_comm]
      rfl

end Split

theorem skips_unmap (w : Pte) : skips aarch64 attrs' ⟨false, true⟩ (leaf w : PageTableEntry level) =
      !archMmPteIsPresent w level := by
  rw [skips, isPresent, inner_leaf, aarch64_pteIsPresent]
  cases archMmPteIsPresent w level <;> rfl

theorem Remade.tableCount_unmap {e e' : PageTableEntry level}
    (h : Remade endAddr attrs' true begin e e') (hwf : e.Wf strict base)
    (hin : InEntry level base begin endAddr) (hattrs' : AttrsOk attrs') :
    e'.tableCount + freed endAddr begin e = e.tableCount + need endAddr attrs' true begin e ∧
      e'.isPresent aarch64 = !vacated endAddr begin e := by
  induction h generalizing base with
  | @skip level begin e hskip =>
    cases e with
    | table w es => cases hskip.symm.trans (skips_table hwf.1 es attrs' _)
    | leaf w =>
      have hcovered : Covered endAddr attrs' ⟨false, true⟩ begin (.leaf w) := .skip hskip
      have hneed := hcovered.need_eq_zero hwf
      rw [skips_unmap, Bool.not_eq_true'] at hskip
      rw [hneed, freed_leaf, vacated_leaf, hskip, Bool.not_false, Bool.or_true]
      exact ⟨rfl, hskip⟩
  | @cover level begin e hskip hcovers =>
    have hcovered : Covered endAddr attrs' ⟨false, true⟩ begin e := .cover hcovers
    rw [hcovered.need_eq_zero hwf, tableCount_newEntry, isPresent_newEntry_unmap,
      vacated_of_covers hcovers]
    refine ⟨?_, rfl⟩
    cases e with
    | leaf w => rw [freed_leaf, tableCount_leaf]
    | table w es =>
      rw [freed, if_pos hcovers]
      omega
  | @table level begin w es es' hcovers hvisited hother hkeep ih =>
    have hbelow : ∀ p ∈ visits endAddr level begin, _ := fun p hp =>
      ih p.1 p.2 hp (hwf.2 p.1) (hin.child hp)
    have hsum := sum_visits_eq (c := fun p => freed endAddr p.2 (es p.1))
      (d := fun p => need endAddr attrs' true p.2 (es p.1)) tableCount
      (visits_nodup endAddr level begin) (fun p hp => (hbelow p hp).1) hother
    have hvacated : vacated endAddr begin (.table w es) = isEmpty aarch64 es' :=
      vacated_eq_isEmpty hcovers hother fun p hp => (hbelow p hp).2
    rw [Bool.true_and] at hkeep
    rw [freed, hcovers, if_neg Bool.false_ne_true, need, hcovers, if_neg Bool.false_ne_true,
      hvacated, hkeep, tableCount_table, tableCount_table, if_neg Bool.false_ne_true]
    exact ⟨by omega, archMmPteIsPresent_of_isTable hwf.1⟩
  | @emptied level begin w es es' hcovers hvisited hother hempty ih =>
    have hbelow : ∀ p ∈ visits endAddr level begin, _ := fun p hp =>
      ih p.1 p.2 hp (hwf.2 p.1) (hin.child hp)
    have hsum := sum_visits_eq (c := fun p => freed endAddr p.2 (es p.1))
      (d := fun p => need endAddr attrs' true p.2 (es p.1)) tableCount
      (visits_nodup endAddr level begin) (fun p hp => (hbelow p hp).1) hother
    have hvacated : vacated endAddr begin (.table w es) = isEmpty aarch64 es' :=
      vacated_eq_isEmpty hcovers hother fun p hp => (hbelow p hp).2
    rw [Bool.true_and] at hempty
    have hwf' : ∀ i, (es' i).Wf strict (slotBase base (entrySize level) i) :=
      forall_cells hother (fun i _ => hwf.2 i) fun i b hb =>
        (hvisited i b hb).wf (hwf.2 i) (hin.child hb) (by simp) hattrs'
    rw [Finset.sum_eq_zero fun i _ => tableCount_of_not_present (hwf' i)
      (isEmpty_iff.mp hempty i)] at hsum
    rw [freed, hcovers, if_neg Bool.false_ne_true, need, hcovers, if_neg Bool.false_ne_true,
      hvacated, hempty, tableCount_table, if_pos rfl, absent, tableCount_leaf]
    exact ⟨by omega, archMmPteIsPresent_absent _⟩
  | @split level begin page w e' hskip hcovers hpage _ ih =>
    obtain ⟨hcount, hpresent⟩ :=
      ih ⟨archMmPteIsTable_tablePte hpage _, wf_splitEntries hin.aligned hwf⟩ hin
    rw [vacated_split hin hwf] at hpresent
    refine ⟨?_, hpresent⟩
    have hneed := need_split hin.aligned hwf hskip hcovers
    -- a part of the block is left
    rw [skips_unmap, Bool.not_eq_false'] at hskip
    rw [freed, hcovers, if_neg Bool.false_ne_true, vacated_split hin hwf, vacated_leaf, hcovers,
      hskip, Bool.not_true, Bool.or_false, if_neg Bool.false_ne_true, tableCount_table, need,
      hcovers, if_neg Bool.false_ne_true,
      Finset.sum_eq_zero fun i _ => tableCount_splitEntries w i] at hcount
    simp only [freed_splitEntries, map_const', List.sum_replicate, smul_zero] at hcount
    rw [freed_leaf, tableCount_leaf, hneed]
    omega

theorem covers_unmap {commit : Bool}
    (h : coversEntry aarch64 endAddr ⟨commit, false⟩ level begin = true) :
    coversEntry aarch64 endAddr ⟨commit, true⟩ level begin = true := by
  simp only [coversEntry, Bool.and_eq_true] at h ⊢
  exact ⟨⟨h.1.1, Bool.true_or _⟩, h.2⟩

/-- A region that covers an entry needs no tables for it, and frees none of those that
the entry had: where a block may stand, they leak. -/
theorem temporary_covered {e : PageTableEntry level}
    (h : coversEntry aarch64 endAddr ⟨false, false⟩ level begin = true) :
    later endAddr attrs begin e = 0 ∧ recovered endAddr attrs begin e = 0 := by
  have h' := covers_unmap h
  cases e with
  | leaf w =>
    rw [later_leaf, recovered_leaf, needLeaf_of_covers h, needLeaf_of_covers h', ite_self, ite_self]
    exact ⟨rfl, rfl⟩
  | table w es =>
    rw [later, if_pos h', recovered_table, if_pos h]
    exact ⟨rfl, rfl⟩

/-- What unmapping a region does to an entry in which it has been mapped before. -/
theorem Remade.mapped {e e₁ : PageTableEntry level} (h : Remade endAddr attrs false begin e e₁)
    (hwf : e.Wf strict base) (hin : InEntry level base begin endAddr) (attrs' : BitVec 64) :
    need endAddr attrs' true begin e₁ = later endAddr attrs begin e ∧
      freed endAddr begin e₁ = recovered endAddr attrs begin e ∧
      vacated endAddr begin e₁ = vacated endAddr begin e := by
  induction h generalizing base with
  | @skip level begin e hskip =>
    cases e with
    | table w es => cases hskip.symm.trans (skips_table hwf.1 es attrs _)
    | leaf w =>
      rw [later_leaf, recovered_leaf, need_leaf, freed_leaf]
      cases hp : archMmPteIsPresent w level with
      | true =>
        have hview : Leaf.view ⟨level, w⟩ = some attrs := by
          simp only [skips, Bool.false_and, Bool.not_false, Bool.true_and,
            Bool.false_or, Bool.and_eq_true, beq_iff_eq] at hskip
          rw [Leaf.view_of_present hp]
          exact congrArg some hskip.2
        rw [hview, if_pos rfl, if_pos rfl]
        exact ⟨needLeaf_unmap _, rfl, rfl⟩
      | false =>
        -- only a page entry can read as a block without being present
        obtain rfl : level = 0 := by
          cases level with
          | zero => rfl
          | succ level =>
            rw [skips_leaf hwf, Leaf.view_of_not_present hp] at hskip
            cases hskip
        rw [Leaf.view_of_not_present hp, if_neg (by simp)]
        exact ⟨rfl, rfl, rfl⟩
  | @cover level begin e hskip hcovers =>
    have hcovers' := covers_unmap hcovers
    obtain ⟨hlater, hrecovered⟩ := @temporary_covered _ attrs _ _ e hcovers
    rw [hlater, hrecovered, vacated_of_covers hcovers', vacated_of_covers hcovers', newEntry,
      if_neg Bool.false_ne_true, block, need_leaf, needLeaf_of_covers hcovers', freed_leaf]
    exact ⟨rfl, rfl, rfl⟩
  | @table level begin w es es₁ hcovers hvisited hother hkeep ih =>
    cases hcovers' : coversEntry aarch64 endAddr ⟨false, true⟩ (level + 1) begin with
    | true =>
      have hmap := (Remade.table hcovers hvisited hother hkeep).tableCount_map hwf hin
      rw [need, if_pos hcovers', later, if_pos hcovers', freed, if_pos hcovers', recovered_table,
        hcovers, if_neg Bool.false_ne_true, if_pos hcovers', vacated_of_covers hcovers',
        vacated_of_covers hcovers']
      exact ⟨rfl, by omega, rfl⟩
    | false =>
      have hbelow : ∀ p ∈ visits endAddr level begin, _ := fun p hp =>
        ih p.1 p.2 hp (hwf.2 p.1) (hin.child hp)
      have hvacated : vacated endAddr begin (.table w es₁) =
          vacated endAddr begin (.table w es) := by
        rw [Bool.eq_iff_iff, vacated_table, vacated_table]
        refine or_congr_right (and_congr (forall₃_congr fun i b hb => ?_)
          (forall₂_congr fun i hi => ?_))
        · rw [(hbelow (i, b) hb).2.2]
        · rw [hother i hi]
      rw [need, hcovers', if_neg Bool.false_ne_true, later, hcovers', if_neg Bool.false_ne_true,
        freed, hcovers', if_neg Bool.false_ne_true, recovered_table, hcovers,
        if_neg Bool.false_ne_true, hcovers', if_neg Bool.false_ne_true, hvacated,
        map_congr_left fun p hp => (hbelow p hp).1,
        map_congr_left fun p hp => (hbelow p hp).2.1]
      exact ⟨rfl, rfl, rfl⟩
  | emptied _ _ _ hempty => cases hempty
  | @split level begin page w e₁ hskip hcovers hpage _ ih =>
    have hview : Leaf.view ⟨level + 1, w⟩ ≠ some attrs := by
      rw [skips_leaf hwf] at hskip
      intro hview
      rw [hview, wanted, if_neg Bool.false_ne_true, beq_self_eq_true] at hskip
      cases hskip
    rw [later_leaf, if_neg hview, ← recovered_split hin hwf hskip hcovers,
      ← vacated_split hin hwf, ← later_split hin hwf hview]
    exact ih ⟨archMmPteIsTable_tablePte hpage _, wf_splitEntries hin.aligned hwf⟩ hin

end Clearing

/-- A valid block leaks the tables that it replaces. -/
theorem card_leaks {endAddr : Nat} {attrs : BitVec 64} {commit strict : Bool}
    {level base begin : Nat} {e : PageTableEntry level} (hwf : e.Wf strict base)
    (hin : InEntry level base begin endAddr) (hpa : endAddr ≤ 2 ^ 48) (hattrs : AttrsOk attrs)
    (hvalid : ∀ l, archMmPteIsValid attrs l = true) :
    (leaks endAddr attrs ⟨commit, false⟩ begin e).card = wholeTables endAddr begin e := by
  induction e generalizing base begin with
  | leaf w => rw [leaks_leaf, wholeTables_leaf, Multiset.card_zero]
  | @table level w es ih =>
    have hlt := hin.lt
    have hnew := @newEntry_isValid_map commit attrs (level + 1) begin
      ⟨hin.beginPage, by omega⟩ hattrs
    have hself : (table w es).isValid aarch64 = true := archMmPteIsValid_of_isTable hwf.1
    rw [leaks, skips_table hwf.1, if_neg Bool.false_ne_true, hself, hnew,
      hvalid, Bool.and_self, if_pos rfl, wholeTables]
    change Multiset.card (if coversEntry aarch64 endAddr ⟨false, false⟩ (level + 1)
      begin then _ else _) = _
    cases coversEntry aarch64 endAddr ⟨false, false⟩ (level + 1) begin with
    | true => rw [if_pos rfl, if_pos rfl, tableCount]
    | false =>
      rw [if_neg Bool.false_ne_true, if_neg Bool.false_ne_true, card_sum_map]
      exact congrArg sum
        (map_congr_left fun p hp => ih p.1 (hwf.2 p.1) (hin.child hp))

end PageTableEntry

namespace PageTable

variable {S : Stage}

/-- The sum of a number over the visited entries of the root tables. -/
def total (endAddr begin : Nat) (f : Nat → PageTableEntry S.maxLevel → Nat) (pt : PageTable S) :
    Nat :=
  ((visits S endAddr begin).map fun p =>
    ((RawPageTable.visits endAddr S.maxLevel p.2).map fun q => f q.2 (pt.tables p.1 q.1)).sum).sum

/-- The number of tables in whose place a mapping of the region puts a block. -/
def wholeTables (endAddr begin : Nat) (pt : PageTable S) : Nat :=
  pt.total endAddr begin (PageTableEntry.wholeTables endAddr)

/-- The number of tables that it takes to unmap the region after it has been mapped. -/
def later (endAddr : Nat) (attrs : BitVec 64) (begin : Nat) (pt : PageTable S) : Nat :=
  pt.total endAddr begin (PageTableEntry.later endAddr attrs)

/-- The number of tables that unmapping the region frees after it has been mapped. -/
def recovered (endAddr : Nat) (attrs : BitVec 64) (begin : Nat) (pt : PageTable S) : Nat :=
  pt.total endAddr begin (PageTableEntry.recovered endAddr attrs)

variable {attrs attrs' : BitVec 64} {unmap strict : Bool} {begin endAddr : Nat}
  {pt pt₁ pt₂ : PageTable S} {f g : Nat → PageTableEntry S.maxLevel → Nat}

theorem total_congr (h : ∀ t b, (t, b) ∈ visits S endAddr begin → ∀ i b',
      (i, b') ∈ RawPageTable.visits endAddr S.maxLevel b →
        f b' (pt₁.tables t i) = g b' (pt.tables t i)) :
    pt₁.total endAddr begin f = pt.total endAddr begin g := by
  apply congrArg sum
  apply map_congr_left
  intro p hp
  apply congrArg sum
  apply map_congr_left
  intro q hq
  exact h p.1 p.2 hp q.1 q.2 hq

/-- What an update does to the tables below each entry adds up. -/
theorem Remade.tableCount_add_total (h : Remade endAddr attrs unmap begin pt₁ pt₂)
    (pt : PageTable S) (hentry : ∀ t b, (t, b) ∈ visits S endAddr begin → ∀ i b',
      (i, b') ∈ RawPageTable.visits endAddr S.maxLevel b →
        (pt₂.tables t i).tableCount + f b' (pt.tables t i) =
          (pt₁.tables t i).tableCount + g b' (pt.tables t i)) :
    pt₂.tableCount + pt.total endAddr begin f = pt₁.tableCount + pt.total endAddr begin g := by
  apply sum_visits_eq (fun es : RawPageTable S.maxLevel => ∑ i, (es i).tableCount)
    (InSpace.visits_nodup S endAddr begin) _ h.other
  intro p hp
  apply sum_visits_eq PageTableEntry.tableCount (visits_nodup endAddr S.maxLevel p.2)
    (fun q hq => hentry p.1 p.2 hp q.1 q.2 hq) (h.visited p.1 p.2 hp).other

section Root

variable (hS : S.Valid) (hin : InSpace S begin endAddr) (hwf : pt.Wf strict)
include hS hin hwf

theorem Remade.tableCount_map (h : Remade endAddr attrs false begin pt pt₁) :
    pt₁.tableCount + pt.wholeTables endAddr begin =
      pt.tableCount + pt.need endAddr attrs false begin :=
  h.tableCount_add_total pt fun t b hb i b' hb' =>
    ((h.visited t b hb).visited i b' hb').tableCount_map (hwf t i) ((hin.child hS hb).child hb')

/-- What unmapping a region does to a page table in which it has been mapped before. -/
theorem Remade.mapped (h : Remade endAddr attrs false begin pt pt₁) :
    pt₁.need endAddr attrs' true begin = pt.later endAddr attrs begin ∧
      pt₁.total endAddr begin (PageTableEntry.freed endAddr) =
        pt.recovered endAddr attrs begin := by
  have hentry : ∀ t b, (t, b) ∈ visits S endAddr begin → ∀ i b',
      (i, b') ∈ RawPageTable.visits endAddr S.maxLevel b → _ := fun t b hb i b' hb' =>
    ((h.visited t b hb).visited i b' hb').mapped (hwf t i)
      ((hin.child hS hb).child hb') attrs'
  constructor
  · exact total_congr fun t b hb i b' hb' => (hentry t b hb i b' hb').1
  · exact total_congr fun t b hb i b' hb' => (hentry t b hb i b' hb').2.1

theorem card_leaks {commit : Bool} (hpa : endAddr ≤ 2 ^ 48) (hattrs : AttrsOk attrs)
    (hvalid : ∀ l, archMmPteIsValid attrs l = true) :
    (leaks endAddr attrs ⟨commit, false⟩ begin pt).card = pt.wholeTables endAddr begin := by
  rw [leaks, card_sum_map]
  apply congrArg sum
  apply map_congr_left
  intro p hp
  rw [card_sum_map]
  apply congrArg sum
  apply map_congr_left
  intro q hq
  exact PageTableEntry.card_leaks (hwf p.1 q.1) ((hin.child hS hp).child hq) hpa hattrs hvalid

end Root

end PageTable

end Hafnium
