import Hafnium.Mm.Attributes
import Hafnium.Mm.Defrag

/-!
# Undoing an update

An update that turned out to be part of a failed operation is undone by mapping
its region with the attributes it had before.  No table is needed for that: the
update has split the region off and nothing merges it again.  Only a
defragmentation in between does, and then the merged tables have been freed
into the same pool.
-/

namespace Hafnium

open Support Aarch64

namespace PageTableEntry

open RawPageTable

variable {strict unmap commit : Bool} {level base begin endAddr : Nat} {attrs : BitVec 64}

/-- An entry that is not a table and whose pages are as wanted is skipped. -/
theorem skips_of_wanted {w : Pte} (hwf : (leaf w : PageTableEntry level).Wf strict base)
    (h : wanted attrs unmap (Leaf.view ⟨level, w⟩) = true) :
    skips aarch64 attrs ⟨commit, unmap⟩ (leaf w : PageTableEntry level) = true := by
  obtain ⟨-, hblock, -⟩ := wf_leaf.mp hwf
  cases hp : archMmPteIsPresent w level <;> cases unmap <;>
    simp_all [skips, wanted, isPresent, isBlock, PageTableEntry.attrs,
      Leaf.view, Leaf.isPresent, Leaf.attrs]

/-- Splitting entries does not make an update need more tables. -/
theorem Covered.of_splits {e e' : PageTableEntry level} (hs : Splits e e')
    (haligned : base % entrySize level = 0) (hwf : e.Wf strict base)
    (h : Covered endAddr attrs ⟨commit, unmap⟩ begin e) :
    Covered endAddr attrs ⟨commit, unmap⟩ begin e' := by
  induction hs generalizing base begin with
  | refl e => exact h
  | table _ ih =>
    cases h with
    | skip hskip =>
      exact absurd ((skips_table hwf.1 _ _ _).symm.trans hskip) (by decide)
    | cover hcovers => exact .cover hcovers
    | table h =>
      exact .table fun i b hb => ih i (slotBase_aligned haligned i) (hwf.2 i) (h i b hb)
  | @split level page w es' hpage hsplits ih =>
    cases h with
    | cover hcovers => exact .cover hcovers
    | skip hskip =>
      refine .table fun i b hb => ih i (slotBase_aligned haligned i)
        (wf_splitEntries haligned hwf i) (.skip ?_)
      have hview := view_splitEntries haligned hwf i 0
      have hwf' := wf_splitEntries haligned hwf i
      rw [skips_leaf hwf, ← hview] at hskip
      obtain ⟨v, hv⟩ := splitEntries_eq_leaf aarch64 level w i
      rw [hv] at hskip hwf' ⊢
      exact skips_of_wanted hwf' hskip

theorem Updated.cells {flags : Flags} {w w' : Pte} {es es' : RawPageTable level}
    (h : Updated endAddr attrs flags begin (.table w es) (.table w' es'))
    (hw : archMmPteIsTable w (level + 1) = true) :
    (∀ i b, (i, b) ∈ visits endAddr level begin → Updated endAddr attrs flags b (es i) (es' i)) ∧
    ∀ i, i ∉ (visits endAddr level begin).map Prod.fst → es' i = es i := by
  generalize he : PageTableEntry.table w' es' = e' at h
  cases h with
  | skip hskip =>
    exact absurd ((skips_table hw es attrs flags).symm.trans hskip) (by decide)
  | cover => rw [newEntry] at he; split at he <;> cases he
  | table hvisited hother => cases he; exact ⟨hvisited, hother⟩
  | emptied => cases he

/-- After a region whose pages all had the view `v` has been mapped, an update needs no
table there if it needs none where the mapping skipped an entry, and covers what the
mapping covered. -/
theorem Updated.covered {v : Option (BitVec 64)} {attrs' : BitVec 64} {flags : Flags}
    (hskip : ∀ {level base begin : Nat} {e : PageTableEntry level},
      InEntry level base begin endAddr → e.Wf strict base →
      skips aarch64 attrs ⟨true, false⟩ e = true → (e.lookup begin).view = v →
      Covered endAddr attrs' flags begin e)
    (hcover : ∀ {level begin : Nat}, coversEntry aarch64 endAddr ⟨true, false⟩ level begin = true →
      coversEntry aarch64 endAddr flags level begin = true)
    {e e' : PageTableEntry level} (h : Updated endAddr attrs ⟨true, false⟩ begin e e')
    (hwf : e.Wf strict base) (hin : InEntry level base begin endAddr)
    (hview : ∀ a, base ≤ a → a < base + entrySize level → begin ≤ a → a < endAddr →
      (e.lookup a).view = v) : Covered endAddr attrs' flags begin e' := by
  induction h generalizing base with
  | skip h => exact hskip hin hwf h (hview _ hin.lo hin.hi le_rfl hin.lt)
  | cover h => exact .cover (hcover h)
  | @table level begin w es es' _ _ ih =>
    refine .table fun i b hb => ih i b hb (hwf.2 i) (hin.child hb) fun a hlo hhi hba hend => ?_
    have hle := hin.le_of_visits hb
    have hslot := slotBase_add_le base level i
    have hge : base ≤ slotBase base (entrySize level) i := Nat.le_add_right _ _
    have := hview a (by omega) (by omega) (by omega) hend
    rwa [lookup_table, show (⟨index a level, index_lt a level⟩ : Fin 512) = i from
      Fin.ext (index_of_slot hin.aligned i.isLt hlo hhi)] at this
  | emptied _ _ hunmap => exact absurd hunmap (by decide)

/-- Updating a region leaves what was covered elsewhere covered. -/
theorem Covered.of_updated {attrs' : BitVec 64} {begin' endAddr' : Nat}
    {e e' : PageTableEntry level} (hu : Updated endAddr' attrs' ⟨true, false⟩ begin' e e')
    (hin : InEntry level base begin endAddr) (hin' : InEntry level base begin' endAddr')
    (hdisj : endAddr ≤ begin' ∨ endAddr' ≤ begin)
    (h : Covered endAddr attrs ⟨commit, false⟩ begin e) (hwf : e.Wf strict base) :
    Covered endAddr attrs ⟨commit, false⟩ begin e' := by
  induction hu generalizing base begin with
  | skip => exact h
  | cover hcovers =>
    obtain ⟨rfl, hend⟩ := hin'.of_covers hcovers
    have := hin.lt
    have := hin.lo
    have := hin.hi
    omega
  | @table level begin' w es es' _ hother ih =>
    cases h with
    | skip hskip =>
      exact absurd ((skips_table hwf.1 _ _ _).symm.trans hskip) (by decide)
    | cover hcovers => exact .cover hcovers
    | table h =>
      refine .table fun i b hb => ?_
      by_cases hi : i ∈ (visits endAddr' level begin').map Prod.fst
      · obtain ⟨⟨i, b'⟩, hb', rfl⟩ := List.mem_map.mp hi
        have := hin.le_of_visits hb
        have := hin'.le_of_visits hb'
        exact ih i b' hb' (hin.child hb) (hin'.child hb') (by omega) (h i b hb) (hwf.2 i)
      · rw [hother i hi]
        exact h i b hb
  | emptied _ _ hunmap => exact absurd hunmap (by decide)

end PageTableEntry

namespace PageTable

variable {S : Stage} {strict unmap commit : Bool} {begin endAddr : Nat} {attrs : BitVec 64}
  {pt pt' : PageTable S}

theorem Covered.of_splits (hs : pt.Splits pt') (hwf : pt.Wf strict)
    (h : Covered endAddr attrs ⟨commit, unmap⟩ begin pt) :
    Covered endAddr attrs ⟨commit, unmap⟩ begin pt' := fun t b hb i b' hb' =>
  (h t b hb i b' hb').of_splits (hs.2 t i)
    (slotBase_aligned (InSpace.rootBase_aligned S t) i) (hwf t i)

theorem Updated.cells {flags : Flags} (h : Updated endAddr attrs flags begin pt pt')
    {t : Fin S.rootTableCount} {b : Nat} (hb : (t, b) ∈ visits S endAddr begin) :
    (∀ i b', (i, b') ∈ RawPageTable.visits endAddr S.maxLevel b →
      PageTableEntry.Updated endAddr attrs flags b' (pt.tables t i) (pt'.tables t i)) ∧
    ∀ i, i ∉ (RawPageTable.visits endAddr S.maxLevel b).map Prod.fst →
      pt'.tables t i = pt.tables t i :=
  PageTableEntry.Updated.cells (h.visited t b hb)
    (archMmPteIsTable_tablePte ⟨rfl, by decide⟩ _)

theorem view_of_cell (pt : PageTable S) {t : Fin S.rootTableCount} {i : Fin 512} {a : Nat}
    (hlo : slotBase (S.rootBase t) (entrySize S.maxLevel) i ≤ a)
    (hhi : a < slotBase (S.rootBase t) (entrySize S.maxLevel) i + entrySize S.maxLevel) :
    pt.view a = ((pt.tables t i).lookup a).view := by
  have hle := slotBase_add_le (S.rootBase t) S.maxLevel i
  have hge : S.rootBase t ≤ slotBase (S.rootBase t) (entrySize S.maxLevel) i :=
    Nat.le_add_right _ _
  have ht : a / entrySize S.rootLevel = t := by
    have := div_eq_of_slot (entrySize_pos S.rootLevel) (Nat.zero_mod _) (hge.trans hlo)
      (hhi.trans_le hle)
    simpa using this
  have hi := index_of_slot (InSpace.rootBase_aligned S t) i.isLt hlo hhi
  rw [view_eq pt (ht.trans_lt t.isLt), entry, PageTableEntry.lookup_table]
  congr 4

theorem Updated.covered {v : Option (BitVec 64)} {attrs' : BitVec 64} {flags : Flags}
    (hS : S.Valid) (hin : InSpace S begin endAddr)
    (h : Updated endAddr attrs ⟨true, false⟩ begin pt pt') (hwf : pt.Wf strict)
    (hview : ∀ a, begin ≤ a → a < endAddr → pt.view a = v)
    (hskip : ∀ {level base begin : Nat} {e : PageTableEntry level},
      InEntry level base begin endAddr → e.Wf strict base →
      RawPageTable.skips aarch64 attrs ⟨true, false⟩ e = true → (e.lookup begin).view = v →
      PageTableEntry.Covered endAddr attrs' flags begin e)
    (hcover : ∀ {level begin : Nat},
      RawPageTable.coversEntry aarch64 endAddr ⟨true, false⟩ level begin = true →
      RawPageTable.coversEntry aarch64 endAddr flags level begin = true) :
    Covered endAddr attrs' flags begin pt' := by
  intro t b hb i b' hb'
  have hroot := hin.child hS hb
  refine ((h.cells hb).1 i b' hb').covered hskip hcover (hwf t i) (hroot.child hb') ?_
  intro a hlo hhi hba hend
  have hle := hin.le_of_visits hS hb
  have hle' := hroot.le_of_visits hb'
  rw [← view_of_cell pt hlo hhi]
  exact hview a (by omega) hend

/-- After a region with the attributes `orig` has been mapped with others, it can
be mapped with `orig` again without any table. -/
theorem Updated.covered_again {orig attrs' : BitVec 64} (hsame : orig = attrs → attrs' = attrs)
    (hS : S.Valid) (hin : InSpace S begin endAddr)
    (h : Updated endAddr attrs ⟨true, false⟩ begin pt pt') (hwf : pt.Wf strict)
    (hview : ∀ a, begin ≤ a → a < endAddr → pt.view a = some orig) :
    Covered endAddr attrs' ⟨commit, false⟩ begin pt' := by
  refine h.covered hS hin hwf hview ?_ id
  intro level base begin e hin hwf hskip horig
  -- the entry has both attributes, so they are the same
  have htarget := PageTableEntry.target_of_skips hin.aligned hwf hskip hin.lo hin.hi
  rw [Leaf.view, Option.ite_none_right_eq_some, Option.some.injEq] at horig
  rw [hsame (horig.2.symm.trans htarget.1)]
  exact .skip hskip

/-- After a region without present pages has been mapped, it can be unmapped again
without any table. -/
theorem Updated.covered_unmap {attrs' : BitVec 64} (hS : S.Valid) (hin : InSpace S begin endAddr)
    (h : Updated endAddr attrs ⟨true, false⟩ begin pt pt') (hwf : pt.Wf strict)
    (hview : ∀ a, begin ≤ a → a < endAddr → pt.view a = none) :
    Covered endAddr attrs' ⟨commit, true⟩ begin pt' := by
  refine h.covered hS hin hwf hview ?_ ?_
  · intro level base begin e hin hwf hskip hnone
    -- only a leaf is skipped, and this one is not present
    cases e with
    | table w es =>
      exact absurd ((RawPageTable.skips_table hwf.1 es _ _).symm.trans hskip) (by decide)
    | leaf w =>
      refine .skip (PageTableEntry.skips_of_wanted hwf ?_)
      rw [PageTableEntry.lookup_leaf] at hnone
      rw [hnone]
      rfl
  · intro level begin hcovers
    simp only [RawPageTable.coversEntry, Bool.true_or, Bool.false_or, Bool.and_eq_true] at hcovers ⊢
    exact ⟨⟨hcovers.1.1, trivial⟩, hcovers.2⟩

theorem Covered.of_updated {attrs' : BitVec 64} {begin' endAddr' : Nat} (hS : S.Valid)
    (hu : Updated endAddr' attrs' ⟨true, false⟩ begin' pt pt') (hin : InSpace S begin endAddr)
    (hin' : InSpace S begin' endAddr') (hdisj : endAddr ≤ begin' ∨ endAddr' ≤ begin)
    (h : Covered endAddr attrs ⟨commit, false⟩ begin pt) (hwf : pt.Wf strict) :
    Covered endAddr attrs ⟨commit, false⟩ begin pt' := by
  intro t b hb i c hc
  by_cases ht : t ∈ (visits S endAddr' begin').map Prod.fst
  · obtain ⟨⟨t, b'⟩, hb', rfl⟩ := List.mem_map.mp ht
    have hroot := hin.child hS hb
    have hroot' := hin'.child hS hb'
    by_cases hi : i ∈ (RawPageTable.visits endAddr' S.maxLevel b').map Prod.fst
    · obtain ⟨⟨i, c'⟩, hc', rfl⟩ := List.mem_map.mp hi
      have := hin.le_of_visits hS hb
      have := hin'.le_of_visits hS hb'
      have := hroot.le_of_visits hc
      have := hroot'.le_of_visits hc'
      exact (h t b hb i c hc).of_updated ((hu.cells hb').1 i c' hc') (hroot.child hc)
        (hroot'.child hc') (by omega) (hwf t i)
    · rw [(hu.cells hb').2 i hi]
      exact h t b hb i c hc
  · rw [hu.other t ht]
    exact h t b hb i c hc

end PageTable
end Hafnium
