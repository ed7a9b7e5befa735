import Hafnium.Mm.Merging

/-!
# Defragmentation keeps the mapping

Stage-1 table descriptors may carry attributes that restrict all pages below them.
What a page gets is then the attributes of its leaf, combined with those of the
tables on the way to it.  Defragmentation keeps this for every page, also where it
merges tables with attributes; tables that the hypervisor builds have none, and
there it keeps the attributes of each leaf.
-/

namespace Hafnium

open Support Aarch64 List

/-! ## Combining attributes -/

namespace Aarch64

/-- The attributes of a block that those of a table can change. -/
def combinedMask : BitVec 64 := stage1Ns ||| stage1Ap2 ||| stage1Ap1 ||| stage1Xn ||| stage1Pxn

theorem ite_or_and {c : Prop} [Decidable c] {b x m : BitVec 64} (h : x &&& m = 0#64) :
    (if c then b ||| x else b) &&& m = b &&& m := by
  split
  · rw [BitVec.and_or_distrib_right, h, BitVec.or_zero]
  · rfl

theorem ite_and_not_and {c : Prop} [Decidable c] {b x m : BitVec 64} (h : x &&& m = 0#64) :
    (if c then b &&& ~~~x else b) &&& m = b &&& m := by
  split
  · have hm : ~~~x &&& m = m := by
      have hsplit : m = (~~~x &&& m) ||| (x &&& m) := by
        rw [← BitVec.and_or_distrib_right, BitVec.or_comm, BitVec.or_not_self, BitVec.allOnes_and]
      rw [h, BitVec.or_zero] at hsplit
      exact hsplit.symm
    rw [BitVec.and_assoc, hm]
  · rfl

/-- All other bits of a block stay. -/
theorem archMmCombineTableEntryAttrs_and {m : BitVec 64} (hm : combinedMask &&& m = 0#64)
    (t b : BitVec 64) : archMmCombineTableEntryAttrs t b &&& m = b &&& m := by
  have hsub : ∀ x : BitVec 64, combinedMask &&& x = x → x &&& m = 0#64 := by
    intro x hx
    rw [← hx, BitVec.and_comm combinedMask, BitVec.and_assoc, hm, BitVec.and_zero]
  simp only [archMmCombineTableEntryAttrs]
  rw [ite_or_and (hsub _ (by decide)), ite_or_and (hsub _ (by decide)),
    ite_and_not_and (hsub _ (by decide)), ite_or_and (hsub _ (by decide)),
    ite_or_and (hsub _ (by decide))]

theorem archMmPteIsPresent_combine (t b : BitVec 64) (level : Nat) :
    archMmPteIsPresent (archMmCombineTableEntryAttrs t b) level = archMmPteIsPresent b level := by
  rw [archMmPteIsPresent, archMmPteIsPresent, archMmPteIsValid, archMmPteIsValid,
    archMmCombineTableEntryAttrs_and (by decide), archMmCombineTableEntryAttrs_and (by decide)]

theorem attrsOk_combine (t : BitVec 64) {b : BitVec 64} (hb : AttrsOk b) :
    AttrsOk (archMmCombineTableEntryAttrs t b) := by
  have hzero : archMmCombineTableEntryAttrs t b &&& ~~~pteAttrMask = 0#64 := by
    rw [archMmCombineTableEntryAttrs_and (by decide)]
    exact hb.and_eq_zero (by decide)
  have hsplit : archMmCombineTableEntryAttrs t b =
      (archMmCombineTableEntryAttrs t b &&& pteAttrMask) |||
        (archMmCombineTableEntryAttrs t b &&& ~~~pteAttrMask) := by
    rw [← BitVec.and_or_distrib_left, BitVec.or_not_self, BitVec.and_allOnes]
  rw [hzero, BitVec.or_zero] at hsplit
  exact hsplit.symm

end Aarch64

/-! ## The meaning of an entry -/

namespace PageTableEntry

variable {level : Nat}

/-- The attributes that a page gets: those of its leaf, combined with those of the
tables on the way to it. -/
def effective : {level : Nat} → PageTableEntry level → Nat → BitVec 64
  | level, leaf w, _ => archMmPteAttrs w level
  | level + 1, table w es, a =>
    archMmCombineTableEntryAttrs (archMmPteAttrs w (level + 1))
      ((es ⟨index a level, index_lt a level⟩).effective a)

/-- What an entry says about a page: the attributes that it gets if it is present. -/
def effectiveView (e : PageTableEntry level) (a : Nat) : Option (BitVec 64) :=
  if (e.lookup a).isPresent then some (e.effective a) else none

theorem effectiveView_leaf (w : Pte) (a : Nat) :
    (leaf w : PageTableEntry level).effectiveView a = Leaf.view ⟨level, w⟩ := by
  cases level <;> rfl

theorem effectiveView_table (w : Pte) (es : RawPageTable level) (a : Nat) :
    (table w es).effectiveView a = ((es ⟨index a level, index_lt a level⟩).effectiveView a).map
        (archMmCombineTableEntryAttrs (archMmPteAttrs w (level + 1))) := by
  rw [effectiveView, effectiveView, lookup_table]
  split
  · rfl
  · rfl

/-! ## Defragmentation of an entry -/

/-- Defragmentation leaves an entry well-formed with the same meaning; what it
returns are the attributes of the entry. -/
structure Kept (strict : Bool) (base : Nat) (e : PageTableEntry level)
    (r : Option (BitVec 64) × PageTableEntry level) : Prop where
  wf : r.2.Wf strict base
  view : ∀ a, r.2.effectiveView a = e.effectiveView a
  reported : ∀ attrs, r.1 = some attrs → ∃ w, r.2 = .leaf w ∧ archMmPteAttrs w level = attrs

variable {strict : Bool} {base : Nat} {w : Pte} {es : RawPageTable level}
  {c : Fin 512 → Option (BitVec 64) × PageTableEntry level} {attrs : BitVec 64}

/-- When all entries report the same attributes, every page below has them. -/
theorem effectiveView_of_reported
    (h : ∀ i : Fin 512, Kept strict (slotBase base (entrySize level) i) (es i) (c i))
    (hc : ∀ i, (c i).1 = some attrs) (a : Nat) :
    (table w es).effectiveView a = (Leaf.mk level attrs).view.map
      (archMmCombineTableEntryAttrs (archMmPteAttrs w (level + 1))) := by
  obtain ⟨w', hleaf, hattrs⟩ := (h ⟨index a level, index_lt a level⟩).reported attrs (hc _)
  rw [effectiveView_table, ← (h _).view a, hleaf, effectiveView_leaf]
  congr 1
  apply Leaf.view_congr
  rw [Leaf.attrs, Leaf.attrs, hattrs, ← hattrs]
  exact (attrsOk_pteAttrs w' level).symm

theorem kept_of_merging (hwf : (table w es).Wf strict base)
    (h : ∀ i : Fin 512, Kept strict (slotBase base (entrySize level) i) (es i) (c i))
    {r : Option (BitVec 64) × PageTableEntry (level + 1)} (hr : Merging aarch64 w c r) :
    Kept strict base (table w es) r := by
  cases hr with
  | stays _ =>
    refine ⟨⟨hwf.1, fun i => (h i).wf⟩, ?_, nofun⟩
    intro a
    rw [effectiveView_table, effectiveView_table, (h _).view a]
  | @emptied attrs hc hpresent =>
    refine ⟨wf_absent, ?_, ?_⟩
    · intro a
      rw [effectiveView_of_reported h hc, Leaf.view_of_not_present hpresent, Option.map_none,
        absent, effectiveView_leaf]
      exact Leaf.view_of_not_present (archMmPteIsPresent_absent _)
    · rintro _ ⟨⟩
      exact ⟨_, rfl, rfl⟩
  | @merged attrs hc hpresent hallowed =>
    obtain ⟨w', hleaf, hattrs⟩ := (h 0).reported attrs (hc 0)
    have hok : AttrsOk attrs := hattrs ▸ attrsOk_pteAttrs w' level
    -- the first entry is present, so its address is that of the table
    have hbase : archMmBlockFromPte (c 0).2.inner level = base := by
      have hwf₀ := (h 0).wf
      rw [hleaf] at hwf₀ ⊢
      have hp : archMmPteIsPresent w' level = true := by
        rw [← archMmPteIsPresent_pteAttrs w' level, hattrs]
        exact hpresent
      have hfirst := (wf_leaf.mp hwf₀).2.2 (Or.inl hp)
      simpa [slotBase] using hfirst
    have hpa : IsPa base := hbase ▸ isPa_tableFromPte (c 0).2.inner level
    have hcombined := attrsOk_combine (archMmPteAttrs w (level + 1)) hok
    have hnew : archMmPteAttrs (archMmBlockPte (level + 1) base
        (archMmCombineTableEntryAttrs (archMmPteAttrs w (level + 1)) attrs)) (level + 1) =
          archMmCombineTableEntryAttrs (archMmPteAttrs w (level + 1)) attrs :=
      archMmPteAttrs_blockPte hpa hcombined _ _
    simp only [aarch64_blockFromPte, aarch64_combineTableEntryAttrs, aarch64_pteAttrs, hbase]
    refine ⟨wf_block hpa hcombined hallowed, ?_, ?_⟩
    · intro a
      have hpresent' : archMmPteIsPresent (archMmBlockPte (level + 1) base
          (archMmCombineTableEntryAttrs (archMmPteAttrs w (level + 1)) attrs)) (level + 1) =
            true := by
        rw [← archMmPteIsPresent_pteAttrs _ (level + 1), hnew, archMmPteIsPresent_combine]
        exact hpresent
      rw [effectiveView_of_reported h hc, Leaf.view_of_present hpresent,
        show archMmPteAttrs attrs level = attrs from hok, block, effectiveView_leaf]
      exact (Leaf.view_of_present hpresent').trans (congrArg some hnew)
    · rintro _ ⟨⟩
      exact ⟨_, rfl, hnew⟩

theorem kept_defragResult {e : PageTableEntry level} (hwf : e.Wf strict base) :
    Kept strict base e (e.defragResult aarch64) := by
  induction e generalizing base with
  | @leaf level w =>
    rw [defragResult_leaf]
    refine ⟨hwf, fun _ => rfl, ?_⟩
    intro attrs hattrs
    refine ⟨w, rfl, ?_⟩
    split at hattrs
    · exact Option.some.inj hattrs
    · contradiction
  | @table level w es ih =>
    have hblock : aarch64.pteIsBlock w (level + 1) = false := archMmPteIsBlock_of_isTable hwf.1
    rw [defragResult_table_eq, hblock, if_neg Bool.false_ne_true]
    exact kept_of_merging hwf (fun i => ih i (hwf.2 i)) (merging_mergeResult aarch64 w _)

/-- Every page that defragmentation does not keep as a table goes to the pool. -/
theorem defrag_pages {e : PageTableEntry level} (hwf : e.Wf strict base) (mpool : MPool) :
    (e.defrag aarch64 mpool).2.1.tablePages + (e.defrag aarch64 mpool).2.2.pages =
      e.tablePages + mpool.pages := by
  induction e generalizing base mpool with
  | leaf w => rw [defrag_leaf]
  | @table level w es ih =>
    have hsum := mapAll_sum_eq (f := fun pte mpool => defrag aarch64 pte mpool) tablePages
      MPool.pages (nodup_finRange 512) (t := es)
      (fun i _ s => ih i (hwf.2 i) s) mpool
    obtain ⟨hresults, hentries⟩ := mapAll_of_forall
      (f := fun pte mpool => defrag aarch64 pte mpool) (nodup_finRange 512)
      (fun i _ mpool => defrag_eq_result aarch64 (es i) mpool) mpool
    have hmerged : ∀ attrs, (reduceAttrs (mapAll (fun pte mpool => defrag aarch64 pte mpool)
        (finRange 512) es mpool).1).join = some attrs →
        ∀ i, ((mapAll (fun pte mpool => defrag aarch64 pte mpool)
          (finRange 512) es mpool).2.1 i).tablePages = 0 := by
      intro attrs hattrs i
      rw [hresults, reduceAttrs_map_finRange] at hattrs
      obtain ⟨w', hleaf, -⟩ := (kept_defragResult (hwf.2 i)).reported attrs (hattrs i)
      rw [hentries i (mem_finRange i), hleaf, tablePages_leaf]
    rw [defrag_table hwf.1]
    clear hresults hentries
    generalize mapAll (fun pte mpool => defrag aarch64 pte mpool) (finRange 512) es mpool = r
      at hsum hmerged ⊢
    rw [mergeTable_pages hmerged, tablePages_table, tablePages_table, add_assoc, add_assoc, hsum]

/-- Defragmentation only takes tables away. -/
theorem tablePages_defragResult_le {e : PageTableEntry level} (hwf : e.Wf strict base) :
    (e.defragResult aarch64).2.tablePages ≤ e.tablePages := by
  induction e generalizing base with
  | leaf w => rw [defragResult_leaf]
  | @table level w es ih =>
    have hblock : aarch64.pteIsBlock w (level + 1) = false := archMmPteIsBlock_of_isTable hwf.1
    have hmerging := merging_mergeResult aarch64 w fun i => (es i).defragResult aarch64
    rw [defragResult_table_eq, hblock, if_neg Bool.false_ne_true]
    generalize mergeResult aarch64 w (fun i => (es i).defragResult aarch64) = r at hmerging ⊢
    cases hmerging with
    | stays _ =>
      rw [tablePages_table, tablePages_table]
      exact add_le_add_right (Finset.sum_le_sum fun i _ => ih i (hwf.2 i)) _
    | emptied _ _ =>
      rw [tablePages_absent]
      exact Multiset.zero_le _
    | merged _ _ _ =>
      rw [block, tablePages_leaf]
      exact Multiset.zero_le _

end PageTableEntry

namespace PageTable

variable {S : Stage}

/-- The attributes that an address gets. -/
def effective (pt : PageTable S) (a : Nat) : BitVec 64 :=
  if h : a / entrySize S.rootLevel < S.rootTableCount then
    (pt.tables ⟨_, h⟩ ⟨index a S.maxLevel, S.rootIndex_lt a⟩).effective a
  else 0

/-- Where an address is mapped to and the attributes that it gets, if it is present. -/
def resolve (pt : PageTable S) (a : Nat) : Option (BitVec 64 × Nat) :=
  (pt.lookup a).bind fun x => if x.isPresent then some (pt.effective a, x.output a) else none

variable {strict : Bool} {pt : PageTable S}

theorem resolve_of_lt (hwf : pt.Wf strict) {a : Nat}
    (ht : a / entrySize S.rootLevel < S.rootTableCount) :
    pt.resolve a = ((pt.tables ⟨_, ht⟩ ⟨index a S.maxLevel, S.rootIndex_lt a⟩).effectiveView
      a).map fun attrs => (attrs, a) := by
  obtain ⟨hlo, hhi⟩ := InSpace.rootBase_le S a
  have houtput := PageTableEntry.output_eq (InSpace.rootBase_aligned S _) (wf_entry.mp hwf ⟨_, ht⟩)
    hlo hhi
  rw [resolve, lookup_eq pt ht, Option.bind_some, effective, dif_pos ht,
    PageTableEntry.effectiveView]
  have hlookup : (pt.entry ⟨_, ht⟩).lookup a =
      (pt.tables ⟨_, ht⟩ ⟨index a S.maxLevel, S.rootIndex_lt a⟩).lookup a := rfl
  rw [hlookup] at houtput ⊢
  split
  · next hp =>
      rw [houtput hp]
      rfl
  · rfl

theorem resolve_of_not_lt {a : Nat} (ht : ¬a / entrySize S.rootLevel < S.rootTableCount) :
    pt.resolve a = none := by
  rw [resolve, lookup_eq_none pt ht, Option.bind_none]

theorem pages_defrag_le (hwf : pt.Wf strict) (mpool : MPool) :
    (pt.defrag aarch64 mpool).1.pages ≤ pt.pages := by
  have hroot : (pt.defrag aarch64 mpool).1.root = pt.root := by
    rw [defrag]
  have hentry : ∀ t i, ((pt.defrag aarch64 mpool).1.tables t i).tablePages ≤
      (pt.tables t i).tablePages := by
    intro t i
    rw [defrag_tables]
    exact PageTableEntry.tablePages_defragResult_le (hwf t i)
  rw [pages, pages, hroot]
  exact add_le_add_right (Finset.sum_le_sum fun t _ => Finset.sum_le_sum fun i _ => hentry t i) _

theorem pages_defrag (hwf : pt.Wf strict) (mpool : MPool) :
    (pt.defrag aarch64 mpool).1.pages + (pt.defrag aarch64 mpool).2.pages =
      pt.pages + mpool.pages := by
  have htable : ∀ (t : Fin S.rootTableCount) (s : MPool),
      ∑ i, ((mapAll (fun pte mpool => PageTableEntry.defrag aarch64 pte mpool) (finRange 512)
          (pt.tables t) s).2.1 i).tablePages +
        (mapAll (fun pte mpool => PageTableEntry.defrag aarch64 pte mpool) (finRange 512)
          (pt.tables t) s).2.2.pages = ∑ i, (pt.tables t i).tablePages + s.pages := by
    intro t s
    exact mapAll_sum_eq (f := fun pte mpool => PageTableEntry.defrag aarch64 pte mpool)
      PageTableEntry.tablePages MPool.pages (nodup_finRange 512) (t := pt.tables t)
      (fun i _ s => PageTableEntry.defrag_pages (hwf t i) s) s
  simp only [defrag]
  generalize finRange 512 = l at htable ⊢
  have hall := mapAll_sum_eq
    (f := fun (table : RawPageTable S.maxLevel) mpool =>
      mapAll (fun pte mpool => PageTableEntry.defrag aarch64 pte mpool) l table mpool)
    (fun es => ∑ i, (es i).tablePages) MPool.pages (nodup_finRange S.rootTableCount)
    (t := pt.tables) (fun t _ s => htable t s) mpool
  simp only [pages]
  rw [add_assoc, add_assoc]
  exact congrArg _ hall

/-- Defragmentation leaves every page present as it was, with the same address and
the same attributes, and the table well-formed.  It frees the tables that are no
longer part of the page table, and only these. -/
theorem defrag_preserves (hwf : pt.Wf strict) (mpool : MPool) :
    (pt.defrag aarch64 mpool).1.Wf strict ∧
    (∀ a, (pt.defrag aarch64 mpool).1.resolve a = pt.resolve a) ∧
    (pt.Plain → (pt.defrag aarch64 mpool).1.Plain ∧
      ∀ a, (pt.defrag aarch64 mpool).1.translate a = pt.translate a) ∧
    ∃ freed, (pt.defrag aarch64 mpool).2.pages = mpool.pages + freed ∧
      (pt.defrag aarch64 mpool).1.pages + freed = pt.pages ∧
      (pt.pages.Nodup → (pt.defrag aarch64 mpool).1.pages.Nodup ∧
        Disjoint (pt.defrag aarch64 mpool).1.pages freed) := by
  have hkept := fun t i => PageTableEntry.kept_defragResult (hwf t i)
  have hwf' : (pt.defrag aarch64 mpool).1.Wf strict := by
    intro t i
    rw [defrag_tables]
    exact (hkept t i).wf
  refine ⟨hwf', ?_, ?_, ?_⟩
  · intro a
    by_cases ht : a / entrySize S.rootLevel < S.rootTableCount
    · rw [resolve_of_lt hwf' ht, resolve_of_lt hwf ht, defrag_tables, (hkept _ _).view]
    · rw [resolve_of_not_lt ht, resolve_of_not_lt ht]
  · intro hplain
    have hspec := defrag_spec hwf hplain mpool
    refine ⟨hspec.plain, ?_⟩
    intro a
    rw [translate_eq hwf', translate_eq hwf, hspec.view]
  · have hle := pages_defrag_le hwf mpool
    have hpages := pages_defrag hwf mpool
    obtain ⟨freed, hfreed⟩ := Multiset.le_iff_exists_add.mp hle
    refine ⟨freed, ?_, hfreed.symm, ?_⟩
    · rw [hfreed, add_assoc] at hpages
      rw [add_left_cancel hpages, add_comm]
    · intro hnodup
      rw [hfreed] at hnodup
      obtain ⟨hnodup', -, hdisjoint⟩ := Multiset.nodup_add.mp hnodup
      exact ⟨hnodup', hdisjoint⟩

/-- A table descriptor that forbids execution, for pages that are all mapped alike. -/
def restrictedTable : PageTable exampleStage where
  root := 0x10000
  tables _ i :=
    if i = 0 then
      .table (archMmTablePte 1 0x2000 ||| tableXntable) fun j =>
        .block aarch64 0 (j.val * 0x1000) (archMmModeToStage2Attrs 0#32)
    else .absent aarch64 1

/-- The pages are merged into a block, to which the restriction of the table passes. -/
theorem defrag_preserves_restricted :
    (∀ t, ((restrictedTable.defrag aarch64 examplePool).1.tables t 0).isBlock aarch64 = true) ∧
      (restrictedTable.defrag aarch64 examplePool).1.Wf true ∧
      ∀ a, (restrictedTable.defrag aarch64 examplePool).1.resolve a =
        restrictedTable.resolve a := by
  have hwf : restrictedTable.Wf true := by decide +kernel
  obtain ⟨hwf', hresolve, -⟩ := defrag_preserves hwf examplePool
  refine ⟨?_, hwf', hresolve⟩
  simp only [defrag_tables]
  decide +kernel

end PageTable
end Hafnium
