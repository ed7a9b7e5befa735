import Hafnium.Mm.IdentityMap

/-!
# How many tables an update needs

The first pass of an update allocates a table for every entry that the region
cuts and that is not a table yet.  `need` counts them in advance: an update
succeeds if the pool holds that many pages.
-/

namespace Hafnium

open Support Aarch64 Multiset

namespace PageTableEntry

open RawPageTable

variable (endAddr : Nat) (attrs : BitVec 64) (unmap : Bool)

/-- Pages with this view are as the update wants them. -/
def wanted (v : Option (BitVec 64)) : Bool := if unmap then v.isNone else v == some attrs

/-- The number of tables needed to update the part from `begin` on of an entry
whose pages all have the view `v`. -/
def needLeaf (v : Option (BitVec 64)) : Nat → Nat → Nat
  | 0, _ => 0
  | level + 1, begin =>
    if wanted attrs unmap v || coversEntry aarch64 endAddr ⟨false, unmap⟩ (level + 1) begin then 0
    else
      1 + ((visits endAddr level begin).map fun p => needLeaf v level p.2).sum

/-- The number of tables needed to update the part of an entry from `begin` on. -/
def need : {level : Nat} → Nat → PageTableEntry level → Nat
  | level, begin, leaf w => needLeaf endAddr attrs unmap (Leaf.view ⟨level, w⟩) level begin
  | level + 1, begin, table _ es =>
    if coversEntry aarch64 endAddr ⟨false, unmap⟩ (level + 1) begin then 0
    else ((visits endAddr level begin).map fun p => need p.2 (es p.1)).sum

variable {endAddr attrs unmap} {level base begin : Nat} {strict : Bool}

theorem need_leaf (w : Pte) : need endAddr attrs unmap begin (leaf w : PageTableEntry level) =
      needLeaf endAddr attrs unmap (Leaf.view ⟨level, w⟩) level begin := by
  cases level <;> rfl

theorem need_splitEntries {w : Pte} (haligned : base % entrySize (level + 1) = 0)
    (hwf : (leaf w : PageTableEntry (level + 1)).Wf strict base) (i : Fin 512) :
    need endAddr attrs unmap begin (splitEntries aarch64 level w i) =
      needLeaf endAddr attrs unmap (Leaf.view ⟨level + 1, w⟩) level begin := by
  rw [← view_splitEntries haligned hwf i 0]
  obtain ⟨v, hv⟩ := splitEntries_eq_leaf aarch64 level w i
  rw [hv, need_leaf, lookup_leaf]

/-- Above level 0, an entry that is not a table is skipped exactly if its pages
are as wanted. -/
theorem skips_leaf {w : Pte} {commit : Bool}
    (hwf : (leaf w : PageTableEntry (level + 1)).Wf strict base) :
    skips aarch64 attrs ⟨commit, unmap⟩ (leaf w : PageTableEntry (level + 1)) =
      wanted attrs unmap (Leaf.view ⟨level + 1, w⟩) := by
  obtain ⟨htable, hpresent, -⟩ := wf_leaf.mp hwf
  have hblock : archMmPteIsBlock w (level + 1) = archMmPteIsPresent w (level + 1) := by
    cases hp : archMmPteIsPresent w (level + 1) with
    | true => exact hpresent hp
    | false => rw [archMmPteIsBlock_succ, hp, Bool.and_false, Bool.false_and]
  cases hp : archMmPteIsPresent w (level + 1) <;> cases unmap <;>
    simp [skips, wanted, isPresent, isBlock, PageTableEntry.attrs, hblock, hp,
      Leaf.view, Leaf.isPresent, Leaf.attrs]

/-- An entry that the region cuts needs a table, and what the entries of this table
need. -/
theorem need_split {w : Pte} {commit : Bool} (haligned : base % entrySize (level + 1) = 0)
    (hwf : (leaf w : PageTableEntry (level + 1)).Wf strict base)
    (hskip : skips aarch64 attrs ⟨commit, unmap⟩
      (leaf w : PageTableEntry (level + 1)) = false)
    (hcovers : coversEntry aarch64 endAddr ⟨false, unmap⟩ (level + 1) begin = false) :
    need endAddr attrs unmap begin (leaf w : PageTableEntry (level + 1)) =
      1 + ((visits endAddr level begin).map fun p =>
        need endAddr attrs unmap p.2 (splitEntries aarch64 level w p.1)).sum := by
  rw [skips_leaf hwf] at hskip
  simp only [need_leaf, needLeaf, hskip, hcovers, Bool.or_self, Bool.false_eq_true, if_false,
    need_splitEntries haligned hwf]

theorem Covered.need_eq_zero {commit : Bool} {e : PageTableEntry level}
    (h : Covered endAddr attrs ⟨commit, unmap⟩ begin e) (hwf : e.Wf strict base) :
    need endAddr attrs unmap begin e = 0 := by
  induction h generalizing base with
  | @skip level begin e hskip =>
    cases e with
    | table w es =>
      have := skips_table hwf.1 es attrs ⟨commit, unmap⟩
      exact absurd (this.symm.trans hskip) (by decide)
    | leaf w =>
      rw [need_leaf]
      cases level with
      | zero => rfl
      | succ level =>
        rw [skips_leaf hwf] at hskip
        rw [needLeaf, hskip, Bool.true_or, if_pos rfl]
  | @cover level begin e hcovers =>
    have hcovers' : coversEntry aarch64 endAddr ⟨false, unmap⟩ level begin = true :=
      hcovers
    cases e with
    | table w es => rw [need, if_pos hcovers']
    | leaf w =>
      rw [need_leaf]
      cases level with
      | zero => rfl
      | succ level => rw [needLeaf, hcovers', Bool.or_true, if_pos rfl]
  | table _ ih =>
    rw [need]
    split
    · rfl
    · rw [List.sum_eq_zero_iff]
      simp only [List.forall_mem_map, Prod.forall]
      exact fun i b hb => ih i b hb (hwf.2 i)

/-- The number of tables below an entry. -/
def tableCount (e : PageTableEntry level) : Nat := e.tablePages.card

@[simp] theorem tableCount_leaf (w : Pte) : (leaf w : PageTableEntry level).tableCount = 0 := by
  rw [tableCount, tablePages_leaf, card_zero]

@[simp] theorem tableCount_table (w : Pte) (es : RawPageTable level) :
    (table w es).tableCount = 1 + ∑ i, (es i).tableCount := by
  simp only [tableCount, tablePages_table, card_add, card_singleton,
    card_sum]

theorem tableCount_splitEntries (w : Pte) (i : Fin 512) :
    (splitEntries aarch64 level w i).tableCount = 0 := by
  rw [tableCount, tablePages_splitEntries, card_zero]

end PageTableEntry

namespace RawPageTable

open PageTableEntry

variable {endAddr : Nat} {attrs : BitVec 64} {unmap strict : Bool} {level base begin : Nat}

/-- What the first pass spends on an entry: the tables that it adds are needed, and it only
fails once no page is left. -/
structure Spends (endAddr : Nat) (attrs : BitVec 64) (unmap : Bool) {level : Nat} (begin : Nat)
    (e : PageTableEntry level) (r : Outcome × PageTableEntry level × MPool) : Prop where
  need : need endAddr attrs unmap begin r.2.1 + r.2.1.tableCount =
    need endAddr attrs unmap begin e + e.tableCount
  err : r.1 = .err → r.2.2.count = 0 ∧ 0 < PageTableEntry.need endAddr attrs unmap begin r.2.1

section Table

variable {es : RawPageTable level} {mpool : MPool}
  (hin : InEntry (level + 1) base begin endAddr) (hpool : mpool.Wf)
  (hwf : ∀ i : Fin 512, (es i).Wf strict (slotBase base (entrySize level) i))
  (ih : ∀ {base begin : Nat} {e : PageTableEntry level} {mpool : MPool},
    InEntry level base begin endAddr → e.Wf strict base → mpool.Wf →
    Spends endAddr attrs unmap begin e
      (mapEntry aarch64 endAddr attrs ⟨false, unmap⟩ level begin e mpool))
include hin hpool hwf ih

theorem mapLevel_spends {r : Outcome × RawPageTable level × MPool}
    (hr : mapLevel aarch64 endAddr attrs ⟨false, unmap⟩ level begin es mpool = r) :
    ((visits endAddr level begin).map fun p => need endAddr attrs unmap p.2 (r.2.1 p.1)).sum +
          ∑ i, (r.2.1 i).tableCount =
        ((visits endAddr level begin).map fun p => need endAddr attrs unmap p.2 (es p.1)).sum +
          ∑ i, (es i).tableCount ∧
      (r.1 = .err → r.2.2.count = 0 ∧ 0 < ((visits endAddr level begin).map fun p =>
          need endAddr attrs unmap p.2 (r.2.1 p.1)).sum) := by
  rw [← hr, mapLevel_eq]
  refine forEach_measure MPool.Wf (fun s => s.count = 0) tableCount (need endAddr attrs unmap)
    (InEntry.visits_nodup endAddr level begin) hpool (fun i b hb s hs => ?_) fun i b hb s hs => ?_
  · exact (mapEntry_splitPass rfl level (hin.child hb) hs).wf
  · obtain ⟨hneed, herr⟩ := ih (hin.child hb) (hwf i) hs
    exact ⟨hneed, herr⟩

theorem spends_table {w : Pte}
    (hcovers : coversEntry aarch64 endAddr ⟨false, unmap⟩ (level + 1) begin = false) :
    Spends endAddr attrs unmap begin (.table w es) (mapSubtable aarch64 ⟨false, unmap⟩
      (mapLevel aarch64 endAddr attrs ⟨false, unmap⟩ level) begin (.table w es) mpool) := by
  obtain ⟨hneed, herr⟩ := mapLevel_spends hin hpool hwf ih rfl
  have htable : ∀ es : RawPageTable level, need endAddr attrs unmap begin (.table w es) =
      ((visits endAddr level begin).map fun p => need endAddr attrs unmap p.2 (es p.1)).sum := by
    intro es
    rw [need, hcovers, if_neg Bool.false_ne_true]
  rw [mapSubtable_table_first]
  refine ⟨?_, fun h => ?_⟩
  · rw [htable, htable, tableCount_table, tableCount_table]
    omega
  · rw [htable]
    exact herr h

end Table

/-- The first pass adds the tables that the update needs, as long as there are pages. -/
theorem mapEntry_spends : ∀ (level : Nat) {base begin : Nat} {e : PageTableEntry level}
    {mpool : MPool}, InEntry level base begin endAddr → e.Wf strict base → mpool.Wf →
    Spends endAddr attrs unmap begin e
      (mapEntry aarch64 endAddr attrs ⟨false, unmap⟩ level begin e mpool) := by
  intro level
  induction level with
  | zero =>
    intro base begin e mpool hin hwf hpool
    rw [mapEntry_covered rfl (.cover (hin.covers_zero aarch64 ⟨false, unmap⟩ (by decide)))]
    exact ⟨rfl, by simp⟩
  | succ level ih =>
    intro base begin e mpool hin hwf hpool
    by_cases hcovered : Covered endAddr attrs ⟨false, unmap⟩ begin e
    · rw [mapEntry_covered rfl hcovered]
      exact ⟨rfl, by simp⟩
    · have hskip : skips aarch64 attrs ⟨false, unmap⟩ e = false := by
        rw [← Bool.not_eq_true]
        exact fun hskip => hcovered (.skip hskip)
      have hcovers : coversEntry aarch64 endAddr ⟨false, unmap⟩ (level + 1) begin = false := by
        rw [← Bool.not_eq_true]
        exact fun hcovers => hcovered (.cover hcovers)
      rw [mapEntry_descend hskip hcovers]
      cases e with
      | table w es => exact spends_table hin hpool hwf.2 ih hcovers
      | leaf w =>
        have hsplit := need_split hin.aligned hwf hskip hcovers
        cases halloc : mpool.alloc with
        | none =>
          rw [mapSubtable_leaf_none halloc]
          exact ⟨rfl, fun _ => ⟨MPool.count_eq_zero_of_alloc hpool halloc, by dsimp only; omega⟩⟩
        | some p =>
          obtain ⟨page, mpool'⟩ := p
          rw [mapSubtable_leaf_some halloc]
          obtain ⟨hneed, herr⟩ := spends_table hin (MPool.alloc_spec hpool halloc).2
            (wf_splitEntries hin.aligned hwf) ih hcovers (w := archMmTablePte (level + 1) page)
          refine ⟨hneed.trans ?_, herr⟩
          rw [hsplit, need, hcovers, if_neg Bool.false_ne_true, tableCount_table,
            Finset.sum_eq_zero fun i _ => tableCount_splitEntries w i, tableCount_leaf]
          omega

end RawPageTable

namespace PageTable

variable {S : Stage} {strict unmap : Bool} {attrs : BitVec 64}

/-- The number of tables needed to update a region of a page table. -/
def need (endAddr : Nat) (attrs : BitVec 64) (unmap : Bool) (begin : Nat)
    (pt : PageTable S) : Nat :=
  ((visits S endAddr begin).map fun p =>
    ((RawPageTable.visits endAddr S.maxLevel p.2).map fun q =>
      PageTableEntry.need endAddr attrs unmap q.2 (pt.tables p.1 q.1)).sum).sum

theorem Covered.need_eq_zero {endAddr begin : Nat} {commit : Bool} {pt : PageTable S}
    (h : Covered endAddr attrs ⟨commit, unmap⟩ begin pt) (hwf : pt.Wf strict) :
    pt.need endAddr attrs unmap begin = 0 := by
  rw [need, List.sum_eq_zero_iff, List.forall_mem_map]
  intro p hp
  rw [List.sum_eq_zero_iff, List.forall_mem_map]
  intro q hq
  exact (h p.1 p.2 hp q.1 q.2 hq).need_eq_zero (hwf p.1 q.1)

/-- The number of tables below the root tables. -/
def tableCount (pt : PageTable S) : Nat := ∑ t, ∑ i, (pt.tables t i).tableCount

theorem card_pages (pt : PageTable S) : pt.pages.card = S.rootTableCount + pt.tableCount := by
  simp [pages, tableCount, PageTableEntry.tableCount, card_sum, Chunk.pages]

section Update

variable (hS : S.Valid) {begin endAddr : Nat} {pt : PageTable S} (hwf : pt.Wf strict)
  {mpool : MPool} (hpool : mpool.Wf)
include hS hwf hpool

/-- The first pass succeeds exactly if the pool holds the tables that the update needs, and
adds these then. -/
theorem mapRoot_spends (hin : InSpace S begin endAddr) (attrs : BitVec 64) (unmap : Bool) :
    ∃ r, pt.mapRoot aarch64 begin endAddr attrs ⟨false, unmap⟩ mpool = some r ∧
      SplitPass endAddr attrs ⟨false, unmap⟩ begin pt mpool r ∧
      (r.1 = .ok → r.2.2.count + pt.need endAddr attrs unmap begin = mpool.count) ∧
      (r.1 = .err → mpool.count < pt.need endAddr attrs unmap begin) := by
  have hidx := InSpace.index_eq hS (hin.lt.trans_le hin.le)
  obtain ⟨r, hmap, hsplit⟩ := mapRoot_splitPass hS hin attrs ⟨false, unmap⟩ rfl pt hpool
  have htables := forEach_measure (f := RawPageTable.mapLevel aarch64 endAddr attrs
      ⟨false, unmap⟩ S.maxLevel) MPool.Wf (fun s => s.count = 0)
    (fun es => ∑ i, (es i).tableCount) (fun b es => ((RawPageTable.visits endAddr S.maxLevel
      b).map fun q => PageTableEntry.need endAddr attrs unmap q.2 (es q.1)).sum)
    (InSpace.visits_nodup S endAddr begin) hpool (t := pt.tables)
    (fun t b hb s hs => (RawPageTable.splitTable_of_entries (hin.child hS hb) hs
      (RawPageTable.mapEntry_splitPass rfl S.maxLevel)).drawn.wf)
    fun t b hb s hs => by
      exact RawPageTable.mapLevel_spends (hin.child hS hb) hs (hwf t)
        (RawPageTable.mapEntry_spends S.maxLevel) (Eq.refl (RawPageTable.mapLevel aarch64 endAddr
          attrs ⟨false, unmap⟩ S.maxLevel b (pt.tables t) s))
  have hpages := congrArg card hsplit.pages
  rw [card_add, card_add, card_pages, card_pages] at hpages
  rw [mapRoot_eq pt mpool (by omega)] at hmap
  cases hmap
  obtain ⟨hneed, herr⟩ := htables
  refine ⟨_, mapRoot_eq pt mpool (by omega), hsplit, fun ho => ?_, fun ho => ?_⟩
  · have hzero := (hsplit.covered ho).need_eq_zero (hsplit.splits.wf hwf)
    simp only [need, tableCount, MPool.count] at hzero hpages ⊢
    omega
  · obtain ⟨hcount, hpos⟩ := herr ho
    simp only [need, tableCount, MPool.count] at hcount hpages ⊢
    omega

/-- An update succeeds exactly if the pool holds the tables that it needs. -/
theorem identityUpdate_need_iff (hin : InSpace S (archMmClearPa begin) (S.updateEnd endAddr)) :
    (∃ pt' mpool', pt.identityUpdate aarch64 begin endAddr attrs ⟨false, unmap⟩ mpool =
        some (.ok, pt', mpool')) ↔
      pt.need (S.updateEnd endAddr) attrs unmap (archMmClearPa begin) ≤ mpool.count := by
  obtain ⟨⟨_ | _, mid, mpool₁⟩, hmap, hsplit, hok, herr⟩ :=
    mapRoot_spends hS hwf hpool hin attrs unmap
  · obtain ⟨⟨o, pt', mpool'⟩, hsecond, hres⟩ :=
      mapRoot_commitPass hS hin rfl (hsplit.covered rfl).commit mpool₁
    obtain rfl : o = .ok := hres.ok
    refine iff_of_true ⟨pt', mpool', ?_⟩ (Nat.le.intro ((Nat.add_comm _ _).trans (hok rfl)))
    simp only [identityUpdate, aarch64_clearPa, hmap]
    exact hsecond
  · refine iff_of_false ?_ (Nat.not_le.mpr (herr rfl))
    rintro ⟨pt', mpool', h⟩
    simp only [identityUpdate, aarch64_clearPa, hmap] at h
    cases h

end Update

end PageTable

end Hafnium
