import Hafnium.Mm.Mapping

/-!
# The two passes of a page table update

The first pass of `identity_update` only splits entries, and if it succeeds the
region is covered.  The second pass updates a covered region without
allocating.  Both are accounted for page by page: the pages of the tables and
the free pages of the pool add up to the same before and after, except for the
tables that a valid block replaces.
-/

namespace Hafnium

open Support Aarch64 MPool RawPageTable InEntry

namespace PageTableEntry

/-- The pages of the tables below an entry. -/
def tablePages : {level : Nat} → PageTableEntry level → Multiset Nat
  | _, leaf _ => 0
  | level + 1, table w es => {archMmTableFromPte w (level + 1)} + ∑ i, (es i).tablePages

variable {level : Nat}

@[simp] theorem tablePages_leaf (w : Pte) : (leaf w : PageTableEntry level).tablePages = 0 := by
  cases level <;> rfl

theorem tablePages_table (w : Pte) (es : RawPageTable level) :
    (table w es).tablePages = {archMmTableFromPte w (level + 1)} + ∑ i, (es i).tablePages := rfl

@[simp] theorem tablePages_absent : (absent aarch64 level).tablePages = 0 :=
  tablePages_leaf _

theorem tablePages_splitEntries (w : Pte) (i : Fin 512) :
    (splitEntries aarch64 level w i).tablePages = 0 := by
  obtain ⟨v, hv⟩ := splitEntries_eq_leaf aarch64 level w i
  rw [hv, tablePages_leaf]

/-- Dropping an entry gives the pages of its tables back to the pool. -/
theorem drop_spec (e : PageTableEntry level) (mpool : MPool) :
    (e.drop aarch64 mpool).pages = e.tablePages + mpool.pages ∧
      mpool.FreedTo (e.drop aarch64 mpool) := by
  induction e generalizing mpool with
  | leaf w => exact ⟨by simp, by rw [drop_leaf]; exact .refl mpool⟩
  | @table level w es ih =>
      obtain ⟨hpages, hfreed⟩ := foldl_give (fun i m => ih i m) (List.finRange 512) mpool
      simp only [drop, aarch64_tableFromPte]
      constructor
      · rw [pages_free, hpages, tablePages_table, Fin.sum_univ_def, add_assoc]
      · exact hfreed.trans (freedTo_free _ (isPa_tableFromPte _ _))

/-- Replacing an entry frees its tables, unless both values are valid. -/
theorem replace_pages (e new : PageTableEntry level) (mpool : MPool) :
    (e.replace aarch64 new mpool).2.pages =
      (if e.isValid aarch64 && new.isValid aarch64 then 0 else e.tablePages) + mpool.pages := by
  simp only [replace]
  split
  · simp [absent]
  · exact (drop_spec e mpool).1

theorem replace_freed (e new : PageTableEntry level) (mpool : MPool) :
    mpool.FreedTo (e.replace aarch64 new mpool).2 := by
  simp only [replace]
  exact (drop_spec _ mpool).2

end PageTableEntry

namespace RawPageTable

open PageTableEntry

/-- The pages of the tables that an update overwrites without freeing them:
break-before-make has cleared the entry when its old value is dropped. -/
def leaks (endAddr : Nat) (attrs : BitVec 64) (flags : Flags) :
    {level : Nat} → Nat → PageTableEntry level → Multiset Nat
  | _, _, .leaf _ => 0
  | level + 1, begin, .table w es =>
      if skips aarch64 attrs flags (.table w es) then 0
      else if coversEntry aarch64 endAddr flags (level + 1) begin then
        if (PageTableEntry.table w es).isValid aarch64 &&
            (newEntry aarch64 attrs flags (level + 1) begin).isValid aarch64 then
          (PageTableEntry.table w es).tablePages
        else 0
      else ((visits endAddr level begin).map fun p => leaks endAddr attrs flags p.2 (es p.1)).sum

variable {endAddr : Nat} {attrs : BitVec 64} {flags : Flags} {level : Nat}

@[simp] theorem leaks_leaf (begin : Nat) (w : Pte) :
    leaks endAddr attrs flags begin (.leaf w : PageTableEntry level) = 0 := by
  cases level <;> rfl

theorem leaks_splitEntries (begin : Nat) (w : Pte) (i : Fin 512) :
    leaks endAddr attrs flags begin (splitEntries aarch64 level w i) = 0 := by
  obtain ⟨v, hv⟩ := splitEntries_eq_leaf aarch64 level w i
  rw [hv, leaks_leaf]

/-- Below an entry that is not covered, what leaks is what leaks from the
visited entries. -/
theorem leaks_congr {begin : Nat} {w : Pte} {es es' : RawPageTable level}
    (hcovers : coversEntry aarch64 endAddr flags (level + 1) begin = false)
    (h : ∀ i b, (i, b) ∈ visits endAddr level begin →
      leaks endAddr attrs flags b (es' i) = leaks endAddr attrs flags b (es i)) :
    leaks endAddr attrs flags begin (.table w es') =
      leaks endAddr attrs flags begin (.table w es) := by
  have hskip : skips aarch64 attrs flags (.table w es') =
      skips aarch64 attrs flags (.table w es) := rfl
  have hlist : ((visits endAddr level begin).map fun p => leaks endAddr attrs flags p.2 (es' p.1)) =
      (visits endAddr level begin).map fun p => leaks endAddr attrs flags p.2 (es p.1) :=
    List.map_congr_left fun p hp => h p.1 p.2 hp
  simp only [leaks, hcovers, hskip, hlist, Bool.false_eq_true, if_false]

/-- Whether it is the second pass does not matter for what leaks. -/
theorem leaks_commit (unmap : Bool) (begin : Nat) (e : PageTableEntry level) :
    leaks endAddr attrs ⟨true, unmap⟩ begin e = leaks endAddr attrs ⟨false, unmap⟩ begin e := by
  induction e generalizing begin with
  | leaf w => rw [leaks_leaf, leaks_leaf]
  | table w es ih =>
      simp only [leaks, ih]
      rfl

/-! ## The first pass -/

/-- What the first pass does to an entry: `r` is its result on `e` and `mpool`. -/
structure SplitPass (endAddr : Nat) (attrs : BitVec 64) (flags : Flags) {level : Nat}
    (begin : Nat) (e : PageTableEntry level) (mpool : MPool)
    (r : Outcome × PageTableEntry level × MPool) : Prop where
  drawn : mpool.Drawn r.2.2
  splits : Splits e r.2.1
  pages : r.2.1.tablePages + r.2.2.pages = e.tablePages + mpool.pages
  covered : r.1 = .ok → Covered endAddr attrs flags begin r.2.1
  leaks : leaks endAddr attrs flags begin r.2.1 = leaks endAddr attrs flags begin e

theorem SplitPass.wf {begin : Nat} {e : PageTableEntry level} {mpool : MPool}
    {r : Outcome × PageTableEntry level × MPool}
    (h : SplitPass endAddr attrs flags begin e mpool r) : r.2.2.Wf := h.drawn.wf

theorem splitPass_refl {begin : Nat} {e : PageTableEntry level} {mpool : MPool} {o : Outcome}
    (hwf : mpool.Wf) (hcovered : o = .ok → Covered endAddr attrs flags begin e) :
    SplitPass endAddr attrs flags begin e mpool (o, e, mpool) :=
  ⟨.refl hwf, .refl e, rfl, hcovered, rfl⟩

/-- Splitting an entry and running the first pass on the table it became is a
first pass on the entry. -/
theorem splitPass_leaf {begin page : Nat} {w : Pte} {mpool mpool' : MPool}
    {r : Outcome × PageTableEntry (level + 1) × MPool} (hwf : mpool.Wf)
    (halloc : mpool.alloc = some (page, mpool'))
    (hcovers : coversEntry aarch64 endAddr flags (level + 1) begin = false)
    (h : SplitPass endAddr attrs flags begin
      (.table (archMmTablePte (level + 1) page) (splitEntries aarch64 level w)) mpool' r) :
    SplitPass endAddr attrs flags begin (.leaf w) mpool r := by
  have hpa := isPa_of_alloc hwf halloc
  refine ⟨(drawn_alloc hwf halloc).trans h.drawn, .of_split hpa h.splits, ?_, h.covered, ?_⟩
  · rw [h.pages, (alloc_spec hwf halloc).1, tablePages_table, tablePages_leaf,
      archMmTableFromPte_tablePte hpa, Finset.sum_eq_zero fun i _ => tablePages_splitEntries w i]
    abel
  · have hzero : ((visits endAddr level begin).map fun p =>
        leaks endAddr attrs flags p.2 (splitEntries aarch64 level w p.1)).sum = 0 := by
      simp [leaks_splitEntries]
    simp [h.leaks, leaks, hzero, hcovers]

/-- What the first pass does to the entries of a table. -/
structure SplitTable (endAddr : Nat) (attrs : BitVec 64) (flags : Flags) {level : Nat}
    (begin : Nat) (es : RawPageTable level) (mpool : MPool)
    (r : Outcome × RawPageTable level × MPool) : Prop where
  drawn : mpool.Drawn r.2.2
  splits : ∀ i, Splits (es i) (r.2.1 i)
  pages : ∑ i, (r.2.1 i).tablePages + r.2.2.pages = ∑ i, (es i).tablePages + mpool.pages
  covered : r.1 = .ok → ∀ i b, (i, b) ∈ visits endAddr level begin →
    Covered endAddr attrs flags b (r.2.1 i)
  leaks : ∀ i b, (i, b) ∈ visits endAddr level begin →
    leaks endAddr attrs flags b (r.2.1 i) = leaks endAddr attrs flags b (es i)

section Table

variable {base begin : Nat} {w : Pte} {es : RawPageTable level} {mpool : MPool}

theorem splitTable_of_entries (hin : InEntry (level + 1) base begin endAddr) (hwf : mpool.Wf)
    (ih : ∀ {base begin : Nat} {e : PageTableEntry level} {mpool : MPool},
      InEntry level base begin endAddr → mpool.Wf →
      SplitPass endAddr attrs flags begin e mpool
        (mapEntry aarch64 endAddr attrs flags level begin e mpool)) :
    SplitTable endAddr attrs flags begin es mpool
      (mapLevel aarch64 endAddr attrs flags level begin es mpool) := by
  have hspec := forEach_spec (f := mapEntry aarch64 endAddr attrs flags level) mpool.Drawn
    (fun _ b e o e' => Splits e e' ∧ (o = .ok → Covered endAddr attrs flags b e') ∧
      leaks endAddr attrs flags b e' = leaks endAddr attrs flags b e)
    (visits_nodup endAddr level begin) (.refl hwf) (t := es) (by
      intro i b hb s hs
      have := ih (e := es i) (hin.child hb) hs.wf
      exact ⟨hs.trans this.drawn, this.splits, this.covered, this.leaks⟩)
  have hpages := forEach_sum_eq (f := mapEntry aarch64 endAddr attrs flags level) MPool.Wf
    tablePages pages (visits_nodup endAddr level begin) hwf (t := es) (by
      intro i b hb s hs
      have := ih (e := es i) (hin.child hb) hs
      exact ⟨this.wf, this.pages⟩)
  rw [← mapLevel_eq] at hspec hpages
  obtain ⟨hdrawn, hok, hsome, hother⟩ := hspec
  refine ⟨hdrawn, ?_, hpages, fun ho i b hb => (hok ho i b hb).2.1 rfl, fun i b hb => ?_⟩
  · refine forall_cells hother (fun i _ => .refl _) fun i b hb => ?_
    rcases hsome i b hb with heq | ⟨o, hs, -⟩
    · rw [heq]; exact .refl _
    · exact hs
  · rcases hsome i b hb with heq | ⟨o, -, -, h⟩
    · rw [heq]
    · exact h

theorem splitPass_table (hcommit : flags.commit = false)
    (hcovers : coversEntry aarch64 endAddr flags (level + 1) begin = false)
    (h : SplitTable endAddr attrs flags begin es mpool
      (mapLevel aarch64 endAddr attrs flags level begin es mpool)) :
    SplitPass endAddr attrs flags begin (.table w es) mpool
      (mapSubtable aarch64 flags (mapLevel aarch64 endAddr attrs flags level) begin
        (.table w es) mpool) := by
  rcases hres : mapLevel aarch64 endAddr attrs flags level begin es mpool with ⟨o, es', mpool'⟩
  rw [hres] at h
  have htotal : (PageTableEntry.table w es').tablePages + mpool'.pages =
      (PageTableEntry.table w es).tablePages + mpool.pages := by
    rw [tablePages_table, tablePages_table, add_assoc, add_assoc]
    exact congrArg _ h.pages
  have hleaks := leaks_congr (w := w) hcovers h.leaks
  cases o with
  | err =>
      rw [mapSubtable_table_err hres]
      exact ⟨h.drawn, .table h.splits, htotal, by simp, hleaks⟩
  | ok =>
      rw [mapSubtable_table_ok hres (by simp [hcommit])]
      exact ⟨h.drawn, .table h.splits, htotal, fun _ => .table (h.covered rfl), hleaks⟩

end Table

/-- The first pass splits entries until the region is covered, or runs out of
memory. -/
theorem mapEntry_splitPass (hcommit : flags.commit = false) :
    ∀ (level : Nat) {base begin : Nat} {e : PageTableEntry level} {mpool : MPool},
      InEntry level base begin endAddr → mpool.Wf →
      SplitPass endAddr attrs flags begin e mpool
        (mapEntry aarch64 endAddr attrs flags level begin e mpool) := by
  intro level
  induction level with
  | zero =>
      intro base begin e mpool hin hwf
      have hcovers := hin.covers_zero aarch64 flags (by decide)
      cases hskip : skips aarch64 attrs flags e with
      | true =>
          rw [mapEntry_skip hskip]
          exact splitPass_refl hwf fun _ => .skip hskip
      | false =>
          rw [mapEntry_cover hskip hcovers hcommit]
          exact splitPass_refl hwf fun _ => .cover hcovers
  | succ level ih =>
      intro base begin e mpool hin hwf
      cases hskip : skips aarch64 attrs flags e with
      | true =>
          rw [mapEntry_skip hskip]
          exact splitPass_refl hwf fun _ => .skip hskip
      | false =>
          cases hcovers : coversEntry aarch64 endAddr flags (level + 1) begin with
          | true =>
              rw [mapEntry_cover hskip hcovers hcommit]
              exact splitPass_refl hwf fun _ => .cover hcovers
          | false =>
              rw [mapEntry_descend hskip hcovers]
              cases e with
              | table w es =>
                  exact splitPass_table hcommit hcovers (splitTable_of_entries hin hwf ih)
              | leaf w =>
                  cases halloc : mpool.alloc with
                  | none =>
                      rw [mapSubtable_leaf_none halloc]
                      exact splitPass_refl hwf (by simp)
                  | some p =>
                      obtain ⟨page, mpool'⟩ := p
                      rw [mapSubtable_leaf_some halloc]
                      exact splitPass_leaf hwf halloc hcovers
                        (splitPass_table hcommit hcovers
                          (splitTable_of_entries hin (alloc_spec hwf halloc).2 ih))

variable {e : PageTableEntry level} {begin : Nat}

theorem mapEntry_covered (hcommit : flags.commit = false)
    (hcovered : Covered endAddr attrs flags begin e) (mpool : MPool) :
    mapEntry aarch64 endAddr attrs flags level begin e mpool = (.ok, e, mpool) := by
  induction hcovered generalizing mpool with
  | skip hskip => exact mapEntry_skip hskip
  | @cover level begin e hcovers =>
      cases hskip : skips aarch64 attrs flags e with
      | true => exact mapEntry_skip hskip
      | false => exact mapEntry_cover hskip hcovers hcommit
  | @table level begin w es _ ih =>
      cases hskip : skips aarch64 attrs flags (.table w es) with
      | true => exact mapEntry_skip hskip
      | false =>
          cases hcovers : coversEntry aarch64 endAddr flags (level + 1) begin with
          | true => exact mapEntry_cover hskip hcovers hcommit
          | false =>
              have hbelow : mapLevel aarch64 endAddr attrs flags level begin es mpool =
                  (.ok, es, mpool) := by
                rw [mapLevel_eq]
                exact forEach_id fun i b hb => ih i b hb mpool
              rw [mapEntry_descend hskip hcovers, mapSubtable_table_ok hbelow (by simp [hcommit])]

/-! ## The second pass -/

/-- What the second pass does to a covered entry: `r` is its result. -/
structure CommitPass (endAddr : Nat) (attrs : BitVec 64) (flags : Flags) {level : Nat}
    (begin : Nat) (e : PageTableEntry level) (mpool : MPool)
    (r : Outcome × PageTableEntry level × MPool) : Prop where
  ok : r.1 = .ok
  updated : Updated endAddr attrs flags begin e r.2.1
  pages : r.2.1.tablePages + r.2.2.pages + leaks endAddr attrs flags begin e =
    e.tablePages + mpool.pages
  freed : mpool.FreedTo r.2.2

theorem commitPass_skip {mpool : MPool} (hskip : skips aarch64 attrs flags e = true) :
    CommitPass endAddr attrs flags begin e mpool (.ok, e, mpool) := by
  refine ⟨rfl, .skip hskip, ?_, .refl mpool⟩
  cases e with
  | leaf w => simp
  | table w es => simp [leaks, hskip]

/-- Setting an entry as a whole frees the tables below it, unless they leak. -/
theorem commitPass_cover {mpool : MPool} (hskip : skips aarch64 attrs flags e = false)
    (hcovers : coversEntry aarch64 endAddr flags level begin = true) :
    CommitPass endAddr attrs flags begin e mpool
      (.ok, newEntry aarch64 attrs flags level begin,
        (e.replace aarch64 (newEntry aarch64 attrs flags level begin) mpool).2) := by
  refine ⟨rfl, .cover hcovers, ?_, replace_freed _ _ mpool⟩
  have hnew : (newEntry aarch64 attrs flags level begin).tablePages = 0 := by
    rw [newEntry]
    split
    · exact tablePages_absent
    · exact tablePages_leaf _
  dsimp only
  rw [hnew, replace_pages]
  cases e with
  | leaf w => simp
  | table w es =>
      simp only [leaks, hskip, hcovers, Bool.false_eq_true, if_false, if_true]
      split <;> simp [add_comm]

/-- What the second pass does to the entries of a covered table. -/
structure CommitTable (endAddr : Nat) (attrs : BitVec 64) (flags : Flags) {level : Nat}
    (begin : Nat) (es : RawPageTable level) (mpool : MPool)
    (r : Outcome × RawPageTable level × MPool) : Prop where
  ok : r.1 = .ok
  visited : ∀ i b, (i, b) ∈ visits endAddr level begin →
    Updated endAddr attrs flags b (es i) (r.2.1 i)
  other : ∀ i, i ∉ (visits endAddr level begin).map Prod.fst → r.2.1 i = es i
  pages : ∑ i, (r.2.1 i).tablePages + r.2.2.pages +
      ((visits endAddr level begin).map fun p => leaks endAddr attrs flags p.2 (es p.1)).sum =
    ∑ i, (es i).tablePages + mpool.pages
  freed : mpool.FreedTo r.2.2

theorem commitTable_of_entries {es : RawPageTable level}
    (ih : ∀ i b, (i, b) ∈ visits endAddr level begin → ∀ mpool,
      CommitPass endAddr attrs flags b (es i) mpool
        (mapEntry aarch64 endAddr attrs flags level b (es i) mpool)) (mpool : MPool) :
    CommitTable endAddr attrs flags begin es mpool
      (mapLevel aarch64 endAddr attrs flags level begin es mpool) := by
  have hspec := forEach_spec (f := mapEntry aarch64 endAddr attrs flags level) mpool.FreedTo
    (fun _ b e o e' => o = .ok → Updated endAddr attrs flags b e e')
    (visits_nodup endAddr level begin) (t := es) (.refl mpool) (by
      intro i b hb s hs
      have := ih i b hb s
      exact ⟨hs.trans this.freed, fun _ => this.updated⟩)
  obtain ⟨hok, hpages⟩ := forEach_sum_lost (f := mapEntry aarch64 endAddr attrs flags level)
    (fun _ => True) tablePages pages (leaks endAddr attrs flags)
    (visits_nodup endAddr level begin) (t := es) (s := mpool) trivial (by
      intro i b hb s _
      have := ih i b hb s
      exact ⟨trivial, this.ok, this.pages⟩)
  rw [← mapLevel_eq] at hspec hok hpages
  obtain ⟨hfreed, hvisited, -, hother⟩ := hspec
  exact ⟨hok, fun i b hb => hvisited hok i b hb rfl, hother, hpages, hfreed⟩

/-- The second pass on a table entry; a table that it empties is freed. -/
theorem commitPass_table {w : Pte} {es : RawPageTable level} {mpool : MPool}
    (hskip : skips aarch64 attrs flags (.table w es) = false)
    (hcovers : coversEntry aarch64 endAddr flags (level + 1) begin = false)
    (h : CommitTable endAddr attrs flags begin es mpool
      (mapLevel aarch64 endAddr attrs flags level begin es mpool)) :
    CommitPass endAddr attrs flags begin (.table w es) mpool
      (mapSubtable aarch64 flags (mapLevel aarch64 endAddr attrs flags level) begin
        (.table w es) mpool) := by
  rcases hres : mapLevel aarch64 endAddr attrs flags level begin es mpool with ⟨o, es', mpool'⟩
  rw [hres] at h
  obtain ⟨hok, hvisited, hother, hpages, hfreed⟩ := h
  dsimp only at hok hvisited hother hpages hfreed
  subst hok
  have htotal : (PageTableEntry.table w es').tablePages + mpool'.pages +
      leaks endAddr attrs flags begin (.table w es) =
        (PageTableEntry.table w es).tablePages + mpool.pages := by
    rw [tablePages_table, tablePages_table, add_assoc _ _ mpool.pages, ← hpages]
    simp only [leaks, hskip, hcovers, Bool.false_eq_true, if_false]
    abel
  cases hempty : flags.commit && flags.unmap && isEmpty aarch64 es' with
  | false =>
      rw [mapSubtable_table_ok hres hempty]
      exact ⟨rfl, .table hvisited hother, htotal, hfreed⟩
  | true =>
      rw [mapSubtable_table_empty hres hempty]
      simp only [Bool.and_eq_true] at hempty
      have hinvalid : (absent aarch64 (level + 1)).isValid aarch64 = false := by
        simp [isValid, absent, archMmPteIsValid, archMmAbsentPte]
      refine ⟨rfl, .emptied hvisited hother hempty.1.2 (isEmpty_iff.mp hempty.2), ?_,
        hfreed.trans (replace_freed _ _ _)⟩
      dsimp only
      rw [replace_pages, hinvalid, Bool.and_false, if_neg Bool.false_ne_true, tablePages_absent,
        zero_add]
      exact htotal

/-- The second pass updates a covered region, without allocating. -/
theorem mapEntry_commitPass (hcommit : flags.commit = true)
    (hcovered : Covered endAddr attrs flags begin e) (mpool : MPool) :
    CommitPass endAddr attrs flags begin e mpool
      (mapEntry aarch64 endAddr attrs flags level begin e mpool) := by
  induction hcovered generalizing mpool with
  | skip hskip =>
      rw [mapEntry_skip hskip]
      exact commitPass_skip hskip
  | @cover level begin e hcovers =>
      cases hskip : skips aarch64 attrs flags e with
      | true =>
          rw [mapEntry_skip hskip]
          exact commitPass_skip hskip
      | false =>
          rw [mapEntry_cover_commit hskip hcovers hcommit]
          exact commitPass_cover hskip hcovers
  | @table level begin w es _ ih =>
      cases hskip : skips aarch64 attrs flags (.table w es) with
      | true =>
          rw [mapEntry_skip hskip]
          exact commitPass_skip hskip
      | false =>
          cases hcovers : coversEntry aarch64 endAddr flags (level + 1) begin with
          | true =>
              rw [mapEntry_cover_commit hskip hcovers hcommit]
              exact commitPass_cover hskip hcovers
          | false =>
              rw [mapEntry_descend hskip hcovers]
              exact commitPass_table hskip hcovers (commitTable_of_entries ih mpool)

end RawPageTable
end Hafnium
