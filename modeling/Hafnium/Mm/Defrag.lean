import Hafnium.Mm.Budget

/-!
# Defragmentation

`defrag` merges tables whose entries agree into one entry and frees them.  It
changes the meaning of no page and every page it frees goes to the pool.  A
later update may need the tables again that were merged away, but never more
than were freed.
-/

namespace Hafnium

open Support Aarch64 List

/-- The attribute bits of a table descriptor. -/
def Aarch64.tableAttrMask : BitVec 64 :=
  tableNstable ||| tableAptable1 ||| tableAptable0 ||| tableXntable ||| tablePxntable

/-- A table descriptor without attributes leaves those of the block alone. -/
theorem Aarch64.archMmCombineTableEntryAttrs_plain {w : Pte} (hw : w &&& tableAttrMask = 0#64)
    (level : Nat) (attrs : BitVec 64) :
    archMmCombineTableEntryAttrs (archMmPteAttrs w level) attrs = attrs := by
  have hbit : ∀ m : BitVec 64, tableAttrMask &&& m = m → pteAttrMask &&& m = m →
      archMmPteAttrs w level &&& m = 0#64 := by
    intro m h1 h2
    rw [archMmPteAttrs, BitVec.and_assoc, h2, ← h1, ← BitVec.and_assoc, hw, BitVec.zero_and]
  simp only [archMmCombineTableEntryAttrs, hbit tableNstable (by decide) (by decide),
    hbit tableAptable1 (by decide) (by decide), hbit tableAptable0 (by decide) (by decide),
    hbit tableXntable (by decide) (by decide), hbit tablePxntable (by decide) (by decide),
    ne_eq, not_true, if_false]

theorem Aarch64.archMmTablePte_plain {pa : Nat} (hpa : IsPa pa) (level : Nat) :
    archMmTablePte level pa &&& tableAttrMask = 0#64 := by
  have h : BitVec.ofNat 64 pa &&& tableAttrMask = 0#64 := hpa.and_eq_zero (by decide)
  simp only [archMmTablePte, BitVec.and_or_distrib_right, h]
  decide

/-- If the combined result is a value, every item was that value. -/
theorem reduceAttrs_eq_some {l : List (Option (BitVec 64))} {a : BitVec 64}
    (h : (reduceAttrs l).join = some a) : ∀ x ∈ l, x = some a := by
  cases l with
  | nil => simp [reduceAttrs] at h
  | cons x xs =>
    simp only [reduceAttrs, Option.join_some] at h
    -- the accumulator of the fold only ever stays or becomes `none`
    have hfold : ∀ (xs : List (Option (BitVec 64))) (acc : Option (BitVec 64)),
        xs.foldl (fun l r => if l = r then l else none) acc = some a →
          acc = some a ∧ ∀ x ∈ xs, x = some a := by
      intro xs
      induction xs with
      | nil => simp
      | cons y ys ih =>
        intro acc hacc
        rw [foldl_cons] at hacc
        obtain ⟨hy, hys⟩ := ih _ hacc
        split at hy
        · rename_i heq
          subst heq
          exact ⟨hy, by simpa [hy] using hys⟩
        · simp at hy
    obtain ⟨hx, hxs⟩ := hfold xs x h
    simpa [hx] using hxs

namespace PageTableEntry

open RawPageTable

/-- No table descriptor carries attributes of its own. -/
def Plain : {level : Nat} → PageTableEntry level → Prop
  | _, leaf _ => True
  | _ + 1, table w es => w &&& tableAttrMask = 0#64 ∧ ∀ i, (es i).Plain

variable {level : Nat}

theorem plain_leaf (w : Pte) : (leaf w : PageTableEntry level).Plain := by
  cases level <;> trivial

instance decidablePlain : {level : Nat} → (e : PageTableEntry level) → Decidable e.Plain
  | _, leaf w => isTrue (plain_leaf w)
  | _ + 1, table w es =>
    have := fun i : Fin 512 => decidablePlain (es i)
    inferInstanceAs (Decidable (w &&& tableAttrMask = 0#64 ∧ ∀ i : Fin 512, (es i).Plain))

theorem plain_splitEntries (w : Pte) (i : Fin 512) : (splitEntries aarch64 level w i).Plain := by
  obtain ⟨v, hv⟩ := splitEntries_eq_leaf aarch64 level w i
  rw [hv]
  exact plain_leaf v

theorem Splits.plain {e e' : PageTableEntry level} (h : Splits e e') (hp : e.Plain) : e'.Plain := by
  induction h with
  | refl => exact hp
  | table _ ih => exact ⟨hp.1, fun i => ih i (hp.2 i)⟩
  | split hpage _ ih =>
    exact ⟨archMmTablePte_plain hpage _, fun i => ih i (plain_splitEntries _ i)⟩

theorem Updated.plain {endAddr begin : Nat} {attrs : BitVec 64} {flags : Flags}
    {e e' : PageTableEntry level} (h : Updated endAddr attrs flags begin e e') (hp : e.Plain) :
    e'.Plain := by
  induction h with
  | skip => exact hp
  | cover =>
    rw [newEntry]
    split <;> exact plain_leaf _
  | table _ hother ih =>
    exact ⟨hp.1, forall_cells hother (fun i _ => hp.2 i) fun i b hb => ih i b hb (hp.2 i)⟩
  | emptied => exact plain_leaf _

/-- What `defrag` makes of an entry: `r` is what it returns, `e'` the new entry. -/
structure Defragged (strict : Bool) (base : Nat) (e : PageTableEntry level)
    (r : Option (BitVec 64)) (e' : PageTableEntry level) : Prop where
  wf : e'.Wf strict base
  plain : e'.Plain
  view : ∀ a, (e'.lookup a).view = (e.lookup a).view
  merged : ∀ attrs, r = some attrs → ∃ w, e' = .leaf w ∧ archMmPteAttrs w level = attrs
  card_le : e'.tablePages.card ≤ e.tablePages.card
  need_le : ∀ endAddr attrs unmap begin, need endAddr attrs unmap begin e' + e'.tablePages.card ≤
      need endAddr attrs unmap begin e + e.tablePages.card

variable {strict : Bool} {base : Nat}

theorem defragged_leaf {w : Pte} (hwf : (leaf w : PageTableEntry level).Wf strict base) :
    Defragged strict base (leaf w : PageTableEntry level)
      (if archMmPteIsBlock w level then some (archMmPteAttrs w level) else none) (leaf w) := by
  refine ⟨hwf, plain_leaf w, fun _ => rfl, fun attrs h => ⟨w, rfl, ?_⟩, le_rfl,
    fun _ _ _ _ => le_rfl⟩
  split at h
  · exact Option.some.inj h
  · simp at h

section Table

variable {w : Pte} {es es' : RawPageTable level} {v : Fin 512 → Option (BitVec 64)}

theorem card_tablePages_table (w : Pte) (es : RawPageTable level) :
    (table w es).tablePages.card = 1 + ∑ i, (es i).tablePages.card := by
  rw [tablePages_table, Multiset.card_add, Multiset.card_singleton, Multiset.card_sum]

/-- The tables needed in the visited entries are paid for by those freed in all
entries. -/
theorem sum_need_le (h : ∀ i : Fin 512,
      Defragged strict (slotBase base (entrySize level) i) (es i) (v i) (es' i))
    (endAddr : Nat) (attrs : BitVec 64) (unmap : Bool) (begin : Nat) :
    ((visits endAddr level begin).map fun p =>
        need endAddr attrs unmap p.2 (es' p.1)).sum + ∑ i, (es' i).tablePages.card ≤
      ((visits endAddr level begin).map fun p =>
        need endAddr attrs unmap p.2 (es p.1)).sum + ∑ i, (es i).tablePages.card :=
  sum_visits_le (InEntry.visits_nodup endAddr level begin) (fun i => (h i).card_le)
    fun p _ => (h p.1).need_le endAddr attrs unmap p.2

theorem defragged_table (hwf : (table w es).Wf strict base) (hplain : (table w es).Plain)
    (h : ∀ i : Fin 512, Defragged strict (slotBase base (entrySize level) i) (es i) (v i) (es' i)) :
    Defragged strict base (table w es) none (table w es') := by
  have hcard : (table w es').tablePages.card ≤ (table w es).tablePages.card := by
    rw [card_tablePages_table, card_tablePages_table]
    exact Nat.add_le_add_left (Finset.sum_le_sum fun i _ => (h i).card_le) 1
  refine ⟨⟨hwf.1, fun i => (h i).wf⟩, ⟨hplain.1, fun i => (h i).plain⟩,
    fun a => (h _).view a, by simp, hcard, fun endAddr attrs unmap begin => ?_⟩
  rw [need, need]
  split
  · omega
  · have := sum_need_le h endAddr attrs unmap begin
    rw [card_tablePages_table, card_tablePages_table]
    omega

variable {attrs : BitVec 64}
  (h : ∀ i : Fin 512, Defragged strict (slotBase base (entrySize level) i) (es i) (v i) (es' i))
  (hv : ∀ i, v i = some attrs)
include h hv

/-- When all entries report the same attributes, every page below has them. -/
theorem view_of_merged (a : Nat) : ((table w es).lookup a).view = (Leaf.mk level attrs).view := by
  obtain ⟨w', he, hattrs⟩ := (h ⟨index a level, index_lt a level⟩).merged attrs (hv _)
  rw [lookup_table, ← (h _).view a, he, lookup_leaf]
  refine Leaf.view_congr ?_
  rw [Leaf.attrs, Leaf.attrs, hattrs, ← hattrs]
  exact (attrsOk_pteAttrs w' level).symm

theorem tablePages_of_merged : ∑ i, (es' i).tablePages = 0 := by
  refine Finset.sum_eq_zero fun i _ => ?_
  obtain ⟨w', he, -⟩ := (h i).merged attrs (hv i)
  rw [he, tablePages_leaf]

/-- The table that was merged away pays for splitting the merged entry again. -/
theorem need_merged_le {w' : Pte} (hview : Leaf.view ⟨level + 1, w'⟩ = (Leaf.mk level attrs).view)
    (endAddr : Nat) (attrs' : BitVec 64) (unmap : Bool) (begin : Nat) :
    need endAddr attrs' unmap begin (leaf w' : PageTableEntry (level + 1)) ≤
      need endAddr attrs' unmap begin (table w es) + (table w es).tablePages.card := by
  have hchild : ∀ (i : Fin 512) b, need endAddr attrs' unmap b (es' i) =
      needLeaf endAddr attrs' unmap (Leaf.view ⟨level + 1, w'⟩) level b := by
    intro i b
    obtain ⟨w'', he, hattrs⟩ := (h i).merged attrs (hv i)
    rw [he, need_leaf, hview]
    refine congrArg (needLeaf _ _ _ · _ _) (Leaf.view_congr ?_)
    rw [Leaf.attrs, Leaf.attrs, hattrs, ← hattrs]
    exact (attrsOk_pteAttrs w'' level).symm
  have hsum := sum_need_le h endAddr attrs' unmap begin
  simp only [hchild] at hsum
  rw [need_leaf, needLeaf, need, card_tablePages_table]
  cases coversEntry aarch64 endAddr ⟨false, unmap⟩ (level + 1) begin with
  | true =>
    rw [Bool.or_true, if_pos rfl]
    exact Nat.zero_le _
  | false =>
    rw [if_neg Bool.false_ne_true]
    split <;> omega

theorem defragged_absent (hpresent : archMmPteIsPresent attrs level = false) :
    Defragged strict base (table w es) (some ((absent aarch64 (level + 1)).attrs aarch64))
      (absent aarch64 (level + 1)) := by
  have hview : Leaf.view ⟨level + 1, archMmAbsentPte (level + 1)⟩ = (Leaf.mk level attrs).view := by
    rw [Leaf.view_of_not_present hpresent]
    exact Leaf.view_of_not_present (archMmPteIsPresent_absent _)
  refine ⟨wf_absent, plain_leaf _, fun a => ?_, ?_, ?_, fun endAddr attrs' unmap begin => ?_⟩
  · rw [view_of_merged h hv, absent, lookup_leaf]
    exact hview
  · rintro _ ⟨⟩
    exact ⟨_, rfl, rfl⟩
  · rw [tablePages_absent]
    exact Nat.zero_le _
  · rw [tablePages_absent]
    exact need_merged_le h hv hview endAddr attrs' unmap begin

theorem defragged_block (hpresent : archMmPteIsPresent attrs level = true)
    (hallowed : archMmIsBlockAllowed (level + 1) = true) :
    Defragged strict base (table w es) (some attrs)
      (block aarch64 (level + 1) (archMmBlockFromPte (es' 0).inner level) attrs) := by
  obtain ⟨w', he, hattrs⟩ := (h 0).merged attrs (hv 0)
  have hbase : archMmBlockFromPte (es' 0).inner level = base := by
    have hwf := (h 0).wf
    rw [he] at hwf ⊢
    have hp : archMmPteIsPresent w' level = true := by
      rw [← archMmPteIsPresent_pteAttrs w' level, hattrs, hpresent]
    have := (wf_leaf.mp hwf).2.2 (Or.inl hp)
    simpa [slotBase] using this
  have hpa : IsPa base := hbase ▸ isPa_tableFromPte (es' 0).inner level
  have hok : AttrsOk attrs := hattrs ▸ attrsOk_pteAttrs w' level
  rw [hbase]
  have hnew : archMmPteAttrs (archMmBlockPte (level + 1) base attrs) (level + 1) = attrs :=
    archMmPteAttrs_blockPte hpa hok _ _
  have hview : Leaf.view ⟨level + 1, archMmBlockPte (level + 1) base attrs⟩ =
      (Leaf.mk level attrs).view := Leaf.view_congr (hnew.trans hok.symm)
  refine ⟨wf_block hpa hok hallowed, plain_leaf _, fun a => ?_, ?_, ?_,
    fun endAddr attrs' unmap begin => ?_⟩
  · rw [view_of_merged h hv, block, lookup_leaf]
    exact hview
  · rintro _ ⟨⟩
    exact ⟨_, rfl, hnew⟩
  · rw [block, tablePages_leaf]
    exact Nat.zero_le _
  · rw [block, tablePages_leaf]
    exact need_merged_le h hv hview endAddr attrs' unmap begin

end Table

theorem defrag_leaf (w : Pte) (mpool : MPool) :
    (leaf w : PageTableEntry level).defrag aarch64 mpool =
      (if archMmPteIsBlock w level then some (archMmPteAttrs w level) else none,
        leaf w, mpool) := by
  have heq : (leaf w : PageTableEntry level).defrag aarch64 mpool =
      if archMmPteIsBlock w level then (some (archMmPteAttrs w level), leaf w, mpool)
      else (none, leaf w, mpool) := by
    cases level <;> rfl
  rw [heq]
  split <;> rfl

theorem defrag_table {w : Pte} (hw : archMmPteIsTable w (level + 1) = true)
    (es : RawPageTable level) (mpool : MPool) :
    (table w es).defrag aarch64 mpool =
      mergeTable aarch64 w (mapAll (fun pte mpool => pte.defrag aarch64 mpool) (finRange 512)
        es mpool) := by
  have heq : (table w es).defrag aarch64 mpool =
      if archMmPteIsBlock w (level + 1) then
        (some (archMmPteAttrs w (level + 1)), table w es, mpool)
      else mergeTable aarch64 w (mapAll (fun pte mpool => pte.defrag aarch64 mpool)
        (finRange 512)
        es mpool) := rfl
  rw [heq, archMmPteIsBlock_of_isTable hw, if_neg Bool.false_ne_true]

/-- What defragmenting all entries of a table does: `r` is what it returns for
them, the new entries, and the pool. -/
structure DefraggedTable (strict : Bool) (base : Nat) (es : RawPageTable level) (mpool : MPool)
    (r : List (Option (BitVec 64)) × RawPageTable level × MPool) : Prop where
  cells : ∃ v : Fin 512 → Option (BitVec 64),
    (∀ attrs, (reduceAttrs r.1).join = some attrs → ∀ i, v i = some attrs) ∧
    ∀ i : Fin 512, Defragged strict (slotBase base (entrySize level) i) (es i) (v i) (r.2.1 i)
  pages : ∑ i, (r.2.1 i).tablePages + r.2.2.pages = ∑ i, (es i).tablePages + mpool.pages
  freed : MPool.FreedTo mpool r.2.2

/-- A result of `defrag` on an entry. -/
def DefragOk (strict : Bool) (base : Nat) (e : PageTableEntry level) (mpool : MPool) : Prop :=
  Defragged strict base e (e.defrag aarch64 mpool).1 (e.defrag aarch64 mpool).2.1 ∧
    (e.defrag aarch64 mpool).2.1.tablePages + (e.defrag aarch64 mpool).2.2.pages =
      e.tablePages + mpool.pages ∧
    MPool.FreedTo mpool (e.defrag aarch64 mpool).2.2

theorem defraggedTable_of_entries {es : RawPageTable level}
    (h : ∀ (i : Fin 512) mpool, DefragOk strict (slotBase base (entrySize level) i) (es i) mpool)
    (mpool : MPool) :
    DefraggedTable strict base es mpool
      (mapAll (fun pte mpool => pte.defrag aarch64 mpool) (finRange 512) es mpool) := by
  have hnodup := nodup_finRange 512
  have hmem : ∀ i, i ∈ finRange 512 := mem_finRange
  generalize finRange 512 = l at hnodup hmem ⊢
  obtain ⟨hpool, ⟨v, hv, hcells⟩, -⟩ := mapAll_spec
    (f := fun pte mpool => defrag aarch64 pte mpool) (MPool.FreedTo mpool)
    (fun (i : Fin 512) e r e' => Defragged strict (slotBase base (entrySize level) i) e r e')
    hnodup (t := es) (s := mpool) (.refl mpool)
    (fun i _ s hs => ⟨hs.trans (h i s).2.2, (h i s).1⟩)
  refine ⟨⟨v, fun attrs hattrs i => ?_, fun i => hcells i (hmem i)⟩,
    mapAll_sum_eq tablePages MPool.pages hnodup (fun i _ s => (h i s).2.1) mpool, hpool⟩
  rw [hv] at hattrs
  exact reduceAttrs_eq_some hattrs _ (mem_map_of_mem (hmem i))

theorem mergeTable_spec {w : Pte} {es : RawPageTable level} {mpool : MPool}
    {r : List (Option (BitVec 64)) × RawPageTable level × MPool}
    (hwf : (table w es).Wf strict base) (hplain : (table w es).Plain)
    (hr : DefraggedTable strict base es mpool r) :
    Defragged strict base (table w es) (mergeTable aarch64 w r).1 (mergeTable aarch64 w r).2.1 ∧
      (mergeTable aarch64 w r).2.1.tablePages + (mergeTable aarch64 w r).2.2.pages =
        (table w es).tablePages + mpool.pages ∧
      MPool.FreedTo mpool (mergeTable aarch64 w r).2.2 := by
  obtain ⟨rs, es', mpool'⟩ := r
  obtain ⟨⟨v, hv, h⟩, hpages, hpool⟩ := hr
  dsimp only at hv h hpages hpool
  have hkept : (table w es').tablePages + mpool'.pages = (table w es).tablePages + mpool.pages := by
    rw [tablePages_table, tablePages_table, add_assoc, add_assoc, hpages]
  have hfreed : ∀ attrs, (reduceAttrs rs).join = some attrs →
      (mpool'.free (archMmTableFromPte w (level + 1))).pages =
        (table w es).tablePages + mpool.pages := by
    intro attrs hattrs
    rw [← hkept, MPool.pages_free, tablePages_table, tablePages_of_merged h (hv attrs hattrs),
      add_zero]
  have hfreedTo : MPool.FreedTo mpool (mpool'.free (archMmTableFromPte w (level + 1))) :=
    hpool.trans (MPool.freedTo_free mpool' (isPa_tableFromPte _ _))
  simp only [mergeTable, aarch64_pteIsPresent, aarch64_isBlockAllowed, aarch64_tableFromPte,
    aarch64_blockFromPte, aarch64_pteAttrs, aarch64_combineTableEntryAttrs]
  cases hjoin : (reduceAttrs rs).join with
  | none => exact ⟨defragged_table hwf hplain h, hkept, hpool⟩
  | some attrs =>
    dsimp only
    rw [archMmCombineTableEntryAttrs_plain hplain.1]
    cases hpresent : archMmPteIsPresent attrs level with
    | false =>
      refine ⟨defragged_absent h (hv attrs hjoin) hpresent, ?_, hfreedTo⟩
      simpa using hfreed attrs hjoin
    | true =>
      cases hallowed : archMmIsBlockAllowed (level + 1) with
      | false => exact ⟨defragged_table hwf hplain h, hkept, hpool⟩
      | true =>
        refine ⟨defragged_block h (hv attrs hjoin) hpresent hallowed, ?_, hfreedTo⟩
        simpa [block] using hfreed attrs hjoin

/-- Defragmentation keeps the meaning of an entry and frees what it merges. -/
theorem defrag_spec {e : PageTableEntry level} (hwf : e.Wf strict base) (hplain : e.Plain)
    (mpool : MPool) : DefragOk strict base e mpool := by
  induction e generalizing base mpool with
  | leaf w =>
    rw [DefragOk, defrag_leaf]
    exact ⟨defragged_leaf hwf, rfl, .refl mpool⟩
  | table w es ih =>
    rw [DefragOk, defrag_table hwf.1]
    exact mergeTable_spec hwf hplain
      (defraggedTable_of_entries (fun i => ih i (hwf.2 i) (hplain.2 i)) mpool)

end PageTableEntry

namespace PageTable

variable {S : Stage} {strict : Bool}

/-- No table descriptor carries attributes of its own. -/
def Plain (pt : PageTable S) : Prop := ∀ t i, (pt.tables t i).Plain

instance (pt : PageTable S) : Decidable pt.Plain :=
  inferInstanceAs (Decidable (∀ t (i : Fin 512), (pt.tables t i).Plain))

theorem Splits.plain {pt pt' : PageTable S} (h : pt.Splits pt') (hp : pt.Plain) : pt'.Plain :=
  fun t i => (h.2 t i).plain (hp t i)

theorem Updated.plain {endAddr begin : Nat} {attrs : BitVec 64} {flags : Flags}
    {pt pt' : PageTable S} (h : Updated endAddr attrs flags begin pt pt') (hp : pt.Plain) :
    pt'.Plain := by
  intro t
  by_cases ht : t ∈ (visits S endAddr begin).map Prod.fst
  · obtain ⟨⟨t, b⟩, hb, rfl⟩ := mem_map.mp ht
    have hentry : (pt.entry t).Plain :=
      ⟨archMmTablePte_plain ⟨rfl, by decide⟩ _, hp t⟩
    exact ((h.visited t b hb).plain hentry).2
  · rw [h.other t ht]
    exact hp t

/-- A page table that the operations can work with. -/
structure Regular (strict : Bool) (pt : PageTable S) : Prop where
  fits : S.Fits
  wf : pt.Wf strict
  plain : pt.Plain

theorem regular_emptyTable (strict : Bool) : emptyTable.Regular strict :=
  ⟨fits_exampleStage, wf_emptyTable strict, fun _ _ => PageTableEntry.plain_leaf _⟩

theorem Regular.identityUpdate {pt pt' : PageTable S} (hpt : pt.Regular strict)
    {mpool mpool' : MPool} (hwf : mpool.Wf) {begin endAddr : Nat} {attrs : BitVec 64}
    {unmap : Bool} (hattrs : AttrsOk attrs) {o : Outcome}
    (h : pt.identityUpdate aarch64 begin endAddr attrs ⟨false, unmap⟩ mpool =
      some (o, pt', mpool')) : pt'.Regular strict ∧ mpool'.Wf := by
  have hS := hpt.fits.toValid
  have hbound : S.updateEnd endAddr ≤ 2 ^ 48 :=
    (Nat.min_le_right _ _).trans hpt.fits.ptableAddrSpaceEnd_le_field
  rcases identityUpdate_cases hS hwf h with ⟨hin, hspec⟩ | ⟨-, -, rfl, rfl⟩
  · cases o with
    | err =>
      obtain ⟨hsplits, -⟩ := hspec.err rfl
      exact ⟨⟨hpt.fits, hsplits.wf hpt.wf, hsplits.plain hpt.plain⟩, hspec.wf⟩
    | ok =>
      obtain ⟨⟨mid, hsplits, -, hupd⟩, -⟩ := hspec.ok rfl
      exact ⟨⟨hpt.fits, hspec.wf_table hS hin rfl hpt.wf (fun _ => hbound) hattrs,
        hupd.plain (hsplits.plain hpt.plain)⟩, hspec.wf⟩
  · exact ⟨hpt, hwf⟩

/-- Defragmentation keeps the meaning of a page table and conserves pages. -/
structure Defragged (strict : Bool) (pt : PageTable S) (mpool : MPool)
    (r : PageTable S × MPool) : Prop where
  wf : r.1.Wf strict
  plain : r.1.Plain
  root : r.1.root = pt.root
  view : ∀ a, r.1.view a = pt.view a
  pages : r.1.pages + r.2.pages = pt.pages + mpool.pages
  freed : MPool.FreedTo mpool r.2
  need_le : ∀ endAddr attrs unmap begin, r.1.need endAddr attrs unmap begin + r.1.pages.card ≤
      pt.need endAddr attrs unmap begin + pt.pages.card

theorem defrag_spec {pt : PageTable S} (hwf : pt.Wf strict) (hplain : pt.Plain) (mpool : MPool) :
    Defragged strict pt mpool (pt.defrag aarch64 mpool) := by
  have htable : ∀ (t : Fin S.rootTableCount) (s : MPool),
      PageTableEntry.DefraggedTable strict (S.rootBase t) (pt.tables t) s
        (mapAll (fun pte mpool => PageTableEntry.defrag aarch64 pte mpool) (finRange 512)
          (pt.tables t) s) := fun t s =>
    PageTableEntry.defraggedTable_of_entries
      (fun i => PageTableEntry.defrag_spec (hwf t i) (hplain t i)) s
  simp only [defrag]
  generalize finRange 512 = l at htable ⊢
  obtain ⟨hpool, ⟨-, -, hcells⟩, -⟩ := mapAll_spec
    (f := fun (table : RawPageTable S.maxLevel) mpool =>
      mapAll (fun pte mpool => PageTableEntry.defrag aarch64 pte mpool) l table mpool)
    (MPool.FreedTo mpool)
    (fun (t : Fin S.rootTableCount) es _ es' => ∀ i : Fin 512, ∃ r, PageTableEntry.Defragged strict
        (slotBase (S.rootBase t) (entrySize S.maxLevel) i) (es i) r (es' i))
    (nodup_finRange S.rootTableCount) (t := pt.tables) (s := mpool) (.refl mpool)
    (fun t _ s hs => ⟨hs.trans (htable t s).freed, fun i => by
      obtain ⟨v, -, hv⟩ := (htable t s).cells
      exact ⟨v i, hv i⟩⟩)
  have hpages := mapAll_sum_eq
    (f := fun (table : RawPageTable S.maxLevel) mpool =>
      mapAll (fun pte mpool => PageTableEntry.defrag aarch64 pte mpool) l table mpool)
    (fun es => ∑ i, (es i).tablePages) MPool.pages (nodup_finRange S.rootTableCount)
    (t := pt.tables) (fun t _ s => (htable t s).pages) mpool
  refine ⟨fun t i => ?_, fun t i => ?_, rfl, fun a => ?_, ?_, hpool,
    fun endAddr attrs unmap begin => ?_⟩
  · obtain ⟨r, hr⟩ := hcells t (mem_finRange t) i
    exact hr.wf
  · obtain ⟨r, hr⟩ := hcells t (mem_finRange t) i
    exact hr.plain
  · by_cases ht : a / entrySize S.rootLevel < S.rootTableCount
    · rw [view_eq _ ht, view_eq _ ht]
      obtain ⟨r, hr⟩ :=
        hcells ⟨_, ht⟩ (mem_finRange _) ⟨index a S.maxLevel, S.rootIndex_lt a⟩
      exact hr.view a
    · rw [view_eq_none _ ht, view_eq_none _ ht]
  · simp only [pages]
    rw [add_assoc, add_assoc]
    exact congrArg _ hpages
  · have hcell := fun t (i : Fin 512) => hcells t (mem_finRange t) i
    choose v hv using hcell
    have := sum_visits_le (InSpace.visits_nodup S endAddr begin)
      (fun t => Finset.sum_le_sum fun i _ => (hv t i).card_le)
      fun p _ => PageTableEntry.sum_need_le (hv p.1) endAddr attrs unmap p.2
    rw [need, need, card_pages, card_pages, Nat.add_left_comm, Nat.add_left_comm _ S.rootTableCount]
    exact Nat.add_le_add_left this _

end PageTable
end Hafnium
