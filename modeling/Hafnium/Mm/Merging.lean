import Hafnium.Mm.Defrag

/-!
# What defragmentation returns

`defrag` threads the page pool through all tables, but neither what it returns nor
the new entries depend on it.  `defragResult` is that part of it, on any
architecture, and `defragResult_table` says once what can become of a table.
-/

namespace Hafnium

open Support List

/-- The combined result is a value if all items are that value. -/
theorem reduceAttrs_of_forall {l : List (Option (BitVec 64))} {a : BitVec 64} (hne : l ≠ [])
    (h : ∀ x ∈ l, x = some a) : (reduceAttrs l).join = some a := by
  have hfold : ∀ xs : List (Option (BitVec 64)), (∀ x ∈ xs, x = some a) →
      xs.foldl (fun l r => if l = r then l else none) (some a) = some a := by
    intro xs
    induction xs with
    | nil =>
      intro _
      rfl
    | cons y ys ih =>
      intro hys
      rw [foldl_cons, hys y mem_cons_self, if_pos rfl]
      exact ih fun x hx => hys x (mem_cons_of_mem _ hx)
  cases l with
  | nil => exact absurd rfl hne
  | cons x xs =>
    rw [reduceAttrs, Option.join_some, h x mem_cons_self]
    exact hfold xs fun x hx => h x (mem_cons_of_mem _ hx)

theorem reduceAttrs_map_finRange {v : Fin 512 → Option (BitVec 64)} {a : BitVec 64} :
    (reduceAttrs ((finRange 512).map v)).join = some a ↔ ∀ i, v i = some a := by
  have hmem := mem_finRange (n := 512)
  have hne : finRange 512 ≠ [] := ne_nil_of_mem (hmem 0)
  generalize finRange 512 = l at hmem hne ⊢
  constructor
  · intro h i
    exact reduceAttrs_eq_some h _ (mem_map_of_mem (hmem i))
  · intro h
    apply reduceAttrs_of_forall
    · rwa [Ne, map_eq_nil_iff]
    · intro x hx
      obtain ⟨i, -, rfl⟩ := mem_map.mp hx
      exact h i

namespace PageTableEntry

variable (A : ArchMm) {level : Nat}

/-- `mergeTable` without the pool, for entries that were defragmented. -/
def mergeResult (w : Pte) (c : Fin 512 → Option (BitVec 64) × PageTableEntry level) :
    Option (BitVec 64) × PageTableEntry (level + 1) :=
  let r := mergeTable A w ((finRange 512).map fun i => (c i).1, fun i => (c i).2, .ofPool .new)
  (r.1, r.2.1)

/-- What `defrag` makes of an entry, whatever the pool: what it returns and the new
entry. -/
def defragResult : {level : Nat} → PageTableEntry level → Option (BitVec 64) × PageTableEntry level
  | level, leaf w => (if A.pteIsBlock w level then some (A.pteAttrs w level) else none, leaf w)
  | level + 1, table w es =>
    if A.pteIsBlock w (level + 1) then (some (A.pteAttrs w (level + 1)), table w es)
    else mergeResult A w fun i => (es i).defragResult

theorem mergeTable_pool (w : Pte) (rs : List (Option (BitVec 64))) (es : RawPageTable level)
    (mpool mpool' : MPool) :
    (mergeTable A w (rs, es, mpool)).1 = (mergeTable A w (rs, es, mpool')).1 ∧
      (mergeTable A w (rs, es, mpool)).2.1 = (mergeTable A w (rs, es, mpool')).2.1 := by
  simp only [mergeTable]
  cases (reduceAttrs rs).join with
  | none => exact ⟨rfl, rfl⟩
  | some a =>
    dsimp only
    split
    · exact ⟨rfl, rfl⟩
    · split
      · exact ⟨rfl, rfl⟩
      · exact ⟨rfl, rfl⟩

theorem defragResult_leaf (w : Pte) : (leaf w : PageTableEntry level).defragResult A =
    (if A.pteIsBlock w level then some (A.pteAttrs w level) else none, leaf w) := by
  cases level <;> rfl

theorem defrag_table_eq (w : Pte) (es : RawPageTable level) (mpool : MPool) :
    (table w es).defrag A mpool =
      if A.pteIsBlock w (level + 1) then (some (A.pteAttrs w (level + 1)), table w es, mpool)
      else mergeTable A w (mapAll (fun pte mpool => pte.defrag A mpool) (finRange 512) es
        mpool) := rfl

theorem defragResult_table_eq (w : Pte) (es : RawPageTable level) : (table w es).defragResult A =
      if A.pteIsBlock w (level + 1) then (some (A.pteAttrs w (level + 1)), table w es)
      else mergeResult A w fun i => (es i).defragResult A := rfl

/-- The pool does not matter for what `defrag` returns. -/
theorem defrag_eq_result (e : PageTableEntry level) (mpool : MPool) :
    (e.defrag A mpool).1 = (e.defragResult A).1 ∧ (e.defrag A mpool).2.1 =
    (e.defragResult A).2 := by
  induction e generalizing mpool with
  | @leaf level w =>
    have heq : (leaf w : PageTableEntry level).defrag A mpool =
        if A.pteIsBlock w level then (some (A.pteAttrs w level), leaf w, mpool)
        else (none, leaf w, mpool) := by
      cases level <;> rfl
    rw [heq, defragResult_leaf]
    split
    · exact ⟨rfl, rfl⟩
    · exact ⟨rfl, rfl⟩
  | @table level w es ih =>
    obtain ⟨hresults, hentries⟩ := mapAll_of_forall (f := fun pte mpool => defrag A pte mpool)
      (nodup_finRange 512) (fun i _ mpool => ih i mpool) mpool
    rw [defrag_table_eq, defragResult_table_eq]
    cases A.pteIsBlock w (level + 1) with
    | true => exact ⟨rfl, rfl⟩
    | false =>
      rw [if_neg Bool.false_ne_true, if_neg Bool.false_ne_true, mergeResult]
      have hes := funext fun i => hentries i (mem_finRange i)
      generalize finRange 512 = l at hresults hes ⊢
      generalize mapAll (fun pte mpool => defrag A pte mpool) l es mpool = r at hresults hes ⊢
      obtain ⟨rs, es', mpool'⟩ := r
      dsimp only at hresults hes ⊢
      rw [hresults, hes]
      exact mergeTable_pool A w _ _ _ _

/-- A table that is replaced goes to the pool, if there are no tables left below it. -/
theorem mergeTable_pages {w : Pte} {r : List (Option (BitVec 64)) × RawPageTable level × MPool}
    (h : ∀ attrs, (reduceAttrs r.1).join = some attrs → ∀ i, (r.2.1 i).tablePages = 0) :
    (mergeTable aarch64 w r).2.1.tablePages + (mergeTable aarch64 w r).2.2.pages =
      (table w r.2.1).tablePages + r.2.2.pages := by
  obtain ⟨rs, es, mpool⟩ := r
  dsimp only at h ⊢
  simp only [mergeTable]
  cases hjoin : (reduceAttrs rs).join with
  | none => rfl
  | some attrs =>
    have hfree : (mpool.free (aarch64.tableFromPte w (level + 1))).pages =
        (table w es).tablePages + mpool.pages := by
      rw [MPool.pages_free, tablePages_table, Finset.sum_eq_zero fun i _ => h attrs hjoin i,
        add_zero]
      rfl
    dsimp only
    split
    · rw [hfree, tablePages_absent, zero_add]
    · split
      · rfl
      · rw [hfree, block, tablePages_leaf, zero_add]

/-- What becomes of a table: it stays, with its entries defragmented, or all of its
entries report the same attributes and it is replaced by an absent entry or by a
block. -/
inductive Merging (w : Pte) (c : Fin 512 → Option (BitVec 64) × PageTableEntry level) :
    Option (BitVec 64) × PageTableEntry (level + 1) → Prop
  | stays (h : ∀ a, (∀ i, (c i).1 = some a) →
      A.pteIsPresent a level = true ∧ A.isBlockAllowed (level + 1) = false) :
      Merging w c (none, table w fun i => (c i).2)
  | emptied {a : BitVec 64} (h : ∀ i, (c i).1 = some a)
    (hpresent : A.pteIsPresent a level = false) :
      Merging w c (some ((absent A (level + 1)).attrs A), absent A (level + 1))
  | merged {a : BitVec 64} (h : ∀ i, (c i).1 = some a) (hpresent : A.pteIsPresent a level = true)
      (hallowed : A.isBlockAllowed (level + 1) = true) :
      Merging w c (some (A.combineTableEntryAttrs (A.pteAttrs w (level + 1)) a),
        block A (level + 1) (A.blockFromPte (c 0).2.inner level)
          (A.combineTableEntryAttrs (A.pteAttrs w (level + 1)) a))

theorem merging_mergeResult (w : Pte) (c : Fin 512 → Option (BitVec 64) × PageTableEntry level) :
    Merging A w c (mergeResult A w c) := by
  have hreduce : ∀ a, (reduceAttrs ((finRange 512).map fun i => (c i).1)).join = some a ↔
      ∀ i, (c i).1 = some a := fun a => reduceAttrs_map_finRange
  rw [mergeResult]
  generalize (finRange 512).map (fun i => (c i).1) = rs at hreduce ⊢
  simp only [mergeTable]
  cases hjoin : (reduceAttrs rs).join with
  | none =>
    refine .stays ?_
    intro a ha
    rw [(hreduce a).mpr ha] at hjoin
    contradiction
  | some a =>
    have ha := (hreduce a).mp hjoin
    dsimp only
    cases hpresent : A.pteIsPresent a level with
    | false => exact .emptied ha hpresent
    | true =>
      rw [Bool.not_true, if_neg Bool.false_ne_true]
      cases hallowed : A.isBlockAllowed (level + 1) with
      | false =>
        refine .stays ?_
        intro a' ha'
        cases Option.some.inj ((ha 0).symm.trans (ha' 0))
        exact ⟨hpresent, hallowed⟩
      | true =>
        rw [Bool.not_true, if_neg Bool.false_ne_true]
        exact .merged ha hpresent hallowed

end PageTableEntry

/-- Defragmenting a page table defragments each of its entries. -/
theorem PageTable.defrag_tables (A : ArchMm) {S : Stage} (pt : PageTable S) (mpool : MPool)
    (t : Fin S.rootTableCount) (i : Fin 512) :
    (pt.defrag A mpool).1.tables t i = ((pt.tables t i).defragResult A).2 := by
  have htable : ∀ (t : Fin S.rootTableCount) (s : MPool),
      (mapAll (fun pte mpool => PageTableEntry.defrag A pte mpool) (finRange 512)
        (pt.tables t) s).2.1 = fun i => ((pt.tables t i).defragResult A).2 := by
    intro t s
    funext i
    exact (mapAll_of_forall (f := fun pte mpool => PageTableEntry.defrag A pte mpool)
      (nodup_finRange 512) (fun i _ s => PageTableEntry.defrag_eq_result A (pt.tables t i) s)
      s).2 i (mem_finRange i)
  simp only [defrag]
  generalize finRange 512 = l at htable ⊢
  obtain ⟨-, ⟨-, -, hcells⟩, -⟩ := mapAll_spec
    (f := fun (table : RawPageTable S.maxLevel) mpool =>
      mapAll (fun pte mpool => PageTableEntry.defrag A pte mpool) l table mpool)
    (fun _ => True)
    (fun t _ _ es' => es' = fun i => ((pt.tables t i).defragResult A).2)
    (nodup_finRange S.rootTableCount) (t := pt.tables) (s := mpool) trivial
    (fun t _ s _ => ⟨trivial, htable t s⟩)
  exact congrFun (hcells t (mem_finRange t)) i

end Hafnium
