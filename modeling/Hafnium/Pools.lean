import Hafnium.Mpool
import Hafnium.Support.Run

/-!
# Pools that fall back on other pools

All pools of a program, numbered in the order of their creation.  A pool with a
fallback allocates from it when it has no pages itself, but what is freed to it stays
with it until it is dropped.  A run starts without pools and without pages; pages come
in when runs of pages are freed that were never in a pool.  Along every run the pages
are in exactly one list of one pool, or handed out.

Sizes and alignments are such that the arithmetic of `alloc_pages` does not wrap, where
it is that of natural numbers.
-/

namespace Hafnium

open Support Finset Option

/-- A pool, its fallback, and whether it has not been dropped. -/
structure PoolNode where
  pool : Pool
  fallback : Option Nat
  live : Bool
  deriving DecidableEq, Repr

/-- The pools created so far; beyond `count` there are none. -/
structure Pools where
  count : Nat
  node : Nat → PoolNode

/-- The operations of `MPool`. -/
inductive PoolOp
  | new
  | newWithFallback (fallback : Nat)
  | alloc (p : Nat)
  | allocPages (p count align : Nat)
  | free (p page : Nat)
  | freePages (p addr size : Nat)
  | drop (p : Nat)
  deriving DecidableEq, Repr

namespace Pools

def init : Pools := ⟨0, fun _ => ⟨.new, none, false⟩⟩

def setPool (self : Pools) (p : Nat) (pool : Pool) : Pools :=
  { self with node := Function.update self.node p { self.node p with pool } }

/-- Adds a pool, with a fallback or without one. -/
def newPool (self : Pools) (fallback : Option Nat) : Pools :=
  ⟨self.count + 1, Function.update self.node self.count ⟨.new, fallback, true⟩⟩

/-- Tries a pool and then, if there is one, its fallback.  A fallback is older than
its pools, so `p + 1` calls are enough. -/
def allocWith {ρ : Type} (op : Pool → Option (ρ × Pool)) (self : Pools) :
    Nat → Nat → Option (ρ × Pools)
  | 0, _ => none
  | fuel + 1, p =>
    match op (self.node p).pool with
    | some (r, pool) => some (r, self.setPool p pool)
    | none =>
      match (self.node p).fallback with
      | some fallback => allocWith op self fuel fallback
      | none => none

def alloc (self : Pools) (p : Nat) : Option (Nat × Pools) := self.allocWith Pool.alloc (p + 1) p

def allocPages (self : Pools) (p count align : Nat) : Option (Nat × Pools) :=
  self.allocWith (fun pool => pool.allocPages count align) (p + 1) p

def free (self : Pools) (p page : Nat) : Pools := self.setPool p ((self.node p).pool.free page)

def freePages (self : Pools) (p addr size : Nat) : Pools :=
  self.setPool p ((self.node p).pool.freePages addr size)

/-- Pops the elements of both lists one by one and pushes them to those of the
fallback. -/
def mergeInto (pool fallback : Pool) : Pool where
  entryList := pool.entryList.foldl (fun es e => e :: es) fallback.entryList
  chunkList := pool.chunkList.foldl (fun cs c => c :: cs) fallback.chunkList

/-- A pool that is no longer there. -/
def retire (self : Pools) (p : Nat) : Pools :=
  { self with node := Function.update self.node p { self.node p with pool := .new, live := false } }

/-- `MPool::drop`.  Without a fallback the pages are lost. -/
def drop (self : Pools) (p : Nat) : Pools :=
  match (self.node p).fallback with
  | some fallback =>
    (self.setPool fallback
      (mergeInto (self.node p).pool (self.node fallback).pool)).retire p
  | none => self.retire p

/-- What an operation hands out, and the pools after it. -/
def step (self : Pools) : PoolOp → Option Chunk × Pools
  | .new => (none, self.newPool none)
  | .newWithFallback fallback => (none, self.newPool (some fallback))
  | .alloc p =>
    match self.alloc p with
    | some (page, pools) => (some ⟨page, 1⟩, pools)
    | none => (none, self)
  | .allocPages p count align =>
    match self.allocPages p count align with
    | some (start, pools) => (some ⟨start, count⟩, pools)
    | none => (none, self)
  | .free p page => (none, self.free p page)
  | .freePages p addr size => (none, self.freePages p addr size)
  | .drop p => (none, self.drop p)

/-- The pages in the lists of a pool. -/
def pagesOf (self : Pools) (p : Nat) : Multiset Nat := (self.node p).pool.pages

/-- The pages in the lists of all pools. -/
def pages (self : Pools) : Multiset Nat := ∑ p ∈ range self.count, self.pagesOf p

/-- The pools that an allocation tries. -/
inductive Reaches (self : Pools) : Nat → Nat → Prop
  | self (p : Nat) : Reaches self p p
  | fallback {p f q : Nat} (h : (self.node p).fallback = some f) (hq : Reaches self f q) :
      Reaches self p q

end Pools

/-! ## Histories -/

/-- The pages that an operation frees. -/
def PoolOp.freed : PoolOp → Finset Nat
  | .free _ page => {page}
  | .freePages _ addr size => (Chunk.mk addr size).pages.toFinset
  | _ => ∅

/-- The pools, the pages handed out, and the pages ever added. -/
structure PoolRun where
  pools : Pools
  handedOut : Finset Nat
  added : Finset Nat

namespace PoolRun

def init : PoolRun := ⟨.init, ∅, ∅⟩

def live (s : PoolRun) (p : Nat) : Prop := (s.pools.node p).live = true

/-- What is freed was handed out, or is new. -/
def Freeable (s : PoolRun) (op : PoolOp) : Prop :=
  ∀ a ∈ op.freed, a % pageSize = 0 ∧ (a ∈ s.handedOut ∨ a ∉ s.added)

/-- The operations that a program may call: on pools that were not dropped, with pages
that it has.  It may drop a pool with a fallback that no other pool falls back on. -/
def Legal (s : PoolRun) : PoolOp → Prop
  | .new => True
  | .newWithFallback fallback => s.live fallback
  | .alloc p => s.live p
  | .allocPages p count align => s.live p ∧ 1 ≤ count ∧ 1 ≤ align
  | .free p page => s.live p ∧ s.Freeable (.free p page)
  | .freePages p addr size => s.live p ∧ 0 < size ∧ s.Freeable (.freePages p addr size)
  | .drop p =>
    s.live p ∧ (s.pools.node p).fallback.isSome = true ∧
      ∀ q < s.pools.count, s.live q → (s.pools.node q).fallback ≠ some p

instance (s : PoolRun) (p : Nat) : Decidable (s.live p) := inferInstanceAs (Decidable (_ = true))

instance (s : PoolRun) (op : PoolOp) : Decidable (s.Freeable op) :=
  inferInstanceAs (Decidable (∀ a ∈ op.freed, _))

instance (s : PoolRun) : (op : PoolOp) → Decidable (s.Legal op)
  | .new => inferInstanceAs (Decidable True)
  | .newWithFallback fallback => inferInstanceAs (Decidable (s.live fallback))
  | .alloc p => inferInstanceAs (Decidable (s.live p))
  | .allocPages _ _ _ => inferInstanceAs (Decidable (_ ∧ _ ∧ _))
  | .free _ _ => inferInstanceAs (Decidable (_ ∧ _))
  | .freePages _ _ _ => inferInstanceAs (Decidable (_ ∧ _ ∧ _))
  | .drop _ => inferInstanceAs (Decidable (_ ∧ _ ∧ _))

/-- The pages that an operation hands out. -/
def got (s : PoolRun) (op : PoolOp) : Finset Nat :=
  match (s.pools.step op).1 with
  | some run => run.pages.toFinset
  | none => ∅

/-- The state after an operation. -/
def next (s : PoolRun) (op : PoolOp) : PoolRun where
  pools := (s.pools.step op).2
  handedOut := s.handedOut \ op.freed ∪ s.got op
  added := s.added ∪ op.freed

/-- A step of a program; it stops at operations that it may not call. -/
def step (s : PoolRun) (op : PoolOp) : Option PoolRun :=
  if s.Legal op then some (s.next op) else none

end PoolRun

/-! ## Pools -/

theorem Chunk.nodup_pages (c : Chunk) : c.pages.Nodup := by
  apply Multiset.coe_nodup.mpr
  apply List.nodup_range.map
  intro i j hij
  rw [pageSize_eq] at hij
  dsimp only at hij
  omega

/-- Runs of pages start at a multiple of the alignment. -/
theorem Pool.allocPages_aligned {p p' : Pool} {size align start : Nat} (hwf : p.Wf)
    (hpages : ∀ a ∈ p.pages, a % pageSize = 0) (h : p.allocPages size align = some (start, p')) :
    start % (align * pageSize) = 0 := by
  rw [allocPages] at h
  split at h
  · rename_i hone
    obtain ⟨hp, -⟩ := alloc_spec hwf h
    rw [hone.2, Nat.one_mul]
    apply hpages
    rw [hp]
    exact Multiset.mem_cons_self _ _
  · split at h
    · contradiction
    rename_i chunk start' stop chunks hpop
    obtain ⟨-, hplace⟩ := popIfSome_spec hpop
    cases h
    simp only [placeIn, ite_none_right_eq_some, some.injEq, Prod.mk.injEq] at hplace
    rw [← hplace.2.1, roundUp]
    exact Nat.mul_mod_left _ _

namespace Pools

variable {s : Pools} {p q : Nat} {pool : Pool}

@[simp] theorem count_setPool : (s.setPool p pool).count = s.count := rfl

@[simp] theorem fallback_setPool : ((s.setPool p pool).node q).fallback = (s.node q).fallback := by
  by_cases hq : q = p
  · subst hq
    simp [setPool]
  · simp [setPool, hq]

@[simp] theorem live_setPool : ((s.setPool p pool).node q).live = (s.node q).live := by
  by_cases hq : q = p
  · subst hq
    simp [setPool]
  · simp [setPool, hq]

theorem pool_setPool : ((s.setPool p pool).node q).pool = if q =
    p then pool else (s.node q).pool := by
  by_cases hq : q = p
  · subst hq
    simp [setPool]
  · simp [setPool, hq]

theorem pagesOf_setPool_self : (s.setPool p pool).pagesOf p = pool.pages := by
  rw [pagesOf, pool_setPool, if_pos rfl]

theorem pagesOf_setPool_of_ne (h : q ≠ p) : (s.setPool p pool).pagesOf q = s.pagesOf q := by
  rw [pagesOf, pool_setPool, if_neg h]
  rfl

theorem pages_setPool (hp : p < s.count) :
    (s.setPool p pool).pages + s.pagesOf p = s.pages + pool.pages := by
  have hmem : p ∈ range s.count := mem_range.mpr hp
  have hrest : ∑ q ∈ (range s.count).erase p, (s.setPool p pool).pagesOf q =
      ∑ q ∈ (range s.count).erase p, s.pagesOf q := by
    apply sum_congr rfl
    intro q hq
    exact pagesOf_setPool_of_ne (ne_of_mem_erase hq)
  rw [pages, pages, count_setPool, ← add_sum_erase _ _ hmem, ← add_sum_erase _ _ hmem,
    hrest, pagesOf_setPool_self]
  abel

theorem mem_pages_of_mem {a : Nat} (hp : p < s.count) (ha : a ∈ s.pagesOf p) : a ∈ s.pages :=
  Multiset.mem_sum.mpr ⟨p, mem_range.mpr hp, ha⟩

/-- An allocation takes from one of the pools that it reaches. -/
theorem allocWith_eq_some {ρ : Type} {op : Pool → Option (ρ × Pool)} {fuel : Nat} {r : ρ}
    {s' : Pools} (h : s.allocWith op fuel p = some (r, s')) :
    ∃ q pool, Reaches s p q ∧ op (s.node q).pool = some (r, pool) ∧ s' = s.setPool q pool := by
  induction fuel generalizing p with
  | zero => contradiction
  | succ fuel ih =>
    rw [allocWith] at h
    split at h
    · rename_i r' pool hop
      cases h
      exact ⟨p, pool, .self p, hop, rfl⟩
    · split at h
      · rename_i f hf
        obtain ⟨q, pool, hq, hrest⟩ := ih h
        exact ⟨q, pool, .fallback hf hq, hrest⟩
      · contradiction

/-- If an allocation fails, it has failed in all pools that it reaches. -/
theorem allocWith_eq_none {ρ : Type} {op : Pool → Option (ρ × Pool)} {fuel : Nat}
    (holder : ∀ p f, (s.node p).fallback = some f → f < p) (hfuel : p < fuel)
    (h : s.allocWith op fuel p = none) (hq : Reaches s p q) : op (s.node q).pool = none := by
  induction hq generalizing fuel with
  | self p =>
    obtain ⟨fuel, rfl⟩ : ∃ n, fuel = n + 1 := ⟨fuel - 1, by omega⟩
    rw [allocWith] at h
    split at h
    · contradiction
    · rename_i hop
      exact hop
  | @fallback p f q hf _ ih =>
    have hlt := holder p f hf
    obtain ⟨fuel, rfl⟩ : ∃ n, fuel = n + 1 := ⟨fuel - 1, by omega⟩
    rw [allocWith] at h
    split at h
    · contradiction
    · rw [hf] at h
      exact ih (by omega) h

/-- The pools that an allocation reaches are older. -/
theorem Reaches.le (holder : ∀ p f, (s.node p).fallback = some f → f < p) (h : Reaches s p q) :
    q ≤ p := by
  induction h with
  | self p => exact le_rfl
  | fallback hf _ ih => exact ih.trans (holder _ _ hf).le

theorem pages_mergeInto (pool fallback : Pool) :
    (mergeInto pool fallback).pages = fallback.pages + pool.pages := by
  simp only [mergeInto, Pool.pages, MPool.foldl_push, ← Multiset.coe_add, Multiset.coe_reverse,
    List.map_append, List.map_reverse, List.sum_append, List.sum_reverse]
  abel

theorem wf_mergeInto {pool fallback : Pool} (h : pool.Wf) (h' : fallback.Wf) :
    (mergeInto pool fallback).Wf := by
  intro c hc
  simp only [mergeInto, MPool.foldl_push, List.mem_append, List.mem_reverse] at hc
  exact hc.elim (h c) (h' c)

/-- What holds of all pools of a program: no run is empty, only pools that were
created are live, fallbacks are older than their pools, and live as long as these. -/
structure Sound (s : Pools) : Prop where
  wf : ∀ p, (s.node p).pool.Wf
  lt : ∀ p, (s.node p).live = true → p < s.count
  older : ∀ p f, (s.node p).fallback = some f → f < p
  fallback_live : ∀ p f, (s.node p).live = true → (s.node p).fallback = some f →
    (s.node f).live = true

theorem sound_init : init.Sound where
  wf := fun _ => Pool.wf_new
  lt := fun _ h => absurd h nofun
  older := fun _ _ h => absurd h nofun
  fallback_live := fun _ _ h => absurd h nofun

namespace Sound

theorem setPool (h : s.Sound) (hpool : pool.Wf) : (s.setPool p pool).Sound where
  wf := by
    intro q
    rw [pool_setPool]
    split
    · exact hpool
    · exact h.wf q
  lt := by
    intro q hq
    rw [live_setPool] at hq
    exact h.lt q hq
  older := by
    intro q f hf
    rw [fallback_setPool] at hf
    exact h.older q f hf
  fallback_live := by
    intro q f hq hf
    rw [live_setPool] at hq ⊢
    rw [fallback_setPool] at hf
    exact h.fallback_live q f hq hf

theorem newPool (h : s.Sound) {fallback : Option Nat}
    (hfallback : ∀ f, fallback = some f → (s.node f).live = true) :
    (s.newPool fallback).Sound := by
  have hself : ((s.newPool fallback).node s.count) = ⟨.new, fallback, true⟩ := by
    simp [Pools.newPool]
  have hother : ∀ q, q ≠ s.count → (s.newPool fallback).node q = s.node q := by
    intro q hq
    simp [Pools.newPool, hq]
  have hlive : ∀ f, (s.node f).live = true → ((s.newPool fallback).node f).live = true := by
    intro f hf
    rw [hother f (h.lt f hf).ne]
    exact hf
  constructor
  · intro q
    by_cases hq : q = s.count
    · rw [hq, hself]
      exact Pool.wf_new
    · rw [hother q hq]
      exact h.wf q
  · intro q hq
    by_cases hq' : q = s.count
    · rw [hq']
      exact Nat.lt_succ_self _
    · rw [hother q hq'] at hq
      exact (h.lt q hq).trans (Nat.lt_succ_self _)
  · intro q f hf
    by_cases hq : q = s.count
    · rw [hq, hself] at hf
      rw [hq]
      exact h.lt f (hfallback f hf)
    · rw [hother q hq] at hf
      exact h.older q f hf
  · intro q f hq hf
    apply hlive
    by_cases hq' : q = s.count
    · rw [hq', hself] at hf
      exact hfallback f hf
    · rw [hother q hq'] at hq hf
      exact h.fallback_live q f hq hf

/-- A pool can be taken away if no pool falls back on it. -/
theorem retire (h : s.Sound)
    (hp : ∀ q, (s.node q).live = true → (s.node q).fallback ≠ some p) : (s.retire p).Sound := by
  have hself : (s.retire p).node p = { s.node p with pool := .new, live := false } := by
    simp [Pools.retire]
  have hother : ∀ q, q ≠ p → (s.retire p).node q = s.node q := by
    intro q hq
    simp [Pools.retire, hq]
  have hlive : ∀ q, ((s.retire p).node q).live = true → q ≠ p ∧ (s.node q).live = true := by
    intro q hq
    by_cases hqp : q = p
    · rw [hqp, hself] at hq
      contradiction
    · rw [hother q hqp] at hq
      exact ⟨hqp, hq⟩
  have hfallback : ∀ q, ((s.retire p).node q).fallback = (s.node q).fallback := by
    intro q
    by_cases hqp : q = p
    · rw [hqp, hself]
    · rw [hother q hqp]
  constructor
  · intro q
    by_cases hqp : q = p
    · rw [hqp, hself]
      exact Pool.wf_new
    · rw [hother q hqp]
      exact h.wf q
  · intro q hq
    exact h.lt q (hlive q hq).2
  · intro q f hf
    rw [hfallback] at hf
    exact h.older q f hf
  · intro q f hq hf
    rw [hfallback] at hf
    have hqlive := (hlive q hq).2
    have hne : f ≠ p := by
      rintro rfl
      exact hp q hqlive hf
    rw [hother f hne]
    exact h.fallback_live q f hqlive hf

end Sound

theorem pages_newPool {fallback : Option Nat} : (s.newPool fallback).pages = s.pages := by
  have hself : (s.newPool fallback).pagesOf s.count = 0 := by
    simp [pagesOf, newPool]
  have hother : ∑ q ∈ range s.count, (s.newPool fallback).pagesOf q = s.pages := by
    apply sum_congr rfl
    intro q hq
    have hne : q ≠ s.count := (mem_range.mp hq).ne
    simp [pagesOf, newPool, hne]
  rw [pages, show (s.newPool fallback).count = s.count + 1 from rfl, sum_range_succ, hself,
    hother, add_zero]

/-- What an allocation does: it takes the pages of one pool that it reaches. -/
theorem allocWith_spec (hs : s.Sound) (hp : p < s.count)
    (haligned : ∀ a ∈ s.pages, a % pageSize = 0) {ρ : Type} {op : Pool → Option (ρ × Pool)}
    {Q : ρ → Multiset Nat}
    (hop : ∀ pool, pool.Wf → (∀ a ∈ pool.pages, a % pageSize = 0) → ∀ r pool',
      op pool = some (r, pool') → pool.pages = Q r + pool'.pages ∧ pool'.Wf)
    {r : ρ} {s' : Pools} (h : s.allocWith op (p + 1) p = some (r, s')) :
    s'.Sound ∧ s'.pages + Q r = s.pages ∧ ∃ q pool, Reaches s p q ∧ s.pagesOf q = Q r + pool.pages ∧
        op (s.node q).pool = some (r, pool) ∧ s' = s.setPool q pool := by
  obtain ⟨q, pool, hq, hsome, rfl⟩ := allocWith_eq_some h
  have hlt : q < s.count := (hq.le hs.older).trans_lt hp
  obtain ⟨hpages, hwf⟩ := hop _ (hs.wf q) (fun a ha => haligned a (mem_pages_of_mem hlt ha)) r pool
    hsome
  refine ⟨hs.setPool hwf, ?_, q, pool, hq, hpages, hsome, rfl⟩
  have haccount : (s.setPool q pool).pages + s.pagesOf q = s.pages + pool.pages :=
    pages_setPool hlt
  rw [show s.pagesOf q = Q r + pool.pages from hpages, ← add_assoc] at haccount
  exact add_right_cancel haccount

theorem pages_retire (hp : p < s.count) : (s.retire p).pages + s.pagesOf p = s.pages := by
  have haccount : (s.setPool p .new).pages + s.pagesOf p = s.pages + Pool.new.pages :=
    pages_setPool hp
  have hsame : (s.retire p).pages = (s.setPool p .new).pages := by
    apply sum_congr rfl
    intro q _
    by_cases hq : q = p
    · subst hq
      simp [pagesOf, retire, setPool]
    · simp [pagesOf, retire, setPool, hq]
  rw [hsame, haccount, Pool.pages_new, add_zero]

theorem retire_node_of_ne (h : q ≠ p) : (s.retire p).node q = s.node q := by
  simp [retire, h]

end Pools

/-! ## Steps -/

namespace PoolRun

variable {s : PoolRun} {op : PoolOp} {p : Nat}

/-- The pages are in exactly one list of one pool, or handed out. -/
structure Inv (s : PoolRun) : Prop where
  sound : s.pools.Sound
  partition : s.pools.pages + s.handedOut.val = s.added.val
  aligned : ∀ a ∈ s.added, a % pageSize = 0

theorem inv_init : init.Inv where
  sound := Pools.sound_init
  partition := rfl
  aligned := fun _ h => absurd h (notMem_empty _)

theorem Inv.mem_added (h : s.Inv) {a : Nat} (ha : a ∈ s.pools.pages) : a ∈ s.added := by
  rw [← mem_val, ← h.partition]
  exact Multiset.mem_add.mpr (Or.inl ha)

/-- A page is not both in a pool and handed out. -/
theorem Inv.notMem_handedOut (h : s.Inv) {a : Nat} (ha : a ∈ s.pools.pages) : a ∉ s.handedOut := by
  have hnodup : (s.pools.pages + s.handedOut.val).Nodup := by
    rw [h.partition]
    exact s.added.nodup
  intro hout
  exact Multiset.disjoint_left.mp (Multiset.nodup_add.mp hnodup).2.2 ha hout

/-- A page is in the lists of one pool only. -/
theorem Inv.eq_of_mem (h : s.Inv) {p q a : Nat} (hp : p < s.pools.count) (hq : q < s.pools.count)
    (ha : a ∈ s.pools.pagesOf p) (ha' : a ∈ s.pools.pagesOf q) : p = q := by
  by_contra hne
  have hle : s.pools.pagesOf p + s.pools.pagesOf q ≤ s.pools.pages := by
    rw [← sum_pair hne]
    apply sum_le_sum_of_subset
    intro r hr
    rw [mem_insert, mem_singleton] at hr
    obtain rfl | rfl := hr
    · exact mem_range.mpr hp
    · exact mem_range.mpr hq
  have hnodup : (s.pools.pagesOf p + s.pools.pagesOf q).Nodup := by
    apply Multiset.nodup_of_le _ s.added.nodup
    rw [← h.partition]
    exact hle.trans (Multiset.le_add_right _ _)
  exact Multiset.disjoint_left.mp (Multiset.nodup_add.mp hnodup).2.2 ha ha'

/-- Freed pages come from outside the pools, and what is handed out comes from them. -/
theorem partition_of_account {P P' : Multiset Nat} {H A F G : Finset Nat}
    (hpart : P + H.val = A.val) (haccount : P' + G.val = P + F.val)
    (hfree : ∀ a ∈ F, a ∈ H ∨ a ∉ A) : P' + (H \ F ∪ G).val = (A ∪ F).val := by
  ext a
  have h₁ := congrArg (Multiset.count a) hpart
  have h₂ := congrArg (Multiset.count a) haccount
  have h₃ := hfree a
  simp only [Multiset.count_add, Multiset.count_eq_of_nodup (nodup _), mem_val,
    mem_union, mem_sdiff] at h₁ h₂ ⊢
  by_cases hF : a ∈ F <;> by_cases hG : a ∈ G <;> by_cases hH : a ∈ H <;> by_cases hA : a ∈ A <;>
    simp_all

theorem freeable_of_legal (h : s.Legal op) : s.Freeable op := by
  cases op with
  | free p page => exact h.2
  | freePages p addr size => exact h.2.2
  | new => exact fun a ha => absurd ha (notMem_empty a)
  | newWithFallback f => exact fun a ha => absurd ha (notMem_empty a)
  | alloc p => exact fun a ha => absurd ha (notMem_empty a)
  | allocPages p count align => exact fun a ha => absurd ha (notMem_empty a)
  | drop p => exact fun a ha => absurd ha (notMem_empty a)

theorem Inv.alloc_spec (h : s.Inv) (hp : s.live p) {page : Nat} {pools : Pools}
    (halloc : s.pools.alloc p = some (page, pools)) :
    pools.Sound ∧ pools.pages + (Chunk.mk page 1).pages = s.pools.pages ∧
      ∃ q pool, s.pools.Reaches p q ∧ s.pools.pagesOf q = (Chunk.mk page 1).pages + pool.pages ∧
        pools = s.pools.setPool q pool := by
  have hop : ∀ pool : Pool, pool.Wf → (∀ a ∈ pool.pages, a % pageSize = 0) → ∀ page pool',
      pool.alloc = some (page, pool') →
        pool.pages = (Chunk.mk page 1).pages + pool'.pages ∧ pool'.Wf := by
    intro pool hwf _ page pool' hpage
    obtain ⟨hpages, hwf'⟩ := Pool.alloc_spec hwf hpage
    exact ⟨by simpa [Chunk.pages] using hpages, hwf'⟩
  obtain ⟨hsound, hpages, q, pool, hq, hpagesq, -, hset⟩ := Pools.allocWith_spec h.sound
    (h.sound.lt p hp) (fun a ha => h.aligned a (h.mem_added ha)) hop halloc
  exact ⟨hsound, hpages, q, pool, hq, hpagesq, hset⟩

theorem Inv.allocPages_spec (h : s.Inv) (hp : s.live p) {count align start : Nat} {pools : Pools}
    (halloc : s.pools.allocPages p count align = some (start, pools)) :
    pools.Sound ∧ pools.pages + (Chunk.mk start count).pages = s.pools.pages ∧
      start % (align * pageSize) = 0 ∧
      ∃ q pool, s.pools.Reaches p q ∧
        s.pools.pagesOf q = (Chunk.mk start count).pages + pool.pages ∧
        pools = s.pools.setPool q pool := by
  have haligned : ∀ a ∈ s.pools.pages, a % pageSize = 0 := fun a ha =>
    h.aligned a (h.mem_added ha)
  obtain ⟨hsound, hpages, q, pool, hq, hpagesq, hsome, hset⟩ := Pools.allocWith_spec
    (Q := fun start => (Chunk.mk start count).pages) h.sound (h.sound.lt p hp) haligned
    (fun _ hwf hmod _ _ hr => Pool.allocPages_spec hwf hmod hr) halloc
  have hlt : q < s.pools.count := (hq.le h.sound.older).trans_lt (h.sound.lt p hp)
  have hstart := Pool.allocPages_aligned (h.sound.wf q)
    (fun a ha => haligned a (Pools.mem_pages_of_mem hlt ha)) hsome
  exact ⟨hsound, hpages, hstart, q, pool, hq, hpagesq, hset⟩

theorem got_of_step {run : Chunk} (h : (s.pools.step op).1 = some run) :
    (s.got op).val = run.pages := by
  rw [got, h]
  exact Multiset.dedup_eq_self.mpr run.nodup_pages

theorem got_of_step_none (h : (s.pools.step op).1 = none) : (s.got op).val = 0 := by
  rw [got, h]
  rfl

theorem Inv.setPool_add (h : s.Inv) (hp : s.live p) {pool : Pool} {F : Multiset Nat}
    (hpool : pool.pages = F + s.pools.pagesOf p) :
    (s.pools.setPool p pool).pages = s.pools.pages + F := by
  have haccount : (s.pools.setPool p pool).pages + s.pools.pagesOf p = s.pools.pages + pool.pages :=
    Pools.pages_setPool (h.sound.lt p hp)
  rw [hpool, ← add_assoc] at haccount
  exact add_right_cancel haccount

theorem Inv.drop_spec (h : s.Inv) (hlegal : s.Legal (.drop p)) {f : Nat}
    (hf : (s.pools.node p).fallback = some f) :
    (s.pools.drop p).Sound ∧ (s.pools.drop p).pages = s.pools.pages ∧
      ∀ q, q ≠ p → (s.pools.drop p).pagesOf q =
        if q = f then s.pools.pagesOf f + s.pools.pagesOf p else s.pools.pagesOf q := by
  obtain ⟨hp, -, hnobody⟩ := hlegal
  have hpf : p ≠ f := (h.sound.older p f hf).ne'
  have hflt : f < s.pools.count := (h.sound.older p f hf).trans (h.sound.lt p hp)
  have hmerged := Pools.pages_mergeInto (s.pools.node p).pool (s.pools.node f).pool
  rw [Pools.drop, hf]
  dsimp only
  generalize hpool : Pools.mergeInto (s.pools.node p).pool (s.pools.node f).pool = pool at hmerged ⊢
  refine ⟨?_, ?_, ?_⟩
  · apply Pools.Sound.retire
    · apply h.sound.setPool
      rw [← hpool]
      exact Pools.wf_mergeInto (h.sound.wf p) (h.sound.wf f)
    · intro q hq
      rw [Pools.live_setPool] at hq
      rw [Pools.fallback_setPool]
      exact hnobody q (h.sound.lt q hq) hq
  · have hretire : ((s.pools.setPool f pool).retire p).pages +
        (s.pools.setPool f pool).pagesOf p = (s.pools.setPool f pool).pages :=
      Pools.pages_retire (h.sound.lt p hp)
    have hset : (s.pools.setPool f pool).pages + s.pools.pagesOf f = s.pools.pages + pool.pages :=
      Pools.pages_setPool hflt
    rw [Pools.pagesOf_setPool_of_ne hpf] at hretire
    rw [← hretire, hmerged] at hset
    have hcancel : ((s.pools.setPool f pool).retire p).pages +
        (s.pools.pagesOf p + s.pools.pagesOf f) =
          s.pools.pages + (s.pools.pagesOf p + s.pools.pagesOf f) := by
      rw [← add_assoc, hset, Pools.pagesOf, Pools.pagesOf, add_comm (s.pools.node f).pool.pages]
    exact add_right_cancel hcancel
  · intro q hq
    rw [Pools.pagesOf, Pools.retire_node_of_ne hq, Pools.pool_setPool]
    split
    · rw [hmerged]
      rfl
    · rfl

/-- Every step accounts for the pages that it moves. -/
theorem Inv.account (h : s.Inv) (hlegal : s.Legal op) : (s.pools.step op).2.Sound ∧
      (s.pools.step op).2.pages + (s.got op).val = s.pools.pages + op.freed.val := by
  cases op with
  | new =>
    refine ⟨h.sound.newPool nofun, ?_⟩
    exact congrArg (· + 0) Pools.pages_newPool
  | newWithFallback f =>
    refine ⟨h.sound.newPool ?_, congrArg (· + 0) Pools.pages_newPool⟩
    rintro _ ⟨⟩
    exact hlegal
  | alloc p =>
    cases halloc : s.pools.alloc p with
    | none =>
      have hstep : s.pools.step (.alloc p) = (none, s.pools) := by rw [Pools.step, halloc]
      rw [got_of_step_none (by rw [hstep]), hstep]
      exact ⟨h.sound, rfl⟩
    | some r =>
      obtain ⟨page, pools⟩ := r
      obtain ⟨hsound, hpages, -⟩ := h.alloc_spec hlegal halloc
      have hstep : s.pools.step (.alloc p) = (some ⟨page, 1⟩, pools) := by
        rw [Pools.step, halloc]
      rw [got_of_step (by rw [hstep]), hstep]
      exact ⟨hsound, hpages.trans (add_zero _).symm⟩
  | allocPages p count align =>
    cases halloc : s.pools.allocPages p count align with
    | none =>
      have hstep : s.pools.step (.allocPages p count align) = (none, s.pools) := by
        rw [Pools.step, halloc]
      rw [got_of_step_none (by rw [hstep]), hstep]
      exact ⟨h.sound, rfl⟩
    | some r =>
      obtain ⟨start, pools⟩ := r
      obtain ⟨hsound, hpages, -⟩ := h.allocPages_spec hlegal.1 halloc
      have hstep : s.pools.step (.allocPages p count align) = (some ⟨start, count⟩, pools) := by
        rw [Pools.step, halloc]
      rw [got_of_step (by rw [hstep]), hstep]
      exact ⟨hsound, hpages.trans (add_zero _).symm⟩
  | free p page =>
    refine ⟨h.sound.setPool (Pool.wf_free (h.sound.wf p) page), ?_⟩
    rw [got_of_step_none rfl, add_zero]
    exact h.setPool_add hlegal.1 (Pool.pages_free _ page)
  | freePages p addr size =>
    refine ⟨h.sound.setPool ?_, ?_⟩
    · intro c hc
      obtain rfl | hc := List.mem_cons.mp hc
      · exact hlegal.2.1
      · exact h.sound.wf p c hc
    · rw [got_of_step_none rfl, add_zero, PoolOp.freed, Multiset.toFinset_val,
        Multiset.dedup_eq_self.mpr (Chunk.nodup_pages _)]
      exact h.setPool_add hlegal.1 (Pool.pages_freePages _ addr size)
  | drop p =>
    obtain ⟨f, hf⟩ := isSome_iff_exists.mp hlegal.2.1
    obtain ⟨hsound, hpages, -⟩ := h.drop_spec hlegal hf
    exact ⟨hsound, congrArg (· + 0) hpages⟩

/-- The invariant is kept by every step of a program. -/
theorem Inv.next (h : s.Inv) (hlegal : s.Legal op) : (s.next op).Inv := by
  obtain ⟨hsound, haccount⟩ := h.account hlegal
  have hfree := freeable_of_legal hlegal
  refine ⟨hsound, partition_of_account h.partition haccount fun a ha => (hfree a ha).2, ?_⟩
  intro a ha
  obtain ha | ha := mem_union.mp ha
  · exact h.aligned a ha
  · exact (hfree a ha).1

theorem inv_of_run {ops : List PoolOp} (hrun : run PoolRun.step ops init = some s) : s.Inv := by
  apply run_invariant Inv (G := fun _ => True) _ inv_init (fun _ _ => trivial) hrun
  intro s op s' hs _ hstep
  rw [step, ite_none_right_eq_some] at hstep
  obtain ⟨hlegal, heq⟩ := hstep
  cases heq
  exact hs.next hlegal

/-! ## What pools guarantee -/

/-- What a program can rely on in a state. -/
structure Guarantees (s : PoolRun) : Prop where
  /-- Every page is in exactly one list of one pool, or handed out. -/
  partition : s.pools.pages + s.handedOut.val = s.added.val
  /-- A page that is handed out was not handed out already. -/
  alloc : ∀ p page pools, s.live p → s.pools.alloc p = some (page, pools) →
    page ∉ s.handedOut ∧ ∃ q, s.pools.Reaches p q ∧ page ∈ s.pools.pagesOf q
  /-- `alloc_pages` hands out contiguous pages from a multiple of the alignment on. -/
  allocPages : ∀ p count align start pools, s.live p →
    s.pools.allocPages p count align = some (start, pools) →
      start % (align * pageSize) = 0 ∧ ∃ q, s.pools.Reaches p q ∧ ∀ i < count,
        start + i * pageSize ∉ s.handedOut ∧ start + i * pageSize ∈ s.pools.pagesOf q
  alloc_none : ∀ p, s.live p → s.pools.alloc p = none →
    ∀ q, s.pools.Reaches p q → s.pools.pagesOf q = 0
  freed : ∀ p op, s.Legal op →
    (∃ page, op = .free p page) ∨ (∃ addr size, op = .freePages p addr size) →
      ∀ page ∈ op.freed, page ∈ (s.next op).pools.pagesOf p
  /-- What is in the lists of a pool is not in those that its fallback reaches. -/
  withheld : ∀ p f, s.live p → (s.pools.node p).fallback = some f →
    ∀ page ∈ s.pools.pagesOf p, ∀ q, s.pools.Reaches f q → page ∉ s.pools.pagesOf q
  /-- It stays there until it is handed out or the pool is dropped. -/
  kept : ∀ p op, s.live p → s.Legal op → op ≠ .drop p → ∀ page ∈ s.pools.pagesOf p,
    page ∈ (s.next op).pools.pagesOf p ∨ page ∈ (s.next op).handedOut
  dropped : ∀ p f, s.Legal (.drop p) → (s.pools.node p).fallback = some f →
    (s.next (.drop p)).pools.pagesOf f = s.pools.pagesOf f + s.pools.pagesOf p

theorem Inv.lt_of_reaches (h : s.Inv) (hp : s.live p) {q : Nat} (hq : s.pools.Reaches p q) :
    q < s.pools.count :=
  (hq.le h.sound.older).trans_lt (h.sound.lt p hp)

theorem mem_pages_of_lt {start count i : Nat} (hi : i < count) :
    start + i * pageSize ∈ (Chunk.mk start count).pages := by
  rw [Chunk.pages, Multiset.mem_coe]
  exact List.mem_map_of_mem (f := fun i => start + i * pageSize) (List.mem_range.mpr hi)

/-- What is taken from the lists of a pool is handed out. -/
theorem kept_of_alloc {q : Nat} {pool : Pool} {run : Chunk} {pools : Pools}
    (hstep : s.pools.step op = (some run, pools)) (hset : pools = s.pools.setPool q pool)
    (hpages : s.pools.pagesOf q = run.pages + pool.pages) {page : Nat}
    (hpage : page ∈ s.pools.pagesOf p) :
    page ∈ (s.next op).pools.pagesOf p ∨ page ∈ (s.next op).handedOut := by
  have hpools : (s.next op).pools = s.pools.setPool q pool := by
    rw [← hset]
    exact congrArg Prod.snd hstep
  rw [hpools]
  by_cases hpq : p = q
  · subst hpq
    rw [hpages, Multiset.mem_add] at hpage
    obtain hpage | hpage := hpage
    · right
      apply mem_union_right
      rw [← mem_val, got_of_step (congrArg Prod.fst hstep)]
      exact hpage
    · left
      rw [Pools.pagesOf_setPool_self]
      exact hpage
  · left
    rw [Pools.pagesOf_setPool_of_ne hpq]
    exact hpage

theorem mem_setPool_of_le {q : Nat} {pool : Pool} (hle : s.pools.pagesOf q ≤ pool.pages)
    {page : Nat} (hpage : page ∈ s.pools.pagesOf p) :
    page ∈ (s.pools.setPool q pool).pagesOf p := by
  by_cases hpq : p = q
  · subst hpq
    rw [Pools.pagesOf_setPool_self]
    exact Multiset.mem_of_le hle hpage
  · rw [Pools.pagesOf_setPool_of_ne hpq]
    exact hpage

theorem Inv.kept (h : s.Inv) (hp : s.live p) (hlegal : s.Legal op) (hne : op ≠ .drop p)
    {page : Nat} (hpage : page ∈ s.pools.pagesOf p) :
    page ∈ (s.next op).pools.pagesOf p ∨ page ∈ (s.next op).handedOut := by
  have hnew : ∀ fallback, page ∈ (s.pools.newPool fallback).pagesOf p := by
    intro fallback
    have hne : p ≠ s.pools.count := (h.sound.lt p hp).ne
    simpa [Pools.pagesOf, Pools.newPool, hne] using hpage
  cases op with
  | new => exact Or.inl (hnew none)
  | newWithFallback f => exact Or.inl (hnew (some f))
  | alloc q =>
    cases halloc : s.pools.alloc q with
    | none =>
      left
      rwa [PoolRun.next, Pools.step, halloc]
    | some r =>
      obtain ⟨_, pools⟩ := r
      obtain ⟨-, -, q', pool, -, hpages, hset⟩ := h.alloc_spec hlegal halloc
      exact kept_of_alloc (by rw [Pools.step, halloc]) hset hpages hpage
  | allocPages q count align =>
    cases halloc : s.pools.allocPages q count align with
    | none =>
      left
      rwa [PoolRun.next, Pools.step, halloc]
    | some r =>
      obtain ⟨_, pools⟩ := r
      obtain ⟨-, -, -, q', pool, -, hpages, hset⟩ := h.allocPages_spec hlegal.1 halloc
      exact kept_of_alloc (by rw [Pools.step, halloc]) hset hpages hpage
  | free q page' =>
    left
    apply mem_setPool_of_le _ hpage
    rw [Pool.pages_free]
    exact Multiset.le_cons_self _ _
  | freePages q addr size =>
    left
    apply mem_setPool_of_le _ hpage
    rw [Pool.pages_freePages]
    exact Multiset.le_add_left _ _
  | drop q =>
    left
    obtain ⟨f, hf⟩ := isSome_iff_exists.mp hlegal.2.1
    have hpq : p ≠ q := fun heq => hne (heq ▸ rfl)
    have hdrop := (h.drop_spec hlegal hf).2.2 p hpq
    change page ∈ (s.pools.drop q).pagesOf p
    rw [hdrop]
    split
    · rename_i hpf
      rw [← hpf]
      exact Multiset.mem_add.mpr (Or.inl hpage)
    · exact hpage

/-- In every run the pools guarantee that pages are handed out once, where they are
freed to is where they stay, and only empty pools fail. -/
theorem pools_guarantee {ops : List PoolOp} (hrun : run PoolRun.step ops init = some s) :
    s.Guarantees := by
  have h := inv_of_run hrun
  constructor
  · exact h.partition
  · intro p page pools hp halloc
    obtain ⟨-, -, q, pool, hq, hpages, -⟩ := h.alloc_spec hp halloc
    have hmem : page ∈ s.pools.pagesOf q := by
      rw [hpages]
      exact Multiset.mem_add.mpr (Or.inl (by simp [Chunk.pages]))
    exact ⟨h.notMem_handedOut (Pools.mem_pages_of_mem (h.lt_of_reaches hp hq) hmem), q, hq, hmem⟩
  · intro p count align start pools hp halloc
    obtain ⟨-, -, hstart, q, pool, hq, hpages, -⟩ := h.allocPages_spec hp halloc
    refine ⟨hstart, q, hq, ?_⟩
    intro i hi
    have hmem : start + i * pageSize ∈ s.pools.pagesOf q := by
      rw [hpages]
      exact Multiset.mem_add.mpr (Or.inl (mem_pages_of_lt hi))
    exact ⟨h.notMem_handedOut (Pools.mem_pages_of_mem (h.lt_of_reaches hp hq) hmem), hmem⟩
  · intro p _ hnone q hq
    exact (Pool.alloc_eq_none (h.sound.wf q)).mp
      (Pools.allocWith_eq_none h.sound.older (Nat.lt_succ_self p) hnone hq)
  · rintro p op - (⟨page, rfl⟩ | ⟨addr, size, rfl⟩) a ha
    · change a ∈ (s.pools.setPool p _).pagesOf p
      rw [Pools.pagesOf_setPool_self, Pool.pages_free, Finset.mem_singleton.mp ha]
      exact Multiset.mem_cons_self _ _
    · change a ∈ (s.pools.setPool p _).pagesOf p
      rw [Pools.pagesOf_setPool_self, Pool.pages_freePages]
      exact Multiset.mem_add.mpr (Or.inl (Multiset.mem_toFinset.mp ha))
  · intro p f hp hf page hpage q hq hmem
    have hlt : q < p := (hq.le h.sound.older).trans_lt (h.sound.older p f hf)
    have hcount := h.sound.lt p hp
    exact absurd (h.eq_of_mem hcount (hlt.trans hcount) hpage hmem) hlt.ne'
  · intro p op hp hlegal hne page hpage
    exact h.kept hp hlegal hne hpage
  · intro p f hlegal hf
    have hne : f ≠ p := (h.sound.older p f hf).ne
    exact ((h.drop_spec hlegal hf).2.2 f hne).trans (if_pos rfl)

/-- A page goes from the fallback to a pool and back. -/
def borrowOps : List PoolOp :=
  [.new, .freePages 0 0x1000 3, .newWithFallback 0, .alloc 1, .allocPages 1 2 2, .free 1 0x1000,
    .drop 1]

theorem pools_guarantee_borrow :
    ∃ s, run PoolRun.step borrowOps init = some s ∧ s.handedOut = {0x2000, 0x3000} ∧
      s.Guarantees := by
  have hout : (run PoolRun.step borrowOps init).map handedOut = some {0x2000, 0x3000} := by
    decide +kernel
  obtain ⟨s, hs, hhanded⟩ := map_eq_some_iff.mp hout
  exact ⟨s, hs, hhanded, pools_guarantee hs⟩

end PoolRun
end Hafnium
