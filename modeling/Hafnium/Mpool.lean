import Hafnium.Mm.Addr
import Hafnium.Arch.Encoding

/-!
# The page pool

`mpool.rs`.  A pool keeps single free pages in `entry_list` and runs of
contiguous free pages in `chunk_list`; both are intrusive lists (`slist.rs`) used as
stacks, here lists: the links are in free pages, which nothing else accesses.  An
`MPool` is a pool together with the pools behind its `fallback` pointer: allocation falls
through to them, freeing never does.
-/

namespace Hafnium

open Multiset Option

/-- A run of free pages: its address and its size in pages. -/
structure Chunk where
  addr : Nat
  size : Nat
  deriving DecidableEq, Repr

structure Pool where
  chunkList : List Chunk
  entryList : List Nat
  deriving DecidableEq, Repr

namespace Pool

def new : Pool := ⟨[], []⟩

/-- Allocates a page: the last freed page if there is one, else the first page
of the first chunk. -/
def alloc (self : Pool) : Option (Nat × Pool) :=
  match self.entryList with
  | entry :: entries => some (entry, { self with entryList := entries })
  | [] =>
    match self.chunkList with
    | [] => none
    | chunk :: chunks =>
      if chunk.size > 1 then
        some (chunk.addr,
          { self with chunkList := ⟨chunk.addr + pageSize, chunk.size - 1⟩ :: chunks })
      else some (chunk.addr, { self with chunkList := chunks })

/-- `round_up` of `utils.rs`. -/
def roundUp (a b : Nat) : Nat := (a + b - 1) / b * b

/-- `List::pop_if_some`: removes the first element for which `cond` yields a
result. -/
def popIfSome {α ρ : Type} (cond : α → Option ρ) : List α → Option (α × ρ × List α)
  | [] => none
  | x :: xs =>
    match cond x with
    | some r => some (x, r, xs)
    | none => (popIfSome cond xs).map fun (y, r, ys) => (y, r, x :: ys)

/-- Where an allocation of `size` pages aligned to `align` pages would sit in a
chunk, if it fits. -/
def placeIn (size align : Nat) (chunk : Chunk) : Option (Nat × Nat) :=
  let chunkEnd := chunk.addr + chunk.size * pageSize
  let start := roundUp chunk.addr (align * pageSize)
  let stop := start + size * pageSize
  if chunk.addr ≤ start ∧ start ≤ stop ∧ stop ≤ chunkEnd then some (start, stop) else none

/-- Allocates a number of contiguous and aligned pages; returns the address of
the first. -/
def allocPages (self : Pool) (size align : Nat) : Option (Nat × Pool) :=
  if size = 1 ∧ align = 1 then self.alloc
  else
    match popIfSome (placeIn size align) self.chunkList with
    | none => none
    | some (chunk, (start, stop), chunks) =>
      let chunkEnd := chunk.addr + chunk.size * pageSize
      -- the part of the chunk below the allocation goes back
      let chunks :=
        if chunk.addr < start then ⟨chunk.addr, (start - chunk.addr) / pageSize⟩ :: chunks
        else chunks
      -- and so does the part above it
      let chunks :=
        if stop < chunkEnd then ⟨stop, (chunkEnd - stop) / pageSize⟩ :: chunks else chunks
      some (start, { self with chunkList := chunks })

def free (self : Pool) (page : Nat) : Pool :=
  { self with entryList := page :: self.entryList }

def freePages (self : Pool) (addr size : Nat) : Pool :=
  { self with chunkList := ⟨addr, size⟩ :: self.chunkList }

end Pool

/-- A pool and the chain of pools behind its fallback pointer. -/
structure MPool where
  pool : Pool
  fallback : List Pool
  deriving DecidableEq, Repr

namespace MPool

/-- A pool without a fallback. -/
def ofPool (pool : Pool) : MPool := ⟨pool, []⟩

def newWithFallback (fallback : MPool) : MPool := ⟨Pool.new, fallback.pool :: fallback.fallback⟩

/-- Tries each pool of a chain in turn. -/
def allocFrom {ρ : Type} (op : Pool → Option (ρ × Pool)) : List Pool → Option (ρ × List Pool)
  | [] => none
  | p :: ps =>
    match op p with
    | some (r, p') => some (r, p' :: ps)
    | none => (allocFrom op ps).map fun (r, ps') => (r, p :: ps')

def allocWith {ρ : Type} (op : Pool → Option (ρ × Pool)) (self : MPool) : Option (ρ × MPool) :=
  match op self.pool with
  | some (r, pool) => some (r, { self with pool })
  | none => (allocFrom op self.fallback).map fun (r, fallback) => (r, { self with fallback })

def alloc (self : MPool) : Option (Nat × MPool) := self.allocWith Pool.alloc

def allocPages (self : MPool) (count align : Nat) : Option (Nat × MPool) :=
  self.allocWith fun p => p.allocPages count align

def free (self : MPool) (page : Nat) : MPool := { self with pool := self.pool.free page }

def freePages (self : MPool) (addr size : Nat) : MPool :=
  { self with pool := self.pool.freePages addr size }

/-- Dropping a pool gives its free pages, one by one, to its fallback; the
result is the fallback.  A pool without fallback loses its pages. -/
def drop (self : MPool) : Option MPool :=
  match self.fallback with
  | [] => none
  | fb :: rest =>
    some ⟨{ chunkList := self.pool.chunkList.foldl (fun cs c => c :: cs) fb.chunkList
            entryList := self.pool.entryList.foldl (fun es e => e :: es) fb.entryList }, rest⟩

end MPool

/-! ## The free pages of a pool -/

namespace Chunk

/-- The pages of a run. -/
def pages (c : Chunk) : Multiset Nat :=
  ((List.range c.size).map fun i => c.addr + i * pageSize : List Nat)

theorem pages_succ (addr n : Nat) :
    (Chunk.mk addr (n + 1)).pages = addr ::ₘ (Chunk.mk (addr + pageSize) n).pages := by
  simp only [pages, List.range_succ_eq_map, List.map_cons, List.map_map, Nat.zero_mul,
    Nat.add_zero, cons_coe]
  congr 2
  apply List.map_congr_left
  intro i _
  rw [Function.comp_apply, Nat.succ_mul]
  ring

/-- A run splits at any page. -/
theorem pages_add (addr m n : Nat) : (Chunk.mk addr (m + n)).pages =
      (Chunk.mk addr m).pages + (Chunk.mk (addr + m * pageSize) n).pages := by
  induction m generalizing addr with
  | zero => simp [pages]
  | succ m ih =>
    rw [show m + 1 + n = m + n + 1 by ring, pages_succ, pages_succ, ih, cons_add]
    congr 4
    ring

end Chunk

namespace Pool

def pages (p : Pool) : Multiset Nat := p.entryList + (p.chunkList.map Chunk.pages).sum

/-- No run is empty. -/
def Wf (p : Pool) : Prop := ∀ c ∈ p.chunkList, 0 < c.size

@[simp] theorem pages_new : new.pages = 0 := rfl

theorem wf_new : new.Wf := by simp [Wf, new]

theorem pages_free (p : Pool) (page : Nat) : (p.free page).pages = page ::ₘ p.pages := by
  simp [pages, free, ← cons_coe]

theorem wf_free {p : Pool} (h : p.Wf) (page : Nat) : (p.free page).Wf := h

theorem pages_freePages (p : Pool) (addr size : Nat) :
    (p.freePages addr size).pages = (Chunk.mk addr size).pages + p.pages := by
  simp only [pages, freePages, List.map_cons, List.sum_cons]
  rw [add_left_comm]

theorem alloc_spec {p p' : Pool} {page : Nat} (hwf : p.Wf) (h : p.alloc = some (page, p')) :
    p.pages = page ::ₘ p'.pages ∧ p'.Wf := by
  obtain ⟨chunks, entries⟩ := p
  cases entries with
  | cons e es =>
    simp only [alloc, some.injEq, Prod.mk.injEq] at h
    obtain ⟨rfl, rfl⟩ := h
    exact ⟨by simp [pages, ← cons_coe], hwf⟩
  | nil =>
    cases chunks with
    | nil => simp [alloc] at h
    | cons c cs =>
      have hc : 0 < c.size := hwf c (by simp)
      have hcs : ∀ d ∈ cs, 0 < d.size := fun d hd => hwf d (by simp [hd])
      obtain ⟨addr, size⟩ := c
      obtain ⟨n, rfl⟩ : ∃ n, size = n + 1 := ⟨size - 1, by simp only at hc; omega⟩
      simp only [alloc] at h
      split at h
      · rename_i hn
        simp only [some.injEq, Prod.mk.injEq] at h
        obtain ⟨rfl, rfl⟩ := h
        refine ⟨by simp [pages, Chunk.pages_succ], ?_⟩
        intro d hd
        rcases List.mem_cons.mp hd with rfl | hd
        · simp only; omega
        · exact hcs d hd
      · rename_i hn
        simp only [some.injEq, Prod.mk.injEq] at h
        obtain ⟨rfl, rfl⟩ := h
        have hn0 : n = 0 := by omega
        subst hn0
        exact ⟨by simp [pages, Chunk.pages], hcs⟩

theorem alloc_eq_none {p : Pool} (hwf : p.Wf) : p.alloc = none ↔ p.pages = 0 := by
  obtain ⟨chunks, entries⟩ := p
  cases entries with
  | cons e es => simp [alloc, pages, ← cons_coe]
  | nil =>
    cases chunks with
    | nil => simp [alloc, pages]
    | cons c cs =>
      have hc : 0 < c.size := hwf c (by simp)
      obtain ⟨addr, size⟩ := c
      obtain ⟨n, rfl⟩ : ∃ n, size = n + 1 := ⟨size - 1, by simp only at hc; omega⟩
      simp only [alloc, pages, List.map_cons, List.sum_cons, Chunk.pages_succ]
      constructor
      · intro h
        split at h <;> simp at h
      · intro h
        simp at h

theorem popIfSome_spec {α ρ : Type} {cond : α → Option ρ} {l : List α} {x : α} {r : ρ}
    {rest : List α} (h : popIfSome cond l = some (x, r, rest)) :
    l.Perm (x :: rest) ∧ cond x = some r := by
  induction l generalizing rest with
  | nil => simp [popIfSome] at h
  | cons y ys ih =>
    simp only [popIfSome] at h
    split at h
    · rename_i r' hr'
      simp only [some.injEq, Prod.mk.injEq] at h
      obtain ⟨rfl, rfl, rfl⟩ := h
      exact ⟨List.Perm.refl _, hr'⟩
    · simp only [map_eq_some_iff] at h
      obtain ⟨⟨z, r', zs⟩, hz, heq⟩ := h
      simp only [Prod.mk.injEq] at heq
      obtain ⟨rfl, rfl, rfl⟩ := heq
      obtain ⟨hperm, hcond⟩ := ih hz
      exact ⟨(hperm.cons y).trans (List.Perm.swap _ _ _), hcond⟩

/-- Putting a run back only when it is not empty still accounts for all of it. -/
theorem sum_pushIf {c : Prop} [Decidable c] {run : Chunk} (cs : List Chunk)
    (h : ¬c → run.size = 0) :
    ((if c then run :: cs else cs).map Chunk.pages).sum = run.pages + (cs.map Chunk.pages).sum := by
  split
  · simp
  · rename_i hc
    simp [Chunk.pages, h hc]

theorem wf_pushIf {c : Prop} [Decidable c] {run : Chunk} {cs : List Chunk}
    (h : c → 0 < run.size) (hcs : ∀ d ∈ cs, 0 < d.size) :
    ∀ d ∈ (if c then run :: cs else cs), 0 < d.size := by
  split
  · rename_i hc
    intro d hd
    rcases List.mem_cons.mp hd with rfl | hd
    · exact h hc
    · exact hcs d hd
  · exact hcs

/-- The run handed out by `alloc_pages` and the parts put back are exactly the
chunk that was taken. -/
theorem allocPages_spec {p p' : Pool} {size align start : Nat} (hwf : p.Wf)
    (hpages : ∀ a ∈ p.pages, a % pageSize = 0)
    (h : p.allocPages size align = some (start, p')) :
    p.pages = (Chunk.mk start size).pages + p'.pages ∧ p'.Wf := by
  rw [allocPages] at h
  split at h
  · rename_i hone
    obtain ⟨hp, hw⟩ := alloc_spec hwf h
    rw [hone.1]
    exact ⟨by simpa [Chunk.pages] using hp, hw⟩
  · split at h
    · simp at h
    rename_i chunk start' stop chunks hpop
    obtain ⟨hperm, hplace⟩ := popIfSome_spec hpop
    simp only [some.injEq, Prod.mk.injEq] at h
    obtain ⟨rfl, rfl⟩ := h
    obtain ⟨addr, n⟩ := chunk
    have hn : 0 < n := hwf ⟨addr, n⟩ (hperm.symm.subset (by simp))
    have hwf' : ∀ c ∈ chunks, 0 < c.size := fun c hc => hwf c (hperm.symm.subset (by simp [hc]))
    have hpgs : p.pages = (Chunk.mk addr n).pages +
        (p.entryList + (chunks.map Chunk.pages).sum) := by
      rw [pages, (hperm.map Chunk.pages).sum_eq, List.map_cons, List.sum_cons]
      exact add_left_comm _ _ _
    have haddr : addr % 4096 = 0 := by
      apply hpages
      rw [hpgs, mem_add]
      obtain ⟨m, rfl⟩ : ∃ m, n = m + 1 := ⟨n - 1, by omega⟩
      exact Or.inl (by rw [Chunk.pages_succ]; exact mem_cons_self _ _)
    -- where the allocation sits inside the chunk, counted in pages
    simp only [placeIn, ite_none_right_eq_some, some.injEq, Prod.mk.injEq] at hplace
    obtain ⟨hfit, hstart, hstop⟩ := hplace
    have hmod : start' % 4096 = 0 := by
      rw [← hstart, roundUp, pageSize_eq, ← Nat.mul_assoc, Nat.mul_mod_left]
    rw [hstart] at hfit hstop
    simp only [pageSize_eq] at hfit hstop ⊢
    subst hstop
    obtain ⟨k, rfl⟩ : ∃ k, start' = addr + k * 4096 := ⟨(start' - addr) / 4096, by omega⟩
    obtain ⟨m, rfl⟩ : ∃ m, n = k + (size + m) := ⟨n - k - size, by omega⟩
    have hlow : (addr + k * 4096 - addr) / 4096 = k := by omega
    have hhigh : (addr + (k + (size + m)) * 4096 - (addr + k * 4096 + size * 4096)) / 4096 = m := by
      clear * -
      omega
    simp only [hlow, hhigh]
    constructor
    · rw [hpgs, Chunk.pages_add, Chunk.pages_add, pages,
        sum_pushIf _ (by simp only; omega), sum_pushIf _ (by simp only; omega)]
      rw [pageSize_eq]
      generalize (Chunk.mk addr k).pages = low
      generalize (Chunk.mk (addr + k * 4096) size).pages = mid
      generalize (Chunk.mk (addr + k * 4096 + size * 4096) m).pages = high
      abel
    · exact wf_pushIf (by simp only; omega) (wf_pushIf (by simp only; omega) hwf')

end Pool

namespace MPool

/-- All pages that an allocation can reach. -/
def pages (m : MPool) : Multiset Nat := m.pool.pages + (m.fallback.map Pool.pages).sum

/-- Number of pages that can still be allocated. -/
def count (m : MPool) : Nat := m.pages.card

/-- No run is empty and every free page can be addressed by an entry. -/
structure Wf (m : MPool) : Prop where
  pool : m.pool.Wf
  fallback : ∀ p ∈ m.fallback, p.Wf
  isPa : ∀ a ∈ m.pages, Aarch64.IsPa a

theorem allocFrom_spec {ρ : Type} {op : Pool → Option (ρ × Pool)} {Q : ρ → Multiset Nat}
    {ps ps' : List Pool} {r : ρ}
    (hop : ∀ p ∈ ps, ∀ r p', op p = some (r, p') → p.pages = Q r + p'.pages ∧ p'.Wf)
    (hwf : ∀ p ∈ ps, p.Wf) (h : allocFrom op ps = some (r, ps')) :
    (ps.map Pool.pages).sum = Q r + (ps'.map Pool.pages).sum ∧ ∀ p ∈ ps', p.Wf := by
  induction ps generalizing ps' with
  | nil => simp [allocFrom] at h
  | cons p ps ih =>
    simp only [allocFrom] at h
    split at h
    · rename_i r' p' hp'
      simp only [some.injEq, Prod.mk.injEq] at h
      obtain ⟨rfl, rfl⟩ := h
      obtain ⟨hpages, hw⟩ := hop p (by simp) r' p' hp'
      refine ⟨by simp [hpages, add_assoc], ?_⟩
      intro q hq
      rcases List.mem_cons.mp hq with rfl | hq
      · exact hw
      · exact hwf q (by simp [hq])
    · simp only [map_eq_some_iff] at h
      obtain ⟨⟨r', qs⟩, hqs, heq⟩ := h
      simp only [Prod.mk.injEq] at heq
      obtain ⟨rfl, rfl⟩ := heq
      obtain ⟨hsum, hw⟩ := ih (fun q hq => hop q (by simp [hq]))
        (fun q hq => hwf q (by simp [hq])) hqs
      refine ⟨by simp only [List.map_cons, List.sum_cons, hsum]; exact add_left_comm _ _ _, ?_⟩
      intro q hq
      rcases List.mem_cons.mp hq with rfl | hq
      · exact hwf q (by simp)
      · exact hw q hq
variable {m m' : MPool}

theorem allocWith_spec {ρ : Type} {op : Pool → Option (ρ × Pool)} {Q : ρ → Multiset Nat}
    {r : ρ} (hwf : m.Wf)
    (hop : ∀ p, p.Wf → (∀ a ∈ p.pages, a % pageSize = 0) → ∀ r p', op p = some (r, p') →
      p.pages = Q r + p'.pages ∧ p'.Wf)
    (h : m.allocWith op = some (r, m')) :
    m.pages = Q r + m'.pages ∧ m'.Wf := by
  have hmod : ∀ a ∈ m.pages, a % pageSize = 0 := fun a ha => (hwf.isPa a ha).aligned
  have hpages : m.pages = Q r + m'.pages ∧ m'.pool.Wf ∧ ∀ p ∈ m'.fallback, p.Wf := by
    simp only [allocWith] at h
    split at h
    · rename_i r' p' hp'
      simp only [some.injEq, Prod.mk.injEq] at h
      obtain ⟨rfl, rfl⟩ := h
      obtain ⟨hp, hw⟩ := hop m.pool hwf.pool
        (fun a ha => hmod a (by simp [pages, ha])) r' p' hp'
      exact ⟨by simp [pages, hp, add_assoc], hw, hwf.fallback⟩
    · simp only [map_eq_some_iff] at h
      obtain ⟨⟨r', ps⟩, hps, heq⟩ := h
      simp only [Prod.mk.injEq] at heq
      obtain ⟨rfl, rfl⟩ := heq
      obtain ⟨hsum, hw⟩ := allocFrom_spec (Q := Q) (fun p hp => hop p (hwf.fallback p hp) (by
        intro a ha
        apply hmod
        rw [pages, mem_add]
        exact Or.inr (mem_of_le
          (List.single_le_sum (fun _ _ => bot_le) _ (List.mem_map_of_mem hp)) ha)))
        hwf.fallback hps
      exact ⟨by simp only [pages, hsum]; exact add_left_comm _ _ _, hwf.pool, hw⟩
  refine ⟨hpages.1, hpages.2.1, hpages.2.2, ?_⟩
  intro a ha
  apply hwf.isPa
  rw [hpages.1]
  exact mem_add.mpr (Or.inr ha)

/-- An allocated page leaves the pool. -/
theorem alloc_spec {page : Nat} (hwf : m.Wf) (h : m.alloc = some (page, m')) :
    m.pages = {page} + m'.pages ∧ m'.Wf :=
  allocWith_spec (Q := fun page => {page}) hwf
    (fun p hp _ r p' hr => by
      obtain ⟨hpages, hw⟩ := Pool.alloc_spec hp hr
      exact ⟨by rw [hpages, singleton_add], hw⟩) h

theorem allocPages_spec {size align start : Nat} (hwf : m.Wf)
    (h : m.allocPages size align = some (start, m')) :
    m.pages = (Chunk.mk start size).pages + m'.pages ∧ m'.Wf :=
  allocWith_spec (Q := fun start => (Chunk.mk start size).pages) hwf
    (fun _ hp hmod _ _ hr => Pool.allocPages_spec hp hmod hr) h

theorem isPa_of_alloc {page : Nat} (hwf : m.Wf)
    (h : m.alloc = some (page, m')) : Aarch64.IsPa page := by
  apply hwf.isPa
  rw [(alloc_spec hwf h).1]
  simp

theorem count_alloc {page : Nat} (hwf : m.Wf)
    (h : m.alloc = some (page, m')) : m.count = m'.count + 1 := by
  rw [count, (alloc_spec hwf h).1, card_add, card_singleton, count, Nat.add_comm]

theorem allocFrom_eq_none {ps : List Pool} (hwf : ∀ p ∈ ps, p.Wf)
    (h : allocFrom Pool.alloc ps = none) : (ps.map Pool.pages).sum = 0 := by
  induction ps with
  | nil => rfl
  | cons p ps ih =>
    simp only [allocFrom] at h
    split at h
    · simp at h
    · rename_i hnone
      simp only [map_eq_none_iff] at h
      rw [List.map_cons, List.sum_cons, (Pool.alloc_eq_none (hwf p (by simp))).mp hnone,
        ih (fun q hq => hwf q (by simp [hq])) h, add_zero]

/-- Allocation only fails when no page is left anywhere. -/
theorem count_eq_zero_of_alloc {m : MPool} (hwf : m.Wf) (h : m.alloc = none) : m.count = 0 := by
  simp only [alloc, allocWith] at h
  split at h
  · simp at h
  · rename_i hnone
    simp only [map_eq_none_iff] at h
    rw [count, pages, (Pool.alloc_eq_none hwf.pool).mp hnone, allocFrom_eq_none hwf.fallback h]
    rfl

theorem pages_free (m : MPool) (page : Nat) : (m.free page).pages = {page} + m.pages := by
  simp only [pages, free, Pool.pages_free, cons_add, singleton_add]

theorem wf_free {m : MPool} (hwf : m.Wf) {page : Nat} (hpage : Aarch64.IsPa page) :
    (m.free page).Wf := by
  refine ⟨Pool.wf_free hwf.pool page, hwf.fallback, ?_⟩
  intro a ha
  rw [pages_free, mem_add, mem_singleton] at ha
  rcases ha with rfl | ha
  · exact hpage
  · exact hwf.isPa a ha

theorem pages_freePages (m : MPool) (addr size : Nat) :
    (m.freePages addr size).pages = (Chunk.mk addr size).pages + m.pages := by
  simp only [pages, freePages, Pool.pages_freePages, add_assoc]

theorem wf_freePages {m : MPool} (hwf : m.Wf) {addr size : Nat} (hsize : 0 < size)
    (hpage : ∀ a ∈ (Chunk.mk addr size).pages, Aarch64.IsPa a) :
    (m.freePages addr size).Wf := by
  refine ⟨?_, hwf.fallback, ?_⟩
  · intro c hc
    rcases List.mem_cons.mp hc with rfl | hc
    · exact hsize
    · exact hwf.pool c hc
  · intro a ha
    rw [pages_freePages, mem_add] at ha
    exact ha.elim (hpage a) (hwf.isPa a)

/-- `m'` is `m` with pages freed to it: those go to the pool itself, one by one, and not
to its fallback. -/
structure FreedTo (m m' : MPool) : Prop where
  wf : m.Wf → m'.Wf
  grows : m.pages ≤ m'.pages
  chunkList : m'.pool.chunkList = m.pool.chunkList
  fallback : m'.fallback = m.fallback

theorem FreedTo.refl (m : MPool) : FreedTo m m := ⟨id, le_rfl, rfl, rfl⟩

theorem FreedTo.trans {m₁ m₂ m₃ : MPool} (h : FreedTo m₁ m₂) (h' : FreedTo m₂ m₃) : FreedTo m₁ m₃ :=
  ⟨fun hwf => h'.wf (h.wf hwf), h.grows.trans h'.grows, h'.chunkList.trans h.chunkList,
    h'.fallback.trans h.fallback⟩

theorem freedTo_free (m : MPool) {page : Nat} (hpage : Aarch64.IsPa page) :
    FreedTo m (m.free page) :=
  ⟨fun hwf => wf_free hwf hpage, by rw [pages_free]; exact le_add_left _ _, rfl, rfl⟩

/-- Operations that each give some pages to a pool, one after the other. -/
theorem foldl_give {ι : Type} {g : ι → MPool → MPool} {given : ι → Multiset Nat}
    (h : ∀ i m, (g i m).pages = given i + m.pages ∧ FreedTo m (g i m)) (l : List ι) (m : MPool) :
    (l.foldl (fun m i => g i m) m).pages = (l.map given).sum + m.pages ∧
      FreedTo m (l.foldl (fun m i => g i m) m) := by
  induction l generalizing m with
  | nil => exact ⟨by simp, .refl m⟩
  | cons i l ih =>
    obtain ⟨hpages, hfreed⟩ := ih (g i m)
    rw [List.foldl_cons, hpages, (h i m).1, List.map_cons, List.sum_cons]
    exact ⟨by abel, (h i m).2.trans hfreed⟩

/-- The pool after a number of pages have been allocated. -/
def draw : Nat → MPool → MPool
  | 0, m => m
  | n + 1, m => ((m.draw n).alloc.map Prod.snd).getD (m.draw n)

theorem draw_draw (m : MPool) (n k : Nat) : (m.draw n).draw k = m.draw (n + k) := by
  induction k with
  | zero => rfl
  | succ k ih => rw [draw, ih, ← Nat.add_assoc, draw]

/-- `m'` is `m` with pages allocated from it, one by one. -/
structure Drawn (m m' : MPool) : Prop where
  wf : m'.Wf
  draws : ∃ k, m' = m.draw k ∧ m'.count + k = m.count

theorem Drawn.refl {m : MPool} (hwf : m.Wf) : Drawn m m := ⟨hwf, 0, rfl, rfl⟩

theorem Drawn.trans {m₁ m₂ m₃ : MPool} (h : Drawn m₁ m₂) (h' : Drawn m₂ m₃) : Drawn m₁ m₃ := by
  obtain ⟨k, rfl, hk⟩ := h.draws
  obtain ⟨n, rfl, hn⟩ := h'.draws
  exact ⟨h'.wf, k + n, draw_draw m₁ k n, by omega⟩

theorem drawn_alloc {page : Nat} (hwf : m.Wf) (h : m.alloc = some (page, m')) : Drawn m m' := by
  refine ⟨(alloc_spec hwf h).2, 1, ?_, (count_alloc hwf h).symm⟩
  rw [draw, draw, h]
  rfl

theorem pages_newWithFallback (m : MPool) : (newWithFallback m).pages = m.pages := by
  simp [pages, newWithFallback]

theorem wf_newWithFallback {m : MPool} (hwf : m.Wf) : (newWithFallback m).Wf := by
  refine ⟨Pool.wf_new, ?_, by rw [pages_newWithFallback]; exact hwf.isPa⟩
  intro p hp
  rcases List.mem_cons.mp hp with rfl | hp
  · exact hwf.pool
  · exact hwf.fallback p hp

theorem foldl_push {α : Type} (xs ys : List α) :
    xs.foldl (fun acc x => x :: acc) ys = xs.reverse ++ ys := by
  induction xs generalizing ys with
  | nil => rfl
  | cons x xs ih => simp [ih]

/-- Merging a pool into its fallback keeps every free page. -/
theorem pages_drop (h : m.drop = some m') : m'.pages = m.pages := by
  obtain ⟨pool, fallback⟩ := m
  cases fallback with
  | nil => simp [drop] at h
  | cons fb rest =>
    simp only [drop, some.injEq] at h
    subst h
    simp only [pages, Pool.pages, foldl_push, ← coe_add, coe_reverse,
      List.map_append, List.map_reverse, List.sum_append, List.sum_reverse, List.map_cons,
      List.sum_cons]
    abel

theorem wf_drop (hwf : m.Wf) (h : m.drop = some m') : m'.Wf := by
  have hpages := pages_drop h
  obtain ⟨pool, fallback⟩ := m
  cases fallback with
  | nil => simp [drop] at h
  | cons fb rest =>
    simp only [drop, some.injEq] at h
    refine ⟨?_, ?_, by rw [hpages]; exact hwf.isPa⟩
    · subst h
      intro c hc
      simp only [foldl_push, List.mem_append, List.mem_reverse] at hc
      rcases hc with hc | hc
      · exact hwf.pool c hc
      · exact hwf.fallback fb (by simp) c hc
    · subst h
      intro p hp
      exact hwf.fallback p (by simp [hp])

end MPool

/-- A pool whose pages can all be handed out as tables. -/
def Pool.Usable (p : Pool) : Prop := p.Wf ∧ ∀ a ∈ p.pages, Aarch64.IsPa a

theorem MPool.mem_pages {m : MPool} {a : Nat} :
    a ∈ m.pages ↔ a ∈ m.pool.pages ∨ ∃ p ∈ m.fallback, a ∈ p.pages := by
  obtain ⟨pool, fallback⟩ := m
  rw [pages, mem_add]
  refine or_congr_right ?_
  induction fallback with
  | nil => simp
  | cons p ps ih => simp only [List.map_cons, List.sum_cons, mem_add, ih,
      List.exists_mem_cons_iff]

theorem MPool.wf_iff {m : MPool} : m.Wf ↔ m.pool.Usable ∧ ∀ p ∈ m.fallback, p.Usable := by
  constructor
  · intro h
    exact ⟨⟨h.pool, fun a ha => h.isPa a (mem_pages.mpr (Or.inl ha))⟩, fun p hp =>
      ⟨h.fallback p hp, fun a ha => h.isPa a (mem_pages.mpr (Or.inr ⟨p, hp, ha⟩))⟩⟩
  · rintro ⟨hpool, hfallback⟩
    refine ⟨hpool.1, fun p hp => (hfallback p hp).1, fun a ha => ?_⟩
    rcases mem_pages.mp ha with ha | ⟨p, hp, ha⟩
    · exact hpool.2 a ha
    · exact (hfallback p hp).2 a ha

instance (p : Pool) : Decidable p.Usable :=
  inferInstanceAs (Decidable ((∀ c ∈ p.chunkList, 0 < c.size) ∧ ∀ a ∈ p.pages, Aarch64.IsPa a))

instance (m : MPool) : Decidable m.Wf := decidable_of_iff _ MPool.wf_iff.symm

end Hafnium
