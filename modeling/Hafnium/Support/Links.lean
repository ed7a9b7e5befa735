import Mathlib.Data.List.Nodup
import Mathlib.Logic.Function.Basic
import Mathlib.Tactic

/-!
# Circular doubly linked lists

Nodes with a `next` and a `prev` pointer, some of which are heads of circular
lists.  The operations are the pointer assignments of an intrusive list, in
their order.  `Represents` says that the pointers of each head go through a list
of nodes and that all other nodes are linked to themselves; every operation is
described by what it does to these lists.
-/

namespace Hafnium.Support

open Function List

/-- The pointers of all nodes. -/
structure Links (ν : Type) where
  next : ν → ν
  prev : ν → ν

namespace Links

variable {ν : Type} [DecidableEq ν]

def setNext (e e' : ν) (self : Links ν) : Links ν :=
  { self with next := update self.next e e' }

def setPrev (e e' : ν) (self : Links ν) : Links ν :=
  { self with prev := update self.prev e e' }

/-- Links a node to itself. -/
def init (e : ν) (self : Links ν) : Links ν := (self.setNext e e).setPrev e e

/-- Inserts `e` before `l`. -/
def append (l e : ν) (self : Links ν) : Links ν :=
  let self := self.setNext e l
  let self := self.setPrev e (self.prev l)
  let self := self.setPrev (self.next e) e
  self.setNext (self.prev e) e

/-- Inserts `e` after `l`. -/
def prepend (l e : ν) (self : Links ν) : Links ν :=
  let self := self.setNext e (self.next l)
  let self := self.setPrev e l
  let self := self.setPrev (self.next e) e
  self.setNext (self.prev e) e

/-- Whether a node is linked to itself. -/
def isEmpty (l : ν) (self : Links ν) : Bool := self.next l == l

def remove (e : ν) (self : Links ν) : Links ν :=
  let self := self.setNext (self.prev e) (self.next e)
  let self := self.setPrev (self.next e) (self.prev e)
  self.init e

/-- Removes the node after `l` and returns it. -/
def popFront (l : ν) (self : Links ν) : ν × Links ν := (self.next l, self.remove (self.next l))

/-! ## Pointer equations -/

variable {L L' : Links ν} {a b e : ν} {xs ys : List ν}

theorem append_next (he : e ≠ b) :
    (L.append b e).next = update (update L.next e b) (L.prev b) e := by
  simp [append, setNext, setPrev, he]

theorem append_prev : (L.append b e).prev = update (update L.prev e (L.prev b)) b e := by
  simp [append, setNext, setPrev]

theorem prepend_next (hl : L.next b ≠ e) :
    (L.prepend b e).next = update (update L.next e (L.next b)) b e := by
  simp [prepend, setNext, setPrev, hl.symm]

theorem prepend_prev : (L.prepend b e).prev = update (update L.prev e b) (L.next b) e := by
  simp [prepend, setNext, setPrev]

theorem remove_next : (L.remove e).next = update (update L.next (L.prev e) (L.next e)) e e := rfl

theorem remove_prev : (L.remove e).prev = update (update L.prev (L.next e) (L.prev e)) e e := by
  simp [remove, init, setNext, setPrev, update_apply]

/-! ## Paths -/

/-- The pointers lead from `a` through the nodes `xs` to `b` and back. -/
def Path (L : Links ν) : ν → List ν → ν → Prop
  | a, [], b => L.next a = b ∧ L.prev b = a
  | a, x :: xs, b => (L.next a = x ∧ L.prev x = a) ∧ Path L x xs b

omit [DecidableEq ν] in
theorem Path.prev_mem (h : L.Path a xs b) : L.prev b ∈ a :: xs := by
  induction xs generalizing a with
  | nil => exact mem_singleton.mpr h.2
  | cons x xs ih => exact mem_cons_of_mem _ (ih h.2)

omit [DecidableEq ν] in
theorem Path.next_mem (h : L.Path a xs b) : L.next a ∈ b :: xs := by
  cases xs with
  | nil => exact mem_singleton.mpr h.1
  | cons x xs => exact mem_cons_of_mem _ (mem_cons.mpr (Or.inl h.1.1))

omit [DecidableEq ν] in
theorem path_append : L.Path a (xs ++ e :: ys) b ↔ L.Path a xs e ∧ L.Path e ys b := by
  induction xs generalizing a with
  | nil => exact Iff.rfl
  | cons x xs ih =>
    rw [cons_append, Path, Path, ih]
    exact and_assoc.symm

omit [DecidableEq ν] in
/-- A path only depends on the pointers of its nodes. -/
theorem Path.congr (h : L.Path a xs b) (hnext : ∀ x ∈ a :: xs, L'.next x = L.next x)
    (hprev : ∀ x ∈ b :: xs, L'.prev x = L.prev x) : L'.Path a xs b := by
  induction xs generalizing a with
  | nil =>
    exact ⟨(hnext a (by simp)).trans h.1, (hprev b (by simp)).trans h.2⟩
  | cons x xs ih =>
    refine ⟨⟨(hnext a (by simp)).trans h.1.1, (hprev x (by simp)).trans h.1.2⟩,
      ih h.2 (fun y hy => hnext y (mem_cons_of_mem _ hy)) fun y hy => hprev y ?_⟩
    rcases mem_cons.mp hy with rfl | hy
    · exact mem_cons_self
    · exact mem_cons_of_mem _ (mem_cons_of_mem _ hy)

/-- The same nodes, linked the other way round. -/
def flip (L : Links ν) : Links ν := ⟨L.prev, L.next⟩

omit [DecidableEq ν] in
theorem Path.flip (h : L.Path a xs b) : L.flip.Path b xs.reverse a := by
  induction xs generalizing a with
  | nil => exact h.symm
  | cons x xs ih =>
    rw [reverse_cons, path_append]
    exact ⟨ih h.2, h.1.symm⟩

omit [DecidableEq ν] in
theorem Path.prev_next (h : L.Path a xs b) {x : ν} (hx : x ∈ a :: xs) : L.prev (L.next x) = x := by
  induction xs generalizing a with
  | nil =>
    obtain rfl := mem_singleton.mp hx
    rw [h.1, h.2]
  | cons y ys ih =>
    rcases mem_cons.mp hx with rfl | hx
    · rw [h.1.1, h.1.2]
    · exact ih h.2 hx

theorem Path.append (h : L.Path a xs b) (hnodup : (a :: xs).Nodup) (hb : b ∉ xs)
    (he : e ∉ a :: xs) (heb : e ≠ b) : (L.append b e).Path a (xs ++ [e]) b := by
  induction xs generalizing a with
  | nil =>
    obtain ⟨hnext, hprev⟩ := h
    have hea : e ≠ a := by simpa using he
    simp [Path, append_next heb, append_prev, hprev, heb, hea]
  | cons x xs ih =>
    obtain ⟨⟨hnext, hprev⟩, hrest⟩ := h
    rw [nodup_cons] at hnodup
    refine ⟨⟨?_, ?_⟩, ih hrest hnodup.2 (fun hm => hb (mem_cons_of_mem _ hm))
      fun hm => he (mem_cons_of_mem _ hm)⟩
    · -- the last node before `b` is on the rest of the path
      have hlast : a ≠ L.prev b := fun heq => hnodup.1 (heq ▸ hrest.prev_mem)
      have hea : a ≠ e := fun heq => he (heq ▸ mem_cons_self)
      rw [append_next heb, update_of_ne hlast, update_of_ne hea, hnext]
    · have hxb : x ≠ b := fun heq => hb (heq ▸ mem_cons_self)
      have hxe : x ≠ e := fun heq => he (heq ▸ mem_cons_of_mem _ mem_cons_self)
      rw [append_prev, update_of_ne hxb, update_of_ne hxe, hprev]

theorem Path.remove (h : L.Path a (xs ++ e :: ys) b) (hnodup : (a :: (xs ++ e :: ys)).Nodup)
    (hb : b ∉ xs ++ e :: ys) : (L.remove e).Path a (xs ++ ys) b := by
  induction xs generalizing a with
  | nil =>
    obtain ⟨⟨hnext, hprev⟩, hrest⟩ := h
    simp only [nil_append, nodup_cons, mem_cons, not_or] at hnodup hb ⊢
    cases ys with
    | nil =>
      obtain ⟨hnext', hprev'⟩ := hrest
      simp [Path, remove_next, remove_prev, hprev, hnext', hnodup.1.1, hb.1]
    | cons y ys =>
      obtain ⟨⟨hnext', hprev'⟩, hrest⟩ := hrest
      simp only [mem_cons, not_or, nodup_cons] at hnodup hb
      refine ⟨⟨?_, ?_⟩, hrest.congr (fun x hx => ?_) fun x hx => ?_⟩
      · simp [remove_next, hprev, hnext', hnodup.1.1]
      · simp [remove_prev, hprev, hnext', Ne.symm hnodup.2.1.1]
      · have hxa : x ≠ a := by
          rintro rfl
          rcases mem_cons.mp hx with rfl | hx
          · exact hnodup.1.2.1 rfl
          · exact hnodup.1.2.2 hx
        have hxe : x ≠ e := by
          rintro rfl
          rcases mem_cons.mp hx with rfl | hx
          · exact hnodup.2.1.1 rfl
          · exact hnodup.2.1.2 hx
        rw [remove_next, hprev, update_of_ne hxe, update_of_ne hxa]
      · have hxy : x ≠ y := by
          rintro rfl
          rcases mem_cons.mp hx with rfl | hx
          · exact hb.2.1 rfl
          · exact hnodup.2.2.1 hx
        have hxe : x ≠ e := by
          rintro rfl
          rcases mem_cons.mp hx with rfl | hx
          · exact hb.1 rfl
          · exact hnodup.2.1.2 hx
        rw [remove_prev, hnext', update_of_ne hxe, update_of_ne hxy]
  | cons x xs ih =>
    obtain ⟨⟨hnext, hprev⟩, hrest⟩ := h
    rw [cons_append, nodup_cons] at hnodup
    rw [cons_append, mem_cons, not_or] at hb
    obtain ⟨hfront, hback⟩ := path_append.mp hrest
    have hae : a ≠ e := fun heq => hnodup.1 (by simp [heq])
    have hlast : a ≠ L.prev e := by
      intro heq
      refine hnodup.1 ?_
      rw [← cons_append, heq]
      exact mem_append_left _ hfront.prev_mem
    have hdistinct := nodup_cons.mp hnodup.2
    have hxe : x ≠ e := fun heq => hdistinct.1 (by simp [heq])
    have hfirst : x ≠ L.next e := by
      intro heq
      rcases mem_cons.mp (heq ▸ hback.next_mem) with hxb | hx
      · exact hb.1 hxb.symm
      · exact hdistinct.1 (mem_append_right _ (mem_cons_of_mem _ hx))
    refine ⟨⟨?_, ?_⟩, ih hrest hnodup.2 hb.2⟩
    · rw [remove_next, update_of_ne hae, update_of_ne hlast, hnext]
    · rw [remove_prev, update_of_ne hxe, update_of_ne hfirst, hprev]

/-! ## Families of lists -/

/-- The pointers of every head go through its list and all other nodes are
linked to themselves. -/
structure Represents {ι : Type} (L : Links ν) (head : ι → ν) (lists : ι → List ν) : Prop where
  path : ∀ i, L.Path (head i) (lists i) (head i)
  nodup : ∀ i, (head i :: lists i).Nodup
  unique : ∀ i j x, x ∈ head i :: lists i → x ∈ head j :: lists j → i = j
  free : ∀ e, (∀ i, e ∉ head i :: lists i) → L.next e = e ∧ L.prev e = e

namespace Represents

variable {ι : Type} {head : ι → ν} {lists : ι → List ν} (h : L.Represents head lists)
include h

theorem isEmpty_head (i : ι) : L.isEmpty (head i) = true ↔ lists i = [] := by
  rw [isEmpty, beq_iff_eq]
  have hpath := h.path i
  have hnodup := h.nodup i
  cases hl : lists i with
  | nil =>
    rw [hl] at hpath
    exact iff_of_true hpath.1 rfl
  | cons x xs =>
    rw [hl] at hpath hnodup
    refine iff_of_false (fun heq => ?_) (cons_ne_nil x xs)
    exact (nodup_cons.mp hnodup).1 (by rw [← hpath.1.1, heq]; exact mem_cons_self)

/-- A node that is no head is linked to itself exactly if it is on no list. -/
theorem isEmpty_node (e : ν) (he : ∀ i, e ≠ head i) : L.isEmpty e = true ↔ ∀ i, e ∉ lists i := by
  rw [isEmpty, beq_iff_eq]
  constructor
  · intro heq i hmem
    obtain ⟨xs, ys, hl⟩ := append_of_mem hmem
    have hpath := h.path i
    have hnodup := h.nodup i
    rw [hl] at hpath hnodup
    have hnext := (path_append.mp hpath).2.next_mem
    rw [heq] at hnext
    rcases mem_cons.mp hnext with hhead | hys
    · exact he i hhead
    · exact (nodup_cons.mp (nodup_append.mp (nodup_cons.mp hnodup).2).2.1).1 hys
  · intro hfree
    refine (h.free e fun i hmem => ?_).1
    rcases mem_cons.mp hmem with rfl | hmem
    · exact he i rfl
    · exact hfree i hmem

variable [DecidableEq ι]

theorem append (i : ι) {e : ν} (he : ∀ j, e ∉ head j :: lists j) :
    (L.append (head i) e).Represents head (update lists i (lists i ++ [e])) := by
  have heb : e ≠ head i := fun heq => he i (heq ▸ mem_cons_self)
  have hprev := (h.path i).prev_mem
  have hmem : ∀ j x, x ∈ head j :: update lists i (lists i ++ [e]) j ↔
      x ∈ head j :: lists j ∨ (j = i ∧ x = e) := by
    intro j x
    by_cases hj : j = i
    · subst hj
      simp [or_assoc]
    · simp [hj]
  -- the nodes of other lists keep their pointers
  have hframe : ∀ x, x ≠ e → x ∉ head i :: lists i →
      (L.append (head i) e).next x = L.next x ∧ (L.append (head i) e).prev x = L.prev x := by
    intro x hxe hx
    have hlast : x ≠ L.prev (head i) := fun heq => hx (heq ▸ hprev)
    have hhead : x ≠ head i := fun heq => hx (heq ▸ mem_cons_self)
    rw [append_next heb, append_prev, update_of_ne hlast, update_of_ne hxe,
      update_of_ne hhead, update_of_ne hxe]
    exact ⟨rfl, rfl⟩
  refine ⟨fun j => ?_, fun j => ?_, fun j k x hj hk => ?_, fun x hx => ?_⟩
  · by_cases hj : j = i
    · subst hj
      rw [update_self]
      exact (h.path j).append (h.nodup j) (nodup_cons.mp (h.nodup j)).1 (he j) heb
    · rw [update_of_ne hj]
      have hother : ∀ x ∈ head j :: lists j, x ≠ e ∧ x ∉ head i :: lists i := fun x hx =>
        ⟨fun heq => he j (heq ▸ hx), fun hx' => hj (h.unique j i x hx hx')⟩
      exact (h.path j).congr (fun x hx => (hframe x (hother x hx).1 (hother x hx).2).1)
        fun x hx => (hframe x (hother x hx).1 (hother x hx).2).2
  · by_cases hj : j = i
    · subst hj
      rw [update_self, ← cons_append]
      refine nodup_append.mpr ⟨h.nodup j, nodup_singleton e, ?_⟩
      rintro x hx y hy rfl
      exact he j (mem_singleton.mp hy ▸ hx)
    · rw [update_of_ne hj]
      exact h.nodup j
  · rcases (hmem j x).mp hj with hj' | ⟨hji, hxe⟩ <;> rcases (hmem k x).mp hk with hk' | ⟨hki, hxe'⟩
    · exact h.unique j k x hj' hk'
    · exact absurd (hxe' ▸ hj') (he j)
    · exact absurd (hxe ▸ hk') (he k)
    · exact hji.trans hki.symm
  · have hx' : ∀ j, x ∉ head j :: lists j := fun j hj => hx j ((hmem j x).mpr (Or.inl hj))
    have hxe : x ≠ e := fun heq => hx i ((hmem i x).mpr (Or.inr ⟨rfl, heq⟩))
    obtain ⟨hnext, hprev⟩ := hframe x hxe (hx' i)
    rw [hnext, hprev]
    exact h.free x hx'

omit [DecidableEq ν] [DecidableEq ι] in
theorem flip : L.flip.Represents head fun i => (lists i).reverse := by
  refine ⟨fun i => (h.path i).flip, fun i => ?_, fun i j x hi hj => ?_, fun e he => ?_⟩
  · have hnodup := nodup_cons.mp (h.nodup i)
    rw [nodup_cons, mem_reverse, nodup_reverse]
    exact hnodup
  · rw [mem_cons, mem_reverse, ← mem_cons] at hi hj
    exact h.unique i j x hi hj
  · refine (h.free e fun i hi => he i ?_).symm
    rw [mem_cons, mem_reverse, ← mem_cons]
    exact hi

omit [DecidableEq ν] [DecidableEq ι] in
theorem prev_next (e : ν) : L.prev (L.next e) = e := by
  by_cases he : ∃ i, e ∈ head i :: lists i
  · obtain ⟨i, hi⟩ := he
    exact (h.path i).prev_next hi
  · have hfree := h.free e (not_exists.mp he)
    rw [hfree.1, hfree.2]

omit [DecidableEq ν] [DecidableEq ι] in
theorem next_prev (e : ν) : L.next (L.prev e) = e := h.flip.prev_next e

/-- Prepending a node that is on no list: appending it the other way round. -/
theorem prepend (i : ι) {e : ν} (he : ∀ j, e ∉ head j :: lists j) :
    (L.prepend (head i) e).Represents head (update lists i (e :: lists i)) := by
  have heb : e ≠ head i := fun heq => he i (heq ▸ mem_cons_self)
  have hfirst : L.next (head i) ≠ e := fun heq => he i (heq ▸ (h.path i).next_mem)
  have hflip : (L.flip.append (head i) e).flip = L.prepend (head i) e := by
    have hnext : (L.flip.append (head i) e).prev = (L.prepend (head i) e).next := by
      rw [append_prev, prepend_next hfirst]
      rfl
    have hprev : (L.flip.append (head i) e).next = (L.prepend (head i) e).prev := by
      rw [append_next heb, prepend_prev]
      rfl
    rw [Links.flip, hnext, hprev]
  have happend := (h.flip.append i (e := e) fun j => by
    rw [mem_cons, mem_reverse, ← mem_cons]
    exact he j).flip
  rw [hflip] at happend
  convert happend using 1
  funext j
  by_cases hj : j = i
  · subst hj
    simp
  · simp [hj]

theorem remove {i : ι} {e : ν} {xs ys : List ν} (hi : lists i = xs ++ e :: ys) :
    (L.remove e).Represents head (update lists i (xs ++ ys)) := by
  have hpath := h.path i
  have hnodup := h.nodup i
  rw [hi] at hpath hnodup
  have hnodup' := nodup_cons.mp hnodup
  obtain ⟨hfront, hback⟩ := path_append.mp hpath
  have he : e ∉ head i :: (xs ++ ys) := by
    have hperm := (nodup_middle.mp hnodup'.2)
    rw [mem_cons, not_or]
    exact ⟨fun heq => hnodup'.1 (by simp [← heq]), (nodup_cons.mp hperm).1⟩
  have hmem : ∀ j x, x ∈ head j :: update lists i (xs ++ ys) j ↔
      x ∈ head j :: lists j ∧ ¬(j = i ∧ x = e) := by
    intro j x
    by_cases hj : j = i
    · subst hj
      rw [update_self, hi]
      constructor
      · intro hx
        refine ⟨?_, fun h' => he (h'.2 ▸ hx)⟩
        simp only [mem_cons, mem_append] at hx ⊢
        tauto
      · rintro ⟨hx, hne⟩
        simp only [mem_cons, mem_append] at hx ⊢
        tauto
    · simp [hj]
  have hframe : ∀ x, x ∉ head i :: lists i →
      (L.remove e).next x = L.next x ∧ (L.remove e).prev x = L.prev x := by
    intro x hx
    rw [hi] at hx
    have hxe : x ≠ e := fun heq => hx (by simp [heq])
    have hlast : x ≠ L.prev e := by
      intro heq
      refine hx ?_
      rw [← cons_append, heq]
      exact mem_append_left _ hfront.prev_mem
    have hfirst : x ≠ L.next e := by
      intro heq
      have := hback.next_mem
      rw [← heq] at this
      simp only [mem_cons, mem_append] at this hx
      tauto
    rw [remove_next, remove_prev, update_of_ne hxe, update_of_ne hlast,
      update_of_ne hxe, update_of_ne hfirst]
    exact ⟨rfl, rfl⟩
  refine ⟨fun j => ?_, fun j => ?_, fun j k x hj hk => ?_, fun x hx => ?_⟩
  · by_cases hj : j = i
    · subst hj
      rw [update_self]
      exact hpath.remove hnodup hnodup'.1
    · rw [update_of_ne hj]
      have hother : ∀ x ∈ head j :: lists j, x ∉ head i :: lists i := fun x hx hx' =>
        hj (h.unique j i x hx hx')
      exact (h.path j).congr (fun x hx => (hframe x (hother x hx)).1)
        fun x hx => (hframe x (hother x hx)).2
  · by_cases hj : j = i
    · subst hj
      rw [update_self]
      exact hnodup.sublist (.cons_cons _ ((append_sublist_append_left xs).mpr
        (sublist_cons_self e ys)))
    · rw [update_of_ne hj]
      exact h.nodup j
  · exact h.unique j k x ((hmem j x).mp hj).1 ((hmem k x).mp hk).1
  · by_cases hxe : x = e
    · subst hxe
      rw [remove_next, remove_prev]
      simp
    · have hx' : ∀ j, x ∉ head j :: lists j := fun j hj =>
        hx j ((hmem j x).mpr ⟨hj, fun h' => hxe h'.2⟩)
      obtain ⟨hnext, hprev⟩ := hframe x (hx' i)
      rw [hnext, hprev]
      exact h.free x hx'

theorem popFront {i : ι} {x : ν} {xs : List ν} (hi : lists i = x :: xs) :
    (L.popFront (head i)).1 = x ∧ (L.popFront (head i)).2.Represents head (update lists i xs) := by
  have hpath := h.path i
  rw [hi] at hpath
  have hnext : L.next (head i) = x := hpath.1.1
  rw [Links.popFront, hnext]
  exact ⟨rfl, h.remove (e := x) (nil_append (x :: xs) ▸ hi)⟩

end Represents

/-! ## Part of the nodes -/

/-- The pointers of some nodes; the others are linked to themselves. -/
def restrict (S : List ν) (L : Links ν) : Links ν where
  next e := if e ∈ S then L.next e else e
  prev e := if e ∈ S then L.prev e else e

/-- The pointers of some nodes lead to nodes among them. -/
def Closed (S : List ν) (L : Links ν) : Prop := ∀ e ∈ S, L.next e ∈ S ∧ L.prev e ∈ S

section Restrict

variable {S : List ν}

theorem restrict_next (he : e ∈ S) : (L.restrict S).next e = L.next e := if_pos he

theorem restrict_prev (he : e ∈ S) : (L.restrict S).prev e = L.prev e := if_pos he

theorem restrict_setNext (he : e ∈ S) (e' : ν) :
    (L.setNext e e').restrict S = (L.restrict S).setNext e e' := by
  have hnext : (fun x => if x ∈ S then update L.next e e' x else x) =
      update (fun x => if x ∈ S then L.next x else x) e e' := by
    funext x
    by_cases hx : x = e
    · subst hx
      simp [he]
    · simp [hx]
  simp only [restrict, setNext, hnext]

theorem restrict_setPrev (he : e ∈ S) (e' : ν) :
    (L.setPrev e e').restrict S = (L.restrict S).setPrev e e' := by
  have hprev : (fun x => if x ∈ S then update L.prev e e' x else x) =
      update (fun x => if x ∈ S then L.prev x else x) e e' := by
    funext x
    by_cases hx : x = e
    · subst hx
      simp [he]
    · simp [hx]
  simp only [restrict, setPrev, hprev]

theorem Closed.setNext (hL : L.Closed S) (e : ν) {e' : ν} (he' : e' ∈ S) :
    (L.setNext e e').Closed S := by
  intro x hx
  refine ⟨?_, (hL x hx).2⟩
  by_cases hxe : x = e
  · subst hxe
    simpa [Links.setNext] using he'
  · simpa [Links.setNext, hxe] using (hL x hx).1

theorem Closed.setPrev (hL : L.Closed S) (e : ν) {e' : ν} (he' : e' ∈ S) :
    (L.setPrev e e').Closed S := by
  intro x hx
  refine ⟨(hL x hx).1, ?_⟩
  by_cases hxe : x = e
  · subst hxe
    simpa [Links.setPrev] using he'
  · simpa [Links.setPrev, hxe] using (hL x hx).2

/-- The neighbours of a node are made to point to it. -/
def attach (e : ν) (self : Links ν) : Links ν :=
  let self := self.setPrev (self.next e) e
  self.setNext (self.prev e) e

theorem Closed.attach (hL : L.Closed S) (he : e ∈ S) :
    (L.attach e).Closed S ∧ (L.attach e).restrict S = (L.restrict S).attach e := by
  have h := hL.setPrev (L.next e) he
  refine ⟨h.setNext _ he, ?_⟩
  rw [Links.attach, restrict_setNext (h e he).2, ← restrict_prev he, restrict_setPrev (hL e he).1,
    ← restrict_next he]
  rfl

theorem Closed.append (hL : L.Closed S) (hb : b ∈ S) (he : e ∈ S) :
    (L.append b e).Closed S ∧ (L.append b e).restrict S = (L.restrict S).append b e := by
  have h := (hL.setNext e hb).setPrev e (hL b hb).2
  obtain ⟨hclosed, hrestrict⟩ := h.attach he
  refine ⟨hclosed, hrestrict.trans ?_⟩
  rw [restrict_setPrev he, restrict_setNext he, ← restrict_prev hb]
  rfl

theorem Closed.prepend (hL : L.Closed S) (hb : b ∈ S) (he : e ∈ S) :
    (L.prepend b e).Closed S ∧ (L.prepend b e).restrict S = (L.restrict S).prepend b e := by
  have h := (hL.setNext e (hL b hb).1).setPrev e hb
  obtain ⟨hclosed, hrestrict⟩ := h.attach he
  refine ⟨hclosed, hrestrict.trans ?_⟩
  rw [restrict_setPrev he, restrict_setNext he, ← restrict_next hb]
  rfl

theorem Closed.remove (hL : L.Closed S) (he : e ∈ S) :
    (L.remove e).Closed S ∧ (L.remove e).restrict S = (L.restrict S).remove e := by
  have h₁ := hL.setNext (L.prev e) (hL e he).1
  have hrestrict₁ : (L.setNext (L.prev e) (L.next e)).restrict S =
      (L.restrict S).setNext ((L.restrict S).prev e) ((L.restrict S).next e) := by
    rw [restrict_setNext (hL e he).2, restrict_prev he, restrict_next he]
  rw [Links.remove, Links.remove, ← hrestrict₁]
  generalize L.setNext (L.prev e) (L.next e) = L₁ at h₁
  have h₂ := h₁.setPrev (L₁.next e) (h₁ e he).2
  refine ⟨(h₂.setNext e he).setPrev e he, ?_⟩
  rw [init, restrict_setPrev he, restrict_setNext he, restrict_setPrev (h₁ e he).1,
    restrict_next he, restrict_prev he]
  rfl

/-- A node that is linked to itself joins the others. -/
theorem Closed.init (hL : L.Closed S) (he : e ∉ S) :
    (L.init e).Closed (e :: S) ∧ (L.init e).restrict (e :: S) = L.restrict S := by
  have hne : ∀ x ∈ S, x ≠ e := fun x hx heq => he (heq ▸ hx)
  constructor
  · intro x hx
    rcases mem_cons.mp hx with rfl | hx
    · simp [Links.init, Links.setNext, Links.setPrev]
    · simp [Links.init, Links.setNext, Links.setPrev, hne x hx, hL x hx]
  · have hsame : ∀ f : ν → ν, (fun x => if x ∈ e :: S then update f e e x else x) =
        fun x => if x ∈ S then f x else x := by
      intro f
      funext x
      by_cases hx : x = e
      · subst hx
        simp [he]
      · simp [hx]
    simp only [restrict, Links.init, Links.setNext, Links.setPrev, hsame]

end Restrict

end Links
end Hafnium.Support
