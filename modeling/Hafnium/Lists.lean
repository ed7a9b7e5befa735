import Hafnium.Support.Links
import Hafnium.Support.Run

/-!
# Intrusive lists

The functions of `list.rs` on a set of entries, some of which are the heads of
lists.  Entries start with arbitrary pointers and are initialised one by one; from
then on every sequence of calls in which only entries that are linked to themselves
are inserted, and only linked ones removed, acts on the heads as on sequences of
entries.
-/

namespace Hafnium

open Support List Function

/-- A call of `list.rs` that changes pointers.  Heads are named by an index. -/
inductive ListOp (ι ν : Type)
  | init (e : ν)
  | append (l : ι) (e : ν)
  | prepend (l : ι) (e : ν)
  | remove (e : ν)
  | popFront (l : ι)
  deriving DecidableEq, Repr

/-- The pointers of all entries, and the entries that have been initialised. -/
structure ListState (ν : Type) where
  links : Links ν
  ready : List ν

variable {ι ν : Type} [DecidableEq ι] [DecidableEq ν] (head : ι → ν)

namespace ListOp

def apply : ListOp ι ν → Links ν → Links ν
  | init e, L => L.init e
  | append l e, L => L.append (head l) e
  | prepend l e, L => L.prepend (head l) e
  | remove e, L => L.remove e
  | popFront l, L => (L.popFront (head l)).2

/-- The entry that a call takes out of a list. -/
def removed : ListOp ι ν → Links ν → Option ν
  | remove e, _ => some e
  | popFront l, L => some (L.popFront (head l)).1
  | init _, _ | append _ _, _ | prepend _ _, _ => none

/-- What a call does to the sequences of entries. -/
def effect : ListOp ι ν → (ι → List ν) → ι → List ν
  | init _, lists => lists
  | append l e, lists => update lists l (lists l ++ [e])
  | prepend l e, lists => update lists l (e :: lists l)
  | remove e, lists => fun i => (lists i).erase e
  | popFront l, lists => update lists l (lists l).tail

/-- The sequences after some calls. -/
def sequences (ops : List (ListOp ι ν)) : ι → List ν :=
  ops.foldl (fun lists op => op.effect lists) fun _ => []

/-- An entry is initialised once, inserted if it is linked to itself, and removed if
it is not.  Heads are not inserted anywhere. -/
def Allowed (s : ListState ν) : ListOp ι ν → Prop
  | init e => e ∉ s.ready
  | append l e | prepend l e =>
    head l ∈ s.ready ∧ e ∈ s.ready ∧ (∀ i, e ≠ head i) ∧ s.links.isEmpty e = true
  | remove e => e ∈ s.ready ∧ (∀ i, e ≠ head i) ∧ s.links.isEmpty e = false
  | popFront l => head l ∈ s.ready ∧ s.links.isEmpty (head l) = false

/-- The entry that a call initialises. -/
def initialised : ListOp ι ν → List ν
  | init e => [e]
  | _ => []

end ListOp

namespace ListState

def step (s : ListState ν) (op : ListOp ι ν) : Option (ListState ν) :=
  some ⟨op.apply head s.links, op.initialised ++ s.ready⟩

/-- The pointers of the initialised entries represent sequences of entries, one for
each head. -/
structure Sequences (s : ListState ν) (lists : ι → List ν) : Prop where
  path : ∀ i, head i ∈ s.ready → s.links.Path (head i) (lists i) (head i)
  inverse : ∀ e ∈ s.ready, s.links.prev (s.links.next e) = e ∧ s.links.next (s.links.prev e) = e
  nodup : ∀ i, (head i :: lists i).Nodup
  ready : ∀ i, ∀ e ∈ lists i, e ∈ s.ready ∧ ∀ j, e ≠ head j
  unique : ∀ i j e, e ∈ lists i → e ∈ lists j → i = j
  isEmpty_head : ∀ i, head i ∈ s.ready → (s.links.isEmpty (head i) = true ↔ lists i = [])
  isEmpty_node : ∀ e ∈ s.ready, (∀ i, e ≠ head i) → (s.links.isEmpty e = true ↔ ∀ i, e ∉ lists i)
  free : ∀ e ∈ s.ready, (∀ i, e ≠ head i) → (∀ i, e ∉ lists i) →
    s.links.next e = e ∧ s.links.prev e = e

/-- The invariant of runs: the initialised entries form circular lists, and their
pointers stay among them. -/
structure Linked (s : ListState ν) (lists : ι → List ν) : Prop where
  closed : s.links.Closed s.ready
  represents : (s.links.restrict s.ready).Represents head lists
  ready : ∀ i, ∀ e ∈ lists i, e ∈ s.ready

variable {head} {s s' : ListState ν} {lists : ι → List ν}

omit [DecidableEq ι] in
theorem isEmpty_restrict {e : ν} (he : e ∈ s.ready) :
    (s.links.restrict s.ready).isEmpty e = s.links.isEmpty e := by
  rw [Links.isEmpty, Links.isEmpty, Links.restrict_next he]

omit [DecidableEq ι] in
theorem linked_nil (hhead : Function.Injective head) (L : Links ν) :
    (⟨L, []⟩ : ListState ν).Linked head fun _ => [] := by
  refine ⟨nofun, ⟨fun i => ?_, fun i => ?_, fun i j x hi hj => ?_, fun e _ => ?_⟩, nofun⟩
  · exact ⟨rfl, rfl⟩
  · exact nodup_singleton _
  · rw [mem_singleton] at hi hj
    exact hhead (hi.symm.trans hj)
  · exact ⟨rfl, rfl⟩

namespace Linked

variable (h : s.Linked head lists)
include h

variable {e : ν}

omit [DecidableEq ι] in
theorem ne_head {i : ι} (he : e ∈ lists i) (j : ι) : e ≠ head j := by
  rintro rfl
  have hij := h.represents.unique i j (head j) (mem_cons_of_mem _ he) mem_cons_self
  subst hij
  exact (nodup_cons.mp (h.represents.nodup i)).1 he

omit [DecidableEq ι] in
theorem isEmpty_iff (he : e ∈ s.ready) (hhead : ∀ i, e ≠ head i) :
    s.links.isEmpty e = true ↔ ∀ i, e ∉ lists i := by
  rw [← isEmpty_restrict he]
  exact h.represents.isEmpty_node e hhead

omit [DecidableEq ι] in
/-- An entry that is linked to itself is on no list. -/
theorem notMem (he : e ∈ s.ready) (hhead : ∀ i, e ≠ head i)
    (hempty : s.links.isEmpty e = true) (j : ι) : e ∉ head j :: lists j := by
  rw [mem_cons, not_or]
  exact ⟨hhead j, (h.isEmpty_iff he hhead).mp hempty j⟩

omit [DecidableEq ι] in
theorem sequences : s.Sequences head lists := by
  have hnext : ∀ e ∈ s.ready, (s.links.restrict s.ready).next e = s.links.next e :=
    fun e he => Links.restrict_next he
  have hprev : ∀ e ∈ s.ready, (s.links.restrict s.ready).prev e = s.links.prev e :=
    fun e he => Links.restrict_prev he
  constructor
  case path =>
    intro i hi
    have hmem : ∀ x ∈ head i :: lists i, x ∈ s.ready := by
      intro x hx
      rcases mem_cons.mp hx with rfl | hx
      · exact hi
      · exact h.ready i x hx
    exact (h.represents.path i).congr (fun x hx => (hnext x (hmem x hx)).symm)
      fun x hx => (hprev x (hmem x hx)).symm
  case inverse =>
    intro e he
    have hforth := h.represents.prev_next e
    have hback := h.represents.next_prev e
    rw [hnext e he, hprev _ (h.closed e he).1] at hforth
    rw [hprev e he, hnext _ (h.closed e he).2] at hback
    exact ⟨hforth, hback⟩
  case nodup => exact h.represents.nodup
  case ready => exact fun i e he => ⟨h.ready i e he, h.ne_head he⟩
  case unique =>
    intro i j e hi hj
    exact h.represents.unique i j e (mem_cons_of_mem _ hi) (mem_cons_of_mem _ hj)
  case isEmpty_head =>
    intro i hi
    rw [← isEmpty_restrict hi]
    exact h.represents.isEmpty_head i
  case isEmpty_node => exact fun e he hhead => h.isEmpty_iff he hhead
  case free =>
    intro e he hhead hlists
    have hfree := h.represents.free e fun i hi => by
      rcases mem_cons.mp hi with heq | hi
      · exact hhead i heq
      · exact hlists i hi
    rw [hnext e he, hprev e he] at hfree
    exact hfree

/-! ## One call -/

omit [DecidableEq ι] in
theorem init (he : e ∉ s.ready) :
    (⟨s.links.init e, e :: s.ready⟩ : ListState ν).Linked head lists := by
  obtain ⟨hclosed, hrestrict⟩ := h.closed.init he
  refine ⟨hclosed, ?_, fun i x hx => mem_cons_of_mem _ (h.ready i x hx)⟩
  rw [hrestrict]
  exact h.represents

theorem ready_update {l : ι} {xs : List ν} (hxs : ∀ x ∈ xs, x ∈ s.ready) (i : ι) :
    ∀ x ∈ update lists l xs i, x ∈ s.ready := by
  by_cases hi : i = l
  · subst hi
    rw [update_self]
    exact hxs
  · rw [update_of_ne hi]
    exact h.ready i

theorem append {l : ι} (hl : head l ∈ s.ready) (he : e ∈ s.ready)
    (hhead : ∀ i, e ≠ head i) (hempty : s.links.isEmpty e = true) :
    (⟨s.links.append (head l) e, s.ready⟩ : ListState ν).Linked head
      (update lists l (lists l ++ [e])) := by
  obtain ⟨hclosed, hrestrict⟩ := h.closed.append hl he
  refine ⟨hclosed, ?_, h.ready_update fun x hx => ?_⟩
  · rw [hrestrict]
    exact h.represents.append l (h.notMem he hhead hempty)
  · rw [mem_append, mem_singleton] at hx
    rcases hx with hx | rfl
    · exact h.ready l x hx
    · exact he

theorem prepend {l : ι} (hl : head l ∈ s.ready) (he : e ∈ s.ready)
    (hhead : ∀ i, e ≠ head i) (hempty : s.links.isEmpty e = true) :
    (⟨s.links.prepend (head l) e, s.ready⟩ : ListState ν).Linked head
      (update lists l (e :: lists l)) := by
  obtain ⟨hclosed, hrestrict⟩ := h.closed.prepend hl he
  refine ⟨hclosed, ?_, h.ready_update fun x hx => ?_⟩
  · rw [hrestrict]
    exact h.represents.prepend l (h.notMem he hhead hempty)
  · rcases mem_cons.mp hx with rfl | hx
    · exact he
    · exact h.ready l x hx

omit [DecidableEq ι] in
/-- A node is on one list only, so that erasing it everywhere removes it from there. -/
theorem remove {i : ι} (hi : e ∈ lists i) :
    (⟨s.links.remove e, s.ready⟩ : ListState ν).Linked head fun j => (lists j).erase e := by
  classical
  obtain ⟨hclosed, hrestrict⟩ := h.closed.remove (h.ready i e hi)
  refine ⟨hclosed, ?_, fun j x hx => h.ready j x (mem_of_mem_erase hx)⟩
  obtain ⟨xs, ys, hlist⟩ := append_of_mem hi
  have hxs : e ∉ xs := by
    have hnodup := (nodup_cons.mp (h.represents.nodup i)).2
    rw [hlist, nodup_append] at hnodup
    exact fun hx => hnodup.2.2 e hx e mem_cons_self rfl
  have herase : (fun j => (lists j).erase e) = update lists i (xs ++ ys) := by
    funext j
    by_cases hj : j = i
    · subst hj
      rw [update_self, hlist, erase_append_right _ hxs, erase_cons_head]
    · rw [update_of_ne hj]
      refine erase_of_not_mem fun hmem => hj ?_
      exact h.represents.unique j i e (mem_cons_of_mem _ hmem) (mem_cons_of_mem _ hi)
  rw [herase, hrestrict]
  exact h.represents.remove hlist

theorem popFront {l : ι} (hl : head l ∈ s.ready) (hne : s.links.isEmpty (head l) = false) :
    (lists l).head? = some (s.links.popFront (head l)).1 ∧
      (⟨(s.links.popFront (head l)).2, s.ready⟩ : ListState ν).Linked head
        (update lists l (lists l).tail) := by
  have hlist : lists l ≠ [] := by
    intro heq
    rw [(h.sequences.isEmpty_head l hl).mpr heq] at hne
    cases hne
  obtain ⟨x, xs, hx⟩ := exists_cons_of_ne_nil hlist
  have hpath := h.sequences.path l hl
  rw [hx] at hpath
  have hfirst : s.links.next (head l) = x := hpath.1.1
  have hmem : x ∈ lists l := by rw [hx]; exact mem_cons_self
  rw [Links.popFront, hfirst, hx]
  refine ⟨rfl, ?_⟩
  have hremove := h.remove hmem
  convert hremove using 1
  funext j
  by_cases hj : j = l
  · subst hj
    rw [update_self, hx, erase_cons_head, tail_cons]
  · rw [update_of_ne hj]
    refine (erase_of_not_mem fun hmem' => hj ?_).symm
    exact h.represents.unique j l x (mem_cons_of_mem _ hmem') (mem_cons_of_mem _ hmem)

/-- What a removed entry is, and where it is before. -/
theorem removed {op : ListOp ι ν} (hop : op.Allowed head s)
    (he : op.removed head s.links = some e) :
    e ∈ s.ready ∧ (∀ i, e ≠ head i) ∧ (∃ i, e ∈ lists i) ∧
      ∀ l, op = .popFront l → (lists l).head? = some e := by
  cases op with
  | init | append | prepend => cases he
  | remove e' =>
    cases he
    obtain ⟨hready, hhead, hlinked⟩ := hop
    refine ⟨hready, hhead, ?_, nofun⟩
    by_contra hnone
    rw [(h.isEmpty_iff hready hhead).mpr (not_exists.mp hnone)] at hlinked
    cases hlinked
  | popFront l =>
    have hfirst := (h.popFront hop.1 hop.2).1
    rw [Option.some.inj he] at hfirst
    have hmem : e ∈ lists l := mem_of_mem_head? hfirst
    refine ⟨h.ready l e hmem, h.ne_head hmem, ⟨l, hmem⟩, ?_⟩
    rintro _ ⟨⟩
    exact hfirst

theorem step {op : ListOp ι ν} (hop : op.Allowed head s) (hstep : s.step head op = some s') :
    s'.Linked head (op.effect lists) := by
  cases hstep
  cases op with
  | init e => exact h.init hop
  | append l e => exact h.append hop.1 hop.2.1 hop.2.2.1 hop.2.2.2
  | prepend l e => exact h.prepend hop.1 hop.2.1 hop.2.2.1 hop.2.2.2
  | remove e =>
    obtain ⟨-, -, ⟨i, hi⟩, -⟩ := h.removed hop rfl
    exact h.remove hi
  | popFront l => exact (h.popFront hop.1 hop.2).2

theorem effect_removed {op : ListOp ι ν} (hop : op.Allowed head s)
    (he : op.removed head s.links = some e) (i : ι) : e ∉ op.effect lists i := by
  have hnodup : ∀ i, (lists i).Nodup := fun i => (nodup_cons.mp (h.represents.nodup i)).2
  cases op with
  | init | append | prepend => cases he
  | remove e' =>
    cases he
    exact (hnodup i).not_mem_erase
  | popFront l =>
    obtain ⟨-, -, -, hfirst⟩ := h.removed hop he
    obtain ⟨xs, hxs⟩ := head?_eq_some_iff.mp (hfirst l rfl)
    rw [ListOp.effect]
    by_cases hi : i = l
    · subst hi
      have hnodup' := hnodup i
      rw [hxs] at hnodup'
      rw [update_self, hxs]
      exact (nodup_cons.mp hnodup').1
    · rw [update_of_ne hi]
      intro hmem
      refine hi (h.represents.unique i l e (mem_cons_of_mem _ hmem)
        (mem_cons_of_mem _ ?_))
      rw [hxs]
      exact mem_cons_self

end Linked

/-! ## Runs -/

theorem linked_run {ops : List (ListOp ι ν)} (h : s.Linked head lists)
    (hops : Always (step head) (ListOp.Allowed head) ops s)
    (hrun : run (step head) ops s = some s') :
    s'.Linked head (ops.foldl (fun lists op => op.effect lists) lists) := by
  induction ops generalizing s lists with
  | nil =>
    cases hrun
    exact h
  | cons op ops ih =>
    obtain ⟨m, hm, hrest⟩ := run_cons_eq_some.mp hrun
    exact ih (h.step hops.1 hm) (hops.2 m hm) hrest

/-- Entries with arbitrary pointers are initialised and used as lists: at any time
the pointers represent the sequences that the calls describe, and the next call acts
on them as described, leaves what it removes linked to itself, and removes the first
entry if it pops one. -/
theorem sequences_of_run (hhead : Function.Injective head) {L : Links ν}
    {ops : List (ListOp ι ν)} (hops : Always (step head) (ListOp.Allowed head) ops ⟨L, []⟩)
    (hrun : run (step head) ops ⟨L, []⟩ = some s) :
    s.Sequences head (ListOp.sequences ops) ∧
      ∀ op s', ListOp.Allowed head s op → s.step head op = some s' →
        s'.Sequences head (op.effect (ListOp.sequences ops)) ∧
        ∀ e, op.removed head s.links = some e →
          (∃ i, e ∈ ListOp.sequences ops i) ∧
          (∀ l, op = .popFront l → (ListOp.sequences ops l).head? = some e) ∧
          s'.links.next e = e ∧ s'.links.prev e = e := by
  have h := linked_run (linked_nil hhead L) hops hrun
  refine ⟨h.sequences, fun op s' hop hstep => ?_⟩
  have h' := h.step hop hstep
  refine ⟨h'.sequences, fun e he => ?_⟩
  obtain ⟨hready, hne, hmem, hfirst⟩ := h.removed hop he
  refine ⟨hmem, hfirst, h'.sequences.free e ?_ hne (h.effect_removed hop he)⟩
  cases hstep
  exact List.mem_append_right _ hready

/-- One head and two nodes: both are inserted, at the two ends, and one is taken out
again. -/
def exampleListOps : List (ListOp (Fin 1) (Fin 3)) :=
  [.init 0, .init 1, .init 2, .append 0 1, .prepend 0 2, .remove 1]

def exampleHead : Fin 1 → Fin 3 := fun _ => 0

def exampleLinks : Links (Fin 3) := ⟨fun _ => 2, fun _ => 1⟩

theorem sequences_of_run_example :
    Always (step exampleHead) (ListOp.Allowed exampleHead) exampleListOps ⟨exampleLinks, []⟩ ∧
      ∃ s, run (step exampleHead) exampleListOps ⟨exampleLinks, []⟩ = some s ∧
        s.Sequences exampleHead fun _ => [2] := by
  have hops : Always (step exampleHead) (ListOp.Allowed exampleHead) exampleListOps
      ⟨exampleLinks, []⟩ := by
    simp only [exampleListOps, Always, step, Option.some.injEq, forall_eq', ListOp.Allowed]
    decide
  have hlists : ListOp.sequences exampleListOps = fun _ => [2] := by decide
  refine ⟨hops, _, rfl, ?_⟩
  rw [← hlists]
  exact (sequences_of_run (fun _ _ _ => Subsingleton.elim _ _) hops rfl).1

end ListState
end Hafnium
