import Mathlib.Algebra.Order.Group.Multiset
import Mathlib.Tactic

/-!
# Runs of a partial transition function

A system is a function that takes a state and an action to the next state, or
to nothing if it stops.  `run_invariant` is the induction over runs, done once;
`run_account` is its quantitative form, for a quantity of which every step may
lose some.  What steps emit is collected along a run: `run_fold` is about emissions
that drive an automaton, `run_queue` about those that go through queues.
-/

namespace Hafnium.Support

open List

variable {σ α : Type} (step : σ → α → Option σ)

/-- The state after a list of actions, if no step stops. -/
def run : List α → σ → Option σ
  | [], s => some s
  | a :: as, s => (step s a).bind (run as)

/-- Whenever a run takes the action `a` in the state `s`, `P s a` holds. -/
def Always (P : σ → α → Prop) : List α → σ → Prop
  | [], _ => True
  | a :: as, s => P s a ∧ ∀ s', step s a = some s' → Always P as s'

/-- What a run emits, if the action `a` in the state `s` emits `emit s a`. -/
def trace {ε : Type} (emit : σ → α → List ε) : List α → σ → List ε
  | [], _ => []
  | a :: as, s => emit s a ++ ((step s a).elim [] (trace emit as))

variable {step}
variable {as : List α}

theorem always_cons_of_none {P : σ → α → Prop} {a : α} {s : σ} (h : step s a = none) :
    Always step P (a :: as) s ↔ P s a :=
  and_iff_left fun _ hs' => absurd (hs'.symm.trans h) (Option.some_ne_none _)

theorem always_cons_of_some {P : σ → α → Prop} {a : α} {s s' : σ} (h : step s a = some s') :
    Always step P (a :: as) s ↔ P s a ∧ Always step P as s' :=
  and_congr_right fun _ => ⟨fun h' => h' s' h, fun h' _ hs =>
    Option.some.inj (h.symm.trans hs) ▸ h'⟩

instance decidableAlways {P : σ → α → Prop} [∀ s a, Decidable (P s a)] :
    (as : List α) → (s : σ) → Decidable (Always step P as s)
  | [], _ => isTrue trivial
  | a :: as, s =>
    match h : step s a with
    | none => decidable_of_iff _ (always_cons_of_none h).symm
    | some s' =>
      have := decidableAlways (P := P) as s'
      decidable_of_iff _ (always_cons_of_some h).symm

theorem run_cons_eq_some {a : α} {s s' : σ} :
    run step (a :: as) s = some s' ↔ ∃ m, step s a = some m ∧ run step as m = some s' := by
  rw [run, Option.bind_eq_some_iff]

/-- What holds at first and is kept by every admissible step holds after every
run of them. -/
theorem run_invariant (I : σ → Prop) {G : α → Prop}
    (hstep : ∀ s a s', I s → G a → step s a = some s' → I s')
    {s s' : σ} (hI : I s) (has : ∀ a ∈ as, G a)
    (hrun : run step as s = some s') : I s' := by
  induction as generalizing s with
  | nil =>
    cases hrun
    exact hI
  | cons a as ih =>
    obtain ⟨m, hm, hrest⟩ := run_cons_eq_some.mp hrun
    rw [forall_mem_cons] at has
    exact ih (hstep s a m hI has.1 hm) has.2 hrest

/-- What every admissible step from a state in the invariant satisfies holds
throughout a run. -/
theorem always_of_invariant (I : σ → Prop) {G : α → Prop} {P : σ → α → Prop}
    (hI : ∀ s a s', I s → G a → step s a = some s' → I s')
    (h : ∀ s a, I s → G a → P s a) {s : σ} (hs : I s) (has : ∀ a ∈ as, G a) :
    Always step P as s := by
  induction as generalizing s with
  | nil => trivial
  | cons a as ih =>
    rw [forall_mem_cons] at has
    exact ⟨h s a hs has.1, fun s' hs' => ih (hI s a s' hs has.1 hs') has.2⟩

/-- Two conditions that come to the same in the invariant come to the same throughout a
run, even if only the steps that meet them keep the invariant. -/
theorem always_congr_of_kept (I : σ → Prop) {G : α → Prop} {P Q : σ → α → Prop}
    (hI : ∀ s a s', I s → G a → Q s a → step s a = some s' → I s')
    (h : ∀ s a, I s → G a → (P s a ↔ Q s a)) {s : σ} (hs : I s)
    (has : ∀ a ∈ as, G a) : Always step P as s ↔ Always step Q as s := by
  induction as generalizing s with
  | nil => exact Iff.rfl
  | cons a as ih =>
    rw [forall_mem_cons] at has
    rw [Always, Always, h s a hs has.1]
    exact and_congr_right fun hQ =>
      forall₂_congr fun s' hs' => ih (hI s a s' hs has.1 hQ hs') has.2

theorem always_congr (I : σ → Prop) {G : α → Prop} {P Q : σ → α → Prop}
    (hI : ∀ s a s', I s → G a → step s a = some s' → I s')
    (h : ∀ s a, I s → G a → (P s a ↔ Q s a)) {s : σ} (hs : I s)
    (has : ∀ a ∈ as, G a) : Always step P as s ↔ Always step Q as s :=
  always_congr_of_kept I (fun s a s' hs ha _ => hI s a s' hs ha) h hs has

/-- What follows from a condition in the invariant holds throughout a run whose steps all
meet the condition. -/
theorem always_imp (I : σ → Prop) {G : α → Prop} {P Q : σ → α → Prop}
    (hI : ∀ s a s', I s → G a → step s a = some s' → I s')
    (h : ∀ s a, I s → G a → P s a → Q s a) {s : σ} (hs : I s) (has : ∀ a ∈ as, G a)
    (hP : Always step P as s) : Always step Q as s := by
  induction as generalizing s with
  | nil => trivial
  | cons a as ih =>
    rw [forall_mem_cons] at has
    exact ⟨h s a hs has.1 hP.1, fun s' hs' => ih (hI s a s' hs has.1 hs') has.2 (hP.2 s' hs')⟩

theorem trace_cons {ε : Type} {emit : σ → α → List ε} {a : α} {s m : σ} (hm : step s a = some m) :
    trace step emit (a :: as) s = emit s a ++ trace step emit as m := by
  rw [trace, hm]
  rfl

/-- If a view of the state follows what each step emits, it follows what a run
emits. -/
theorem run_fold {β ε : Type} {emit : σ → α → List ε} (δ : β → ε → Option β) (view : σ → β)
    (hstep : ∀ s a s', step s a = some s' → (emit s a).foldlM δ (view s) = some (view s'))
    {s s' : σ} (hrun : run step as s = some s') :
    (trace step emit as s).foldlM δ (view s) = some (view s') := by
  induction as generalizing s with
  | nil =>
    cases hrun
    rfl
  | cons a as ih =>
    obtain ⟨m, hm, hrest⟩ := run_cons_eq_some.mp hrun
    rw [trace_cons hm, foldlM_append, hstep s a m hm]
    exact ih hrest

/-- An automaton that follows what each admissible step emits, from a state in the
invariant, does not get stuck on what a run emits, even if a step stops. -/
theorem isSome_foldlM_trace {β ε : Type} {emit : σ → α → List ε} (δ : β → ε → Option β)
    (view : σ → β) (I : σ → Prop) {G : α → Prop} {P : σ → α → Prop}
    (hI : ∀ s a s', I s → G a → step s a = some s' → I s')
    (hstep : ∀ s a, I s → G a → P s a → ∃ b, (emit s a).foldlM δ (view s) = some b ∧
      ∀ s', step s a = some s' → b = view s')
    {s : σ} (hs : I s) (has : ∀ a ∈ as, G a) (h : Always step P as s) :
    ((trace step emit as s).foldlM δ (view s)).isSome = true := by
  induction as generalizing s with
  | nil => rfl
  | cons a as ih =>
    rw [forall_mem_cons] at has
    obtain ⟨b, hb, hview⟩ := hstep s a hs has.1 h.1
    cases hm : step s a with
    | none =>
      rw [trace, hm, Option.elim_none, append_nil, hb]
      rfl
    | some m =>
      obtain rfl := hview m hm
      rw [trace_cons hm, foldlM_append, hb]
      exact ih (hI s a m hs has.1 hm) has.2 (h.2 m hm)

/-- If every step appends to queues and takes from their fronts, so does a run, in
the same order. -/
theorem run_queue {ι κ τ : Type} {Holds : σ → κ → Prop} (queue : κ → ι → List τ)
    (enqueued dequeued : ι → σ → α → List τ)
    (hstep : ∀ s q a s', Holds s q → step s a = some s' →
      ∃ q', Holds s' q' ∧ ∀ i, queue q i ++ enqueued i s a = dequeued i s a ++ queue q' i)
    {s s' : σ} {q : κ} (hq : Holds s q) (hrun : run step as s = some s') :
    ∃ q', Holds s' q' ∧ ∀ i, queue q i ++ trace step (enqueued i) as s =
      trace step (dequeued i) as s ++ queue q' i := by
  induction as generalizing s q with
  | nil =>
    cases hrun
    exact ⟨q, hq, fun i => append_nil _⟩
  | cons a as ih =>
    obtain ⟨m, hm, hrest⟩ := run_cons_eq_some.mp hrun
    obtain ⟨q₁, hq₁, hone⟩ := hstep s q a m hq hm
    obtain ⟨q', hq', hmany⟩ := ih hq₁ hrest
    refine ⟨q', hq', fun i => ?_⟩
    rw [trace_cons hm, trace_cons hm, ← append_assoc, hone, append_assoc, hmany,
      append_assoc]

/-- If whatever is emitted once by a step is matched by something else that is
emitted, it is emitted at most as often in a run. -/
theorem count_trace_le {ε δ : Type} [DecidableEq ε] [DecidableEq δ] {emit : σ → α → List ε}
    {emit' : σ → α → List δ} {x : ε} {y : δ} (hone : ∀ s a, (emit s a).length ≤ 1)
    (h : ∀ s a, x ∈ emit s a → y ∈ emit' s a) (as : List α) (s : σ) :
    (trace step emit as s).count x ≤ (trace step emit' as s).count y := by
  have hstep : ∀ s a, (emit s a).count x ≤ (emit' s a).count y := by
    intro s a
    by_cases hx : x ∈ emit s a
    · exact (count_le_length.trans (hone s a)).trans (one_le_count_iff.mpr (h s a hx))
    · rw [count_eq_zero_of_not_mem hx]
      exact Nat.zero_le _
  induction as generalizing s with
  | nil => exact le_rfl
  | cons a as ih =>
    rw [trace, trace, count_append, count_append]
    refine Nat.add_le_add (hstep s a) ?_
    cases step s a with
    | none => exact le_rfl
    | some m => exact ih m

/-- If each step of one system is matched by a step of another that emits the same,
so is each run. -/
theorem run_simulation {τ ε : Type} {step' : τ → α → Option τ} {emit : σ → α → List ε}
    {emit' : τ → α → List ε} (R : σ → τ → Prop)
    (hstep : ∀ s t a s', R s t → step s a = some s' →
      emit s a = emit' t a ∧ ∃ t', step' t a = some t' ∧ R s' t')
    {s s' : σ} {t : τ} (hR : R s t) (hrun : run step as s = some s') :
    trace step emit as s = trace step' emit' as t ∧ ∃ t', run step' as t = some t' ∧ R s' t' := by
  induction as generalizing s t with
  | nil =>
    cases hrun
    exact ⟨rfl, t, rfl, hR⟩
  | cons a as ih =>
    obtain ⟨m, hm, hrest⟩ := run_cons_eq_some.mp hrun
    obtain ⟨hemit, u, hu, hRu⟩ := hstep s t a m hR hm
    obtain ⟨htrace, t', ht', hR'⟩ := ih hRu hrest
    constructor
    · rw [trace_cons hm, trace_cons hu, hemit, htrace]
    · exact ⟨t', run_cons_eq_some.mpr ⟨u, hu, ht'⟩, hR'⟩

/-- If every step keeps `μ` up to what it loses, `μ` never grows, and it is the
same after a run as before exactly if no step of the run lost anything. -/
theorem run_account {M : Type} (μ : σ → Multiset M) (lost : σ → α → Multiset M) (I : σ → Prop)
    (hI : ∀ s a s', I s → step s a = some s' → I s')
    (hstep : ∀ s a s', I s → step s a = some s' → μ s' + lost s a = μ s)
    {s s' : σ} (h : I s) (hrun : run step as s = some s') :
    μ s' ≤ μ s ∧ (μ s' = μ s ↔ Always step (fun s a => lost s a = 0) as s) := by
  induction as generalizing s with
  | nil =>
    cases hrun
    exact ⟨le_rfl, iff_of_true rfl trivial⟩
  | cons a as ih =>
    obtain ⟨m, hm, hrest⟩ := run_cons_eq_some.mp hrun
    obtain ⟨hle, hiff⟩ := ih (hI s a m h hm) hrest
    have hone := hstep s a m h hm
    have hms : μ m ≤ μ s := by
      rw [← hone]
      exact Multiset.le_add_right _ _
    refine ⟨hle.trans hms, ?_, ?_⟩
    · intro heq
      have hm' : μ s' = μ m := le_antisymm hle (by rw [heq]; exact hms)
      have hzero : lost s a = 0 := by
        have : μ m + lost s a = μ m + 0 := by rw [hone, ← heq, hm', add_zero]
        exact add_left_cancel this
      refine ⟨hzero, fun m' hm'' => ?_⟩
      rw [hm] at hm''
      cases hm''
      exact hiff.mp hm'
    · rintro ⟨hzero, hrest'⟩
      rw [hiff.mpr (hrest' m hm), ← hone, hzero, add_zero]

end Hafnium.Support
