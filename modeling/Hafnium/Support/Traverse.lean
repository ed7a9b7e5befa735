import Mathlib.Algebra.BigOperators.Group.Finset.Basic
import Mathlib.Algebra.Order.Group.Multiset
import Mathlib.Algebra.Order.BigOperators.Group.List
import Mathlib.Tactic

/-!
# Loops that update an indexed family in place

A table is a function from indices to cells.  `forEach` runs a fallible update
on a list of cells, threading a state, and stops at the first failure;
`mapAll` runs an update that returns a value on each cell.  Both leave every
cell that is not listed alone.

The rules below reduce a statement about a whole loop to one about a single
cell: `forEach_spec` is the invariant rule, `forEach_sum_eq` and
`forEach_sum_lost` account for a quantity that cells and state share, and
`forEach_budget` shows that a loop succeeds when the state can pay for every
cell.
-/

namespace Hafnium.Support

open Function List
open Prod (fst)

/-- The result of an operation that returns nothing but may fail. -/
inductive Outcome
  | ok
  | err
  deriving DecidableEq, Repr

section ForEach

variable {ι α β σ : Type} [DecidableEq ι]

/-- Update the listed cells in order, stopping after the first failure. -/
def forEach (f : β → α → σ → Outcome × α × σ) : List (ι × β) → (ι → α) → σ → Outcome × (ι → α) × σ
  | [], t, s => (.ok, t, s)
  | (i, b) :: rest, t, s =>
    match f b (t i) s with
    | (.ok, a, s') => forEach f rest (update t i a) s'
    | (.err, a, s') => (.err, update t i a, s')

variable {f : β → α → σ → Outcome × α × σ}

@[simp] theorem forEach_nil (t : ι → α) (s : σ) :
    forEach f ([] : List (ι × β)) t s = (.ok, t, s) := rfl

theorem forEach_cons_ok {i : ι} {b : β} {rest : List (ι × β)} {t : ι → α} {s s' : σ} {a : α}
    (h : f b (t i) s = (.ok, a, s')) :
    forEach f ((i, b) :: rest) t s = forEach f rest (update t i a) s' := by
  rw [forEach, h]

theorem forEach_cons_err {i : ι} {b : β} {rest : List (ι × β)} {t : ι → α} {s s' : σ} {a : α}
    (h : f b (t i) s = (.err, a, s')) :
    forEach f ((i, b) :: rest) t s = (.err, update t i a, s') := by
  rw [forEach, h]

/-- A loop in which no step fails or changes the state. -/
theorem forEach_const {s : σ} {l : List (ι × β)}
    (h : ∀ i b, (i, b) ∈ l → ∀ a, ∃ a', f b a s = (.ok, a', s))
    (t : ι → α) : ∃ t', forEach f l t s = (.ok, t', s) := by
  induction l generalizing t with
  | nil => exact ⟨t, rfl⟩
  | cons p rest ih =>
    obtain ⟨i, b⟩ := p
    obtain ⟨a', ha⟩ := h i b mem_cons_self (t i)
    rw [forEach_cons_ok ha]
    exact ih (fun j b' hj => h j b' (mem_cons_of_mem _ hj)) _

theorem forEach_id {l : List (ι × β)} {t : ι → α} {s : σ}
    (h : ∀ i b, (i, b) ∈ l → f b (t i) s = (.ok, t i, s)) : forEach f l t s = (.ok, t, s) := by
  induction l with
  | nil => rfl
  | cons p rest ih =>
    obtain ⟨i, b⟩ := p
    rw [forEach_cons_ok (h i b (by simp)), update_eq_self]
    exact ih fun j b' hj => h j b' (by simp [hj])

/-- A cell that comes later in the list is not the one just written. -/
theorem update_of_later {i j : ι} {b : β} {l : List (ι × β)} (hi : i ∉ l.map fst)
    (hj : (j, b) ∈ l) (t : ι → α) (a : α) : update t i a j = t j := by
  refine update_of_ne ?_ _ _
  rintro rfl
  exact hi (mem_map.mpr ⟨_, hj, rfl⟩)

/-- Invariant rule: `I` is kept by the state and `R` relates each processed
cell to its new value. -/
theorem forEach_spec (I : σ → Prop) (R : ι → β → α → Outcome → α → Prop)
    {l : List (ι × β)} (hnodup : (l.map fst).Nodup) {t : ι → α} {s : σ} (hI : I s)
    (hstep : ∀ i b, (i, b) ∈ l → ∀ s, I s →
      I (f b (t i) s).2.2 ∧ R i b (t i) (f b (t i) s).1 (f b (t i) s).2.1) :
    I (forEach f l t s).2.2 ∧ ((forEach f l t s).1 = .ok →
        ∀ i b, (i, b) ∈ l → R i b (t i) .ok ((forEach f l t s).2.1 i)) ∧
      (∀ i b, (i, b) ∈ l → (forEach f l t s).2.1 i = t i ∨
        ∃ r, R i b (t i) r ((forEach f l t s).2.1 i)) ∧
      (∀ i, i ∉ l.map fst → (forEach f l t s).2.1 i = t i) := by
  induction l generalizing t s with
  | nil => simpa using hI
  | cons p rest ih =>
    obtain ⟨i, b⟩ := p
    simp only [map_cons, nodup_cons] at hnodup
    obtain ⟨hi, hrest⟩ := hnodup
    obtain ⟨hI', hR⟩ := hstep i b (by simp) s hI
    rcases hf : f b (t i) s with ⟨r, a, s'⟩
    rw [hf] at hI' hR
    cases r with
    | ok =>
      rw [forEach_cons_ok hf]
      have hupd : ∀ j b', (j, b') ∈ rest → update t i a j = t j := fun j b' hj =>
        update_of_later hi hj t a
      obtain ⟨h1, h2, h3, h4⟩ := ih hrest (t := update t i a) hI' (by
        intro j b' hj s'' hs''
        rw [hupd j b' hj]
        exact hstep j b' (by simp [hj]) s'' hs'')
      have hcell := h4 i hi
      rw [update_self] at hcell
      refine ⟨h1, ?_, ?_, ?_⟩
      · intro hok j b' hj
        rcases mem_cons.mp hj with hj | hj
        · obtain ⟨rfl, rfl⟩ := Prod.mk.injEq .. ▸ hj
          rw [hcell]
          exact hR
        · have := h2 hok j b' hj
          rwa [hupd j b' hj] at this
      · intro j b' hj
        rcases mem_cons.mp hj with hj | hj
        · obtain ⟨rfl, rfl⟩ := Prod.mk.injEq .. ▸ hj
          rw [hcell]
          exact Or.inr ⟨.ok, hR⟩
        · have := h3 j b' hj
          rwa [hupd j b' hj] at this
      · intro j hj
        simp only [map_cons, mem_cons, not_or] at hj
        rw [h4 j hj.2, update_of_ne hj.1]
    | err =>
      rw [forEach_cons_err hf]
      refine ⟨hI', by simp, ?_, ?_⟩
      · intro j b' hj
        rcases mem_cons.mp hj with hj | hj
        · obtain ⟨rfl, rfl⟩ := Prod.mk.injEq .. ▸ hj
          simp only [update_self]
          exact Or.inr ⟨.err, hR⟩
        · exact Or.inl (update_of_later hi hj _ _)
      · intro j hj
        simp only [map_cons, mem_cons, not_or] at hj
        exact update_of_ne hj.1 _ _

/-- What holds of every cell and is kept by the updates holds of every cell afterwards. -/
theorem forEach_forall (I : σ → Prop) (P : ι → α → Prop) {l : List (ι × β)}
    (hnodup : (l.map fst).Nodup) {t : ι → α} {s : σ} (hI : I s) (hP : ∀ i, P i (t i))
    (hstep : ∀ i b, (i, b) ∈ l → ∀ s, I s → I (f b (t i) s).2.2 ∧ P i (f b (t i) s).2.1)
    (i : ι) : P i ((forEach f l t s).2.1 i) := by
  obtain ⟨-, -, hsome, hother⟩ := forEach_spec I (fun i _ _ _ a => P i a) hnodup hI hstep
  by_cases hi : i ∈ l.map fst
  · obtain ⟨⟨i, b⟩, hb, rfl⟩ := mem_map.mp hi
    rcases hsome i b hb with heq | ⟨-, h⟩
    · rw [heq]
      exact hP i
    · exact h
  · rw [hother i hi]
    exact hP i

/-- Two loops over the same cells relate each cell to its value after both. -/
theorem forEach_twice {g : β → α → σ → Outcome × α × σ} (I : σ → Prop) (R : β → α → α → Prop)
    {l : List (ι × β)} (hnodup : (l.map fst).Nodup) {t mid t' : ι → α} {s s₁ s₂ s₃ : σ}
    (hI : I s) (hkeep : ∀ i b, (i, b) ∈ l → ∀ s, I s → I (f b (t i) s).2.2)
    (hstep : ∀ i b, (i, b) ∈ l → ∀ {s s₁ s₂ s₃ : σ} {a a' : α}, I s →
      f b (t i) s = (.ok, a, s₁) → g b a s₂ = (.ok, a', s₃) → R b (t i) a')
    (hfirst : forEach f l t s = (.ok, mid, s₁)) (hsecond : forEach g l mid s₂ = (.ok, t', s₃)) :
    (∀ i b, (i, b) ∈ l → R b (t i) (t' i)) ∧ ∀ i, i ∉ l.map fst → t' i = t i := by
  have hspec₁ := @forEach_spec _ _ _ _ _ f I
    (fun _ b a o a' => ∃ s s', I s ∧ f b a s = (o, a', s')) l hnodup t s hI
    fun i b hb s hs => ⟨hkeep i b hb s hs, s, _, hs, rfl⟩
  have hspec₂ := @forEach_spec _ _ _ _ _ g (fun _ => True)
    (fun _ b a o a' => ∃ s s', g b a s = (o, a', s')) l hnodup mid s₂ trivial
    fun i b hb s _ => ⟨trivial, s, _, rfl⟩
  rw [hfirst] at hspec₁
  rw [hsecond] at hspec₂
  obtain ⟨-, hvisited₁, -, hother₁⟩ := hspec₁
  obtain ⟨-, hvisited₂, -, hother₂⟩ := hspec₂
  constructor
  · intro i b hb
    obtain ⟨r, r', hr, h₁⟩ := hvisited₁ rfl i b hb
    obtain ⟨q, q', h₂⟩ := hvisited₂ rfl i b hb
    exact hstep i b hb hr h₁ h₂
  · intro i hi
    exact (hother₂ i hi).trans (hother₁ i hi)

/-- A loop that stops does so at one of its cells. -/
theorem forEach_err (I : σ → Prop) {l : List (ι × β)} (hnodup : (l.map fst).Nodup)
    {t : ι → α} {s : σ} (hI : I s)
    (hstep : ∀ i b, (i, b) ∈ l → ∀ s, I s → I (f b (t i) s).2.2)
    (herr : (forEach f l t s).1 = .err) :
    ∃ i b s', (i, b) ∈ l ∧ I s' ∧
      f b (t i) s' = (.err, (forEach f l t s).2.1 i, (forEach f l t s).2.2) := by
  induction l generalizing t s with
  | nil => contradiction
  | cons p rest ih =>
    obtain ⟨i, b⟩ := p
    simp only [map_cons, nodup_cons] at hnodup
    have hI' := hstep i b mem_cons_self s hI
    rcases hf : f b (t i) s with ⟨_ | _, a, s'⟩
    · rw [hf] at hI'
      rw [forEach_cons_ok hf] at herr ⊢
      obtain ⟨j, b', s'', hj, hs'', h⟩ := ih hnodup.2 hI' (fun j b' hj s'' hs'' => by
        rw [update_of_later hnodup.1 hj]
        exact hstep j b' (mem_cons_of_mem _ hj) s'' hs'') herr
      rw [update_of_later hnodup.1 hj] at h
      exact ⟨j, b', s'', mem_cons_of_mem _ hj, hs'', h⟩
    · rw [forEach_cons_err hf]
      exact ⟨i, b, s, mem_cons_self, hI, by dsimp only; rw [hf, update_self]⟩

section Sum

variable {M : Type} [AddCommMonoid M] [Fintype ι]

theorem sum_update (μ : α → M) (t : ι → α) (i : ι) (a : α) :
    ∑ j, μ (update t i a j) = μ a + ∑ j ∈ Finset.univ.erase i, μ (t j) := by
  rw [← Finset.add_sum_erase Finset.univ _ (Finset.mem_univ i), update_self]
  congr 1
  apply Finset.sum_congr rfl
  intro j hj
  rw [update_of_ne (Finset.ne_of_mem_erase hj)]

theorem sum_erase (μ : α → M) (t : ι → α) (i : ι) :
    ∑ j, μ (t j) = μ (t i) + ∑ j ∈ Finset.univ.erase i, μ (t j) :=
  (Finset.add_sum_erase Finset.univ _ (Finset.mem_univ i)).symm

/-- Costs at the visited places can be paid from what the places give up. -/
theorem sum_visits_le {f f' : ι × β → Nat} {c c' : ι → Nat} {l : List (ι × β)}
    (hnodup : (l.map fst).Nodup) (hc : ∀ i, c' i ≤ c i)
    (h : ∀ p ∈ l, f' p + c' p.1 ≤ f p + c p.1) :
    (l.map f').sum + ∑ i, c' i ≤ (l.map f).sum + ∑ i, c i := by
  have hgain : ((l.map fst).map fun i => c i - c' i).sum ≤ ∑ i, (c i - c' i) := by
    rw [← sum_toFinset _ hnodup]
    exact Finset.sum_le_sum_of_subset (Finset.subset_univ _)
  have hlist : (l.map f').sum ≤ (l.map f).sum + ((l.map fst).map fun i => c i - c' i).sum := by
    rw [map_map, ← sum_map_add]
    refine sum_le_sum fun p hp => ?_
    have := h p hp
    simp only [comp_apply]
    omega
  have hsplit : ∑ i, c i = ∑ i, (c i - c' i) + ∑ i, c' i := by
    rw [← Finset.sum_add_distrib]
    exact Finset.sum_congr rfl fun i _ => (Nat.sub_add_cancel (hc i)).symm
  omega

/-- What the visited places gain and lose adds up to what all places do. -/
theorem sum_visits_eq (μ : α → M) {c d : ι × β → M} {l : List (ι × β)}
    (hnodup : (l.map fst).Nodup) {t t' : ι → α}
    (hvisited : ∀ p ∈ l, μ (t' p.1) + c p = μ (t p.1) + d p)
    (hother : ∀ i, i ∉ l.map fst → t' i = t i) :
    ∑ i, μ (t' i) + (l.map c).sum = ∑ i, μ (t i) + (l.map d).sum := by
  have hsplit : ∀ t : ι → α, ∑ i, μ (t i) =
      (l.map fun p => μ (t p.1)).sum + ∑ i ∈ (l.map fst).toFinsetᶜ, μ (t i) := by
    intro t
    have hlist : (l.map fun p => μ (t p.1)) = (l.map fst).map fun i => μ (t i) := by
      rw [map_map]
      rfl
    rw [hlist, ← sum_toFinset _ hnodup, Finset.sum_add_sum_compl]
  have hrest : ∑ i ∈ (l.map fst).toFinsetᶜ, μ (t' i) =
      ∑ i ∈ (l.map fst).toFinsetᶜ, μ (t i) := by
    apply Finset.sum_congr rfl
    intro i hi
    rw [hother i fun h => Finset.mem_compl.mp hi (mem_toFinset.mpr h)]
  have hlist : (l.map fun p => μ (t' p.1)).sum + (l.map c).sum =
      (l.map fun p => μ (t p.1)).sum + (l.map d).sum := by
    rw [← sum_map_add, ← sum_map_add]
    exact congrArg _ (map_congr_left hvisited)
  rw [hsplit t', hsplit t, hrest, add_right_comm, hlist, add_right_comm]

/-- If every single update conserves the shared quantity, so does the loop. -/
theorem forEach_sum_eq (I : σ → Prop) (μ : α → M) (ν : σ → M)
    {l : List (ι × β)} (hnodup : (l.map fst).Nodup) {t : ι → α} {s : σ} (hI : I s)
    (hstep : ∀ i b, (i, b) ∈ l → ∀ s, I s → I (f b (t i) s).2.2 ∧
      μ (f b (t i) s).2.1 + ν (f b (t i) s).2.2 = μ (t i) + ν s) :
    ∑ i, μ ((forEach f l t s).2.1 i) + ν (forEach f l t s).2.2 = ∑ i, μ (t i) + ν s := by
  induction l generalizing t s with
  | nil => simp
  | cons p rest ih =>
    obtain ⟨i, b⟩ := p
    simp only [map_cons, nodup_cons] at hnodup
    obtain ⟨hI', hle⟩ := hstep i b (by simp) s hI
    rcases hf : f b (t i) s with ⟨r, a, s'⟩
    rw [hf] at hI' hle
    have hwrite : ∑ j, μ (update t i a j) + ν s' = ∑ j, μ (t j) + ν s := by
      rw [sum_update, sum_erase μ t i, add_right_comm, add_right_comm (μ (t i)), hle]
    cases r with
    | err => rw [forEach_cons_err hf]; exact hwrite
    | ok =>
      rw [forEach_cons_ok hf]
      refine (ih hnodup.2 hI' ?_).trans hwrite
      intro j b' hj s'' hs''
      rw [update_of_later hnodup.1 hj]
      exact hstep j b' (by simp [hj]) s'' hs''

/-- If every single update succeeds and conserves the shared quantity up to
what it loses, the loop succeeds and loses the sum. -/
theorem forEach_sum_lost (I : σ → Prop) (μ : α → M) (ν : σ → M) (lost : β → α → M)
    {l : List (ι × β)} (hnodup : (l.map fst).Nodup) {t : ι → α} {s : σ} (hI : I s)
    (hstep : ∀ i b, (i, b) ∈ l → ∀ s, I s → I (f b (t i) s).2.2 ∧ (f b (t i) s).1 = .ok ∧
      μ (f b (t i) s).2.1 + ν (f b (t i) s).2.2 + lost b (t i) = μ (t i) + ν s) :
    (forEach f l t s).1 = .ok ∧ ∑ i, μ ((forEach f l t s).2.1 i) + ν (forEach f l t s).2.2 +
        (l.map fun p => lost p.2 (t p.1)).sum = ∑ i, μ (t i) + ν s := by
  induction l generalizing t s with
  | nil => simp
  | cons p rest ih =>
    obtain ⟨i, b⟩ := p
    simp only [map_cons, nodup_cons] at hnodup
    obtain ⟨hI', hok, heq⟩ := hstep i b (by simp) s hI
    rcases hf : f b (t i) s with ⟨r, a, s'⟩
    rw [hf] at hI' hok heq
    simp only at hI' hok heq
    subst hok
    have hsame : (rest.map fun p => lost p.2 (update t i a p.1)) =
        rest.map fun p => lost p.2 (t p.1) := by
      apply map_congr_left
      intro p hp
      rw [update_of_later hnodup.1 hp]
    obtain ⟨hok', heq'⟩ := ih hnodup.2 (t := update t i a) hI' (by
      intro j b' hj s'' hs''
      rw [update_of_later hnodup.1 hj]
      exact hstep j b' (by simp [hj]) s'' hs'')
    rw [forEach_cons_ok hf]
    refine ⟨hok', ?_⟩
    rw [hsame] at heq'
    rw [map_cons, sum_cons, ← add_assoc, add_right_comm, heq', sum_update,
      sum_erase μ t i, add_right_comm, add_right_comm (μ (t i)), ← heq]
    abel

/-- If every single update moves a measure of its cell from `ν` to `μ`, so does the loop, and
it stops at a cell with something left to move. -/
theorem forEach_measure (I E : σ → Prop) (μ : α → Nat) (ν : β → α → Nat) {l : List (ι × β)}
    (hnodup : (l.map fst).Nodup) {t : ι → α} {s : σ} (hI : I s)
    (hkeep : ∀ i b, (i, b) ∈ l → ∀ s, I s → I (f b (t i) s).2.2)
    (hstep : ∀ i b, (i, b) ∈ l → ∀ s, I s →
      ν b (f b (t i) s).2.1 + μ (f b (t i) s).2.1 = ν b (t i) + μ (t i) ∧
        ((f b (t i) s).1 = .err → E (f b (t i) s).2.2 ∧ 0 < ν b (f b (t i) s).2.1)) :
    (l.map fun p => ν p.2 ((forEach f l t s).2.1 p.1)).sum + ∑ i, μ ((forEach f l t s).2.1 i) =
        (l.map fun p => ν p.2 (t p.1)).sum + ∑ i, μ (t i) ∧
      ((forEach f l t s).1 = .err → E (forEach f l t s).2.2 ∧
        0 < (l.map fun p => ν p.2 ((forEach f l t s).2.1 p.1)).sum) := by
  obtain ⟨-, -, hsome, hother⟩ := forEach_spec I
    (fun _ b a _ a' => μ a' + ν b a' = μ a + ν b a) hnodup hI
    fun i b hb s hs => ⟨hkeep i b hb s hs, by
      rw [Nat.add_comm, (hstep i b hb s hs).1, Nat.add_comm]⟩
  constructor
  · rw [Nat.add_comm, Nat.add_comm _ (∑ i, μ (t i))]
    refine sum_visits_eq μ hnodup (fun p hp => ?_) hother
    rcases hsome p.1 p.2 hp with heq | ⟨r, hr⟩
    · rw [heq]
    · exact hr
  · intro herr
    obtain ⟨i, b, s', hb, hs', h⟩ := forEach_err I hnodup hI hkeep herr
    obtain ⟨hE, hpos⟩ := (hstep i b hb s' hs').2 (by rw [h])
    rw [h] at hE hpos
    exact ⟨hE, hpos.trans_le (le_sum_of_mem (mem_map.mpr ⟨(i, b), hb, rfl⟩))⟩

end Sum

section Trace

variable {ε γ : Type}

/-- The events of a loop, where `g` gives those of a single update. -/
def forEachTrace (f : β → α → σ → Outcome × α × σ) (g : β → α → σ → List ε) :
    List (ι × β) → (ι → α) → σ → List ε
  | [], _, _ => []
  | (i, b) :: rest, t, s =>
    g b (t i) s ++
      match f b (t i) s with
      | (.ok, a, s') => forEachTrace f g rest (update t i a) s'
      | (.err, _, _) => []

variable {g : β → α → σ → List ε} {next : γ → ε → Option γ}

theorem of_mem_forEachTrace {l : List (ι × β)} {t : ι → α} {s : σ} {ev : ε}
    (h : ev ∈ forEachTrace f g l t s) : ∃ i b a s', (i, b) ∈ l ∧ ev ∈ g b a s' := by
  induction l generalizing t s with
  | nil => exact absurd h not_mem_nil
  | cons p rest ih =>
    obtain ⟨i, b⟩ := p
    rw [forEachTrace, mem_append] at h
    rcases h with h | h
    · exact ⟨i, b, t i, s, mem_cons_self, h⟩
    · split at h
      · obtain ⟨j, b', a, s', hj, hev⟩ := ih h
        exact ⟨j, b', a, s', mem_cons_of_mem _ hj, hev⟩
      · exact absurd h not_mem_nil

/-- What the updates of other cells keep, a loop over other cells keeps. -/
theorem forEachTrace_other (Q : γ → Prop) {l : List (ι × β)} {t : ι → α} {s : σ}
    (hnodup : (l.map fst).Nodup)
    (hkeep : ∀ i b, (i, b) ∈ l → ∀ s c, Q c → ∃ c', (g b (t i) s).foldlM next c = some c' ∧ Q c')
    {c : γ} (hc : Q c) :
    ∃ c', (forEachTrace f g l t s).foldlM next c = some c' ∧ Q c' := by
  induction l generalizing t s c with
  | nil => exact ⟨c, rfl, hc⟩
  | cons p rest ih =>
    obtain ⟨i, b⟩ := p
    simp only [map_cons, nodup_cons] at hnodup
    obtain ⟨c₁, hc₁, hQ₁⟩ := hkeep i b (by simp) s c hc
    rw [forEachTrace]
    rcases hf : f b (t i) s with ⟨_ | _, a, s'⟩
    · obtain ⟨c₂, hc₂, hQ₂⟩ := ih (t := update t i a) hnodup.2 (s := s')
        (fun j b' hj s'' c hc => by
          rw [update_of_later hnodup.1 hj]
          exact hkeep j b' (by simp [hj]) s'' c hc) hQ₁
      exact ⟨c₂, by rw [foldlM_append, hc₁]; exact hc₂, hQ₂⟩
    · exact ⟨c₁, by rw [append_nil]; exact hc₁, hQ₁⟩

/-- An observer that cares for one cell: the updates of other cells keep what it
knows, and that of the cell leads from `P` to `Q`. -/
theorem forEachTrace_cell (I : σ → Prop) (P : γ → Prop) (Q : α → γ → Prop) (j : ι)
    {l : List (ι × β)} {t : ι → α} {s : σ} (hnodup : (l.map fst).Nodup) (hI : I s)
    (hP : ∀ i b, (i, b) ∈ l → i ≠ j → ∀ s c, P c →
      ∃ c', (g b (t i) s).foldlM next c = some c' ∧ P c')
    (hQ : ∀ a i b, (i, b) ∈ l → i ≠ j → ∀ s c, Q a c →
      ∃ c', (g b (t i) s).foldlM next c = some c' ∧ Q a c')
    (hstep : ∀ i b, (i, b) ∈ l → ∀ s, I s → I (f b (t i) s).2.2)
    (hcell : ∀ b, (j, b) ∈ l → ∀ s, I s → ∀ c, P c →
      ∃ c', (g b (t j) s).foldlM next c = some c' ∧ Q (f b (t j) s).2.1 c')
    (hstay : ∀ c, P c → Q (t j) c) {c : γ} (hc : P c) :
    ∃ c', (forEachTrace f g l t s).foldlM next c = some c' ∧ Q ((forEach f l t s).2.1 j) c' := by
  induction l generalizing t s c with
  | nil => exact ⟨c, rfl, hstay c hc⟩
  | cons p rest ih =>
    obtain ⟨i, b⟩ := p
    simp only [map_cons, nodup_cons] at hnodup
    have hne : ∀ k b', (k, b') ∈ rest → k ≠ i := by
      rintro k b' hk rfl
      exact hnodup.1 (mem_map.mpr ⟨_, hk, rfl⟩)
    have hI' := hstep i b (by simp) s hI
    by_cases hij : i = j
    · subst hij
      obtain ⟨c₁, hc₁, hQ₁⟩ := hcell b (by simp) s hI c hc
      rw [forEachTrace]
      rcases hf : f b (t i) s with ⟨_ | _, a, s'⟩
      · rw [hf] at hQ₁
        obtain ⟨c₂, hc₂, hQ₂⟩ := forEachTrace_other (f := f) (g := g) (t := update t i a)
          (s := s') (Q a) hnodup.2 (fun k b' hk s'' c hc => by
            rw [update_of_later hnodup.1 hk]
            exact hQ a k b' (by simp [hk]) (hne k b' hk) s'' c hc) hQ₁
        refine ⟨c₂, by rw [foldlM_append, hc₁]; exact hc₂, ?_⟩
        have hsame : (forEach f rest (update t i a) s').2.1 i = a := by
          have := (forEach_spec (f := f) (fun _ => True) (fun _ _ _ _ _ => True) hnodup.2
            (t := update t i a) (s := s') trivial
            fun _ _ _ _ _ => ⟨trivial, trivial⟩).2.2.2 i hnodup.1
          rw [this, update_self]
        rw [forEach_cons_ok hf, hsame]
        exact hQ₂
      · rw [hf] at hQ₁
        rw [forEach_cons_err hf]
        refine ⟨c₁, by rw [append_nil]; exact hc₁, ?_⟩
        dsimp only
        rw [update_self]
        exact hQ₁
    · obtain ⟨c₁, hc₁, hP₁⟩ := hP i b (by simp) hij s c hc
      rw [forEachTrace]
      rcases hf : f b (t i) s with ⟨_ | _, a, s'⟩
      · rw [hf] at hI'
        have hj : update t i a j = t j := update_of_ne (Ne.symm hij) _ _
        have hsame : ∀ k b', (k, b') ∈ rest → update t i a k = t k := fun k b' hk =>
          update_of_later hnodup.1 hk t a
        obtain ⟨c₂, hc₂, hQ₂⟩ := ih (t := update t i a) (s := s') hnodup.2 hI'
          (fun k b' hk hkj => by
            rw [hsame k b' hk]
            exact hP k b' (by simp [hk]) hkj)
          (fun a' k b' hk hkj => by
            rw [hsame k b' hk]
            exact hQ a' k b' (by simp [hk]) hkj)
          (fun k b' hk => by
            rw [hsame k b' hk]
            exact hstep k b' (by simp [hk]))
          (fun b' hk => by
            rw [hj]
            exact hcell b' (by simp [hk]))
          (by rw [hj]; exact hstay) hP₁
        exact ⟨c₂, by rw [foldlM_append, hc₁]; exact hc₂, by rw [forEach_cons_ok hf]; exact hQ₂⟩
      · rw [forEach_cons_err hf]
        refine ⟨c₁, by rw [append_nil]; exact hc₁, ?_⟩
        dsimp only
        rw [update_of_ne (Ne.symm hij)]
        exact hstay c₁ hP₁

end Trace

end ForEach

section MapAll

variable {ι α ρ σ : Type} [DecidableEq ι]

/-- Update the listed cells in order and collect the values returned. -/
def mapAll (f : α → σ → ρ × α × σ) : List ι → (ι → α) → σ → List ρ × (ι → α) × σ
  | [], t, s => ([], t, s)
  | i :: rest, t, s =>
    let (r, a, s') := f (t i) s
    let (rs, t', s'') := mapAll f rest (update t i a) s'
    (r :: rs, t', s'')

variable {f : α → σ → ρ × α × σ}

theorem mapAll_cons (i : ι) (rest : List ι) (t : ι → α) (s : σ) : mapAll f (i :: rest) t s =
      ((f (t i) s).1 :: (mapAll f rest (update t i (f (t i) s).2.1) (f (t i) s).2.2).1,
        (mapAll f rest (update t i (f (t i) s).2.1) (f (t i) s).2.2).2) := rfl

theorem mapAll_id {l : List ι} {t : ι → α} {s : σ} {v : ι → ρ}
    (h : ∀ i ∈ l, f (t i) s = (v i, t i, s)) : mapAll f l t s = (l.map v, t, s) := by
  induction l with
  | nil => rfl
  | cons i rest ih =>
    rw [forall_mem_cons] at h
    rw [mapAll_cons, h.1, update_eq_self, ih h.2]
    rfl

/-- Invariant rule: `I` is kept by the state and `R` relates each listed cell to
the value returned for it and to its new value. -/
theorem mapAll_spec (I : σ → Prop) (R : ι → α → ρ → α → Prop) {l : List ι} (hnodup : l.Nodup)
    {t : ι → α} {s : σ} (hI : I s)
    (hstep : ∀ i ∈ l, ∀ s, I s → I (f (t i) s).2.2 ∧ R i (t i) (f (t i) s).1 (f (t i) s).2.1) :
    I (mapAll f l t s).2.2 ∧ (∃ v : ι → ρ, (mapAll f l t s).1 = l.map v ∧
        ∀ i ∈ l, R i (t i) (v i) ((mapAll f l t s).2.1 i)) ∧
      (∀ i, i ∉ l → (mapAll f l t s).2.1 i = t i) := by
  induction l generalizing t s with
  | nil => exact ⟨hI, ⟨fun i => (f (t i) s).1, rfl, by simp⟩, fun _ _ => rfl⟩
  | cons i rest ih =>
    obtain ⟨hi, hrest⟩ := nodup_cons.mp hnodup
    obtain ⟨hI', hR⟩ := hstep i (by simp) s hI
    have hne : ∀ j ∈ rest, j ≠ i := by
      rintro j hj rfl
      exact hi hj
    have hupd : ∀ j ∈ rest, update t i (f (t i) s).2.1 j = t j := fun j hj =>
      update_of_ne (hne j hj) _ _
    obtain ⟨h1, ⟨v, hv, h2⟩, h3⟩ := ih hrest (t := update t i (f (t i) s).2.1) hI' (by
      intro j hj s'' hs''
      rw [hupd j hj]
      exact hstep j (by simp [hj]) s'' hs'')
    rw [mapAll_cons]
    refine ⟨h1, ⟨update v i (f (t i) s).1, ?_, ?_⟩, ?_⟩
    · rw [map_cons, update_self, hv]
      refine congrArg _ (map_congr_left fun j hj => ?_)
      rw [update_of_ne (hne j hj)]
    · intro j hj
      rcases mem_cons.mp hj with rfl | hj
      · have hcell := h3 j hi
        rw [update_self] at hcell
        rw [update_self, hcell]
        exact hR
      · have := h2 j hj
        rw [hupd j hj] at this
        rw [update_of_ne (hne j hj)]
        exact this
    · intro j hj
      rw [mem_cons, not_or] at hj
      rw [h3 j hj.2, update_of_ne hj.1]

/-- If the results do not depend on the state, those of a loop are the same. -/
theorem mapAll_of_forall {l : List ι} (hnodup : l.Nodup) {t t' : ι → α} {v : ι → ρ}
    (h : ∀ i ∈ l, ∀ s, (f (t i) s).1 = v i ∧ (f (t i) s).2.1 = t' i) (s : σ) :
    (mapAll f l t s).1 = l.map v ∧ ∀ i ∈ l, (mapAll f l t s).2.1 i = t' i := by
  obtain ⟨-, ⟨w, hw, hcells⟩, -⟩ := mapAll_spec (fun _ => True)
    (fun i _ r a => r = v i ∧ a = t' i) hnodup (s := s) trivial
    (fun i hi s _ => ⟨trivial, h i hi s⟩)
  refine ⟨?_, fun i hi => (hcells i hi).2⟩
  rw [hw]
  exact map_congr_left fun i hi => (hcells i hi).1

/-- If every single update conserves the shared quantity, so does the loop. -/
theorem mapAll_sum_eq {M : Type} [AddCommMonoid M] [Fintype ι] (μ : α → M) (ν : σ → M)
    {l : List ι} (hnodup : l.Nodup) {t : ι → α}
    (hstep : ∀ i ∈ l, ∀ s, μ (f (t i) s).2.1 + ν (f (t i) s).2.2 = μ (t i) + ν s) (s : σ) :
    ∑ i, μ ((mapAll f l t s).2.1 i) + ν (mapAll f l t s).2.2 = ∑ i, μ (t i) + ν s := by
  induction l generalizing t s with
  | nil => rfl
  | cons i rest ih =>
    obtain ⟨hi, hrest⟩ := nodup_cons.mp hnodup
    rw [mapAll_cons, ih hrest, sum_update, sum_erase μ t i, add_right_comm,
      add_right_comm (μ (t i)), hstep i (by simp)]
    intro j hj s
    rw [update_of_ne]
    · exact hstep j (by simp [hj]) s
    · rintro rfl
      exact hi hj

section Trace

variable {ε : Type}

/-- The events of a loop, where `g` gives those of a single update. -/
def mapAllTrace (f : α → σ → ρ × α × σ) (g : ι → α → σ → List ε) : List ι → (ι → α) → σ → List ε
  | [], _, _ => []
  | i :: rest, t, s =>
    g i (t i) s ++ mapAllTrace f g rest (update t i (f (t i) s).2.1) (f (t i) s).2.2

variable {g : ι → α → σ → List ε}

/-- If updates that change nothing have no events, neither has a loop that
changes nothing. -/
theorem mapAllTrace_eq_nil {l : List ι} (hnodup : l.Nodup) {t : ι → α} {s : σ}
    (hg : ∀ i ∈ l, ∀ s, (f (t i) s).2.1 = t i → g i (t i) s = [])
    (h : (mapAll f l t s).2.1 = t) : mapAllTrace f g l t s = [] := by
  induction l generalizing s with
  | nil => rfl
  | cons i rest ih =>
    obtain ⟨hi, hrest⟩ := nodup_cons.mp hnodup
    rw [mapAll_cons] at h
    dsimp only at h
    have hcell : (f (t i) s).2.1 = t i := by
      have hother := (mapAll_spec (f := f) (fun _ => True) (fun _ _ _ _ => True) hrest
        (t := update t i (f (t i) s).2.1) (s := (f (t i) s).2.2) trivial
        fun _ _ _ _ => ⟨trivial, trivial⟩).2.2 i hi
      rw [h, update_self] at hother
      exact hother.symm
    rw [mapAllTrace, hg i (by simp) s hcell, nil_append]
    rw [hcell, update_eq_self] at h ⊢
    exact ih hrest (fun j hj => hg j (by simp [hj])) h

end Trace

end MapAll

end Hafnium.Support
