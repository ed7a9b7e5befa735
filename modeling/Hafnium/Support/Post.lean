import Mathlib.Tactic

/-!
# Postconditions of computations that can fail

`Post x E Q` says that a computation either fails with an error in `E` or yields
a value in `Q`; `Both x y R` compares two computations.  The rules follow the
structure of a `do` block.
-/

namespace Hafnium.Support

variable {ε α β : Type} {E E' : ε → Prop}

theorem bind_eq_ok {x : Except ε α} {f : α → Except ε β} {b : β} :
    (x >>= f) = .ok b ↔ ∃ a, x = .ok a ∧ f a = .ok b := by
  cases x <;> simp [bind, Except.bind]

theorem exists_bind_eq_ok {x : Except ε α} {f : α → Except ε β} :
    (∃ b, (x >>= f) = .ok b) ↔ ∃ a, x = .ok a ∧ ∃ b, f a = .ok b := by
  cases x <;> simp [bind, Except.bind]

theorem map_eq_ok {x : Except ε α} {g : α → β} {b : β} :
    x.map g = .ok b ↔ ∃ a, x = .ok a ∧ g a = b := by
  cases x <;> simp [Except.map]

/-- `x` fails with an error in `E` or yields a value in `Q`. -/
def Post (x : Except ε α) (E : ε → Prop) (Q : α → Prop) : Prop :=
  match x with
  | .error e => E e
  | .ok a => Q a

namespace Post

variable {x : Except ε α} {f : α → Except ε β} {Q R : α → Prop} {T : β → Prop}

@[simp] theorem ok_iff {a : α} : Post (.ok a : Except ε α) E Q ↔ Q a := Iff.rfl

@[simp] theorem pure_iff {a : α} : Post (pure a : Except ε α) E Q ↔ Q a := Iff.rfl

@[simp] theorem error_iff {e : ε} : Post (.error e : Except ε α) E Q ↔ E e := Iff.rfl

theorem bind (hx : Post x E R) (hf : ∀ a, R a → Post (f a) E T) : Post (x >>= f) E T := by
  cases x with
  | error e => exact hx
  | ok a => exact hf a hx

theorem mono (hx : Post x E Q) (hE : ∀ e, E e → E' e) (hQ : ∀ a, Q a → R a) : Post x E' R := by
  cases x with
  | error e => exact hE e hx
  | ok a => exact hQ a hx

/-- What is known about the result may be used for the postcondition. -/
theorem intro (hE : ∀ e, x = .error e → E e) (hQ : ∀ a, x = .ok a → Q a) : Post x E Q := by
  cases x with
  | error e => exact hE e rfl
  | ok a => exact hQ a rfl

theorem weaken (hx : Post x E Q) : Post x (fun _ => True) Q :=
  mono hx (fun _ _ => trivial) fun _ h => h

theorem bind_ok (hf : ∀ a, x = .ok a → Post (f a) (fun _ => True) T) :
    Post (x >>= f) (fun _ => True) T :=
  bind (intro (fun _ _ => trivial) fun _ h => h) hf

theorem of_ok (h : Post x E Q) {a : α} (hx : x = .ok a) : Q a := by
  rw [hx] at h
  exact h

theorem of_error (h : Post x E Q) {e : ε} (hx : x = .error e) : E e := by
  rw [hx] at h
  exact h

theorem and_eq (hx : Post x E Q) :
    Post x (fun e => E e ∧ x = .error e) fun a => Q a ∧ x = .ok a :=
  intro (fun _ h => ⟨of_error hx h, h⟩) fun _ h => ⟨of_ok hx h, h⟩

theorem bind_iff : Post (x >>= f) E T ↔ Post x E fun a => Post (f a) E T := by
  cases x <;> exact Iff.rfl

theorem congr_of_ok (h : ∀ a, x = .ok a → (Q a ↔ R a)) : Post x E Q ↔ Post x E R := by
  cases x with
  | error e => exact Iff.rfl
  | ok a => exact h a rfl

/-- A computation that does not fail, of which the postcondition only depends on
what is known about its result. -/
theorem congr_of_total {p : Prop} (h : Post x (fun _ => False) R) (hR : ∀ a, R a → (Q a ↔ p)) :
    Post x E Q ↔ p := by
  cases x with
  | error e => exact h.elim
  | ok a => exact hR a h

theorem ite {c : Prop} [Decidable c] {y : Except ε α} (hx : c → Post x E Q)
    (hy : ¬c → Post y E Q) : Post (if c then x else y) E Q := by
  split
  · exact hx ‹_›
  · exact hy ‹_›

end Post

/-- Two computations fail alike, or succeed with related values. -/
def Both (x : Except ε α) (y : Except ε β) (R : α → β → Prop) : Prop :=
  match x, y with
  | .error e, .error e' => e = e'
  | .ok a, .ok b => R a b
  | _, _ => False

namespace Both

variable {γ δ : Type} {x : Except ε α} {y : Except ε β} {R R' : α → β → Prop}
  {f : α → Except ε γ} {g : β → Except ε δ} {T : γ → δ → Prop}

theorem refl {x : Except ε α} {R : α → α → Prop} (h : ∀ a, x = .ok a → R a a) : Both x x R := by
  cases x with
  | error e => rfl
  | ok a => exact h a rfl

theorem bind (h : Both x y R) (hf : ∀ a b, R a b → Both (f a) (g b) T) :
    Both (x >>= f) (y >>= g) T := by
  cases x with
  | error e =>
    cases y with
    | error e' => exact h
    | ok b => exact h.elim
  | ok a =>
    cases y with
    | error e' => exact h.elim
    | ok b => exact hf a b h

theorem mono (h : Both x y R) (hR : ∀ a b, R a b → R' a b) : Both x y R' := by
  cases x with
  | error e =>
    cases y with
    | error e' => exact h
    | ok b => exact h.elim
  | ok a =>
    cases y with
    | error e' => exact h.elim
    | ok b => exact hR a b h

theorem ite {x' : Except ε α} {y' : Except ε β} {c c' : Prop} [Decidable c] [Decidable c']
    (hc : c ↔ c') (hx : c → c' → Both x y R) (hy : ¬c → ¬c' → Both x' y' R) :
    Both (if c then x else x') (if c' then y else y') R := by
  by_cases h : c
  · rw [if_pos h, if_pos (hc.mp h)]
    exact hx h (hc.mp h)
  · rw [if_neg h, if_neg (mt hc.mpr h)]
    exact hy h (mt hc.mpr h)

theorem of_ok (h : Both x y R) {b : β} (hy : y = .ok b) : ∃ a, x = .ok a ∧ R a b := by
  subst hy
  cases x with
  | error e => exact h.elim
  | ok a => exact ⟨a, rfl, h⟩

theorem of_ok_left (h : Both x y R) {a : α} (hx : x = .ok a) : ∃ b, y = .ok b ∧ R a b := by
  subst hx
  cases y with
  | error e => exact h.elim
  | ok b => exact ⟨b, rfl, h⟩

end Both
end Hafnium.Support
