import Hafnium.Support.Post

/-!
# Loops and places in a list

A loop that may fail or go on is run with a bound on its rounds; `Loops` says that
it ends after a number of rounds, and `loop_eq` that a larger bound then makes no
difference.  `Rounds` are the rounds of a loop that goes on.

`HoldsAt` says that a list holds another one from a position on.
-/

namespace Hafnium.Support

open List

/-! ## Loops -/

section Loop

variable {ε σ ρ : Type} (out : ε) (body : σ → Except ε (σ ⊕ ρ))

/-- Repeats `body` until it returns a result, for a bounded number of rounds; `out`
if they do not suffice. -/
def loop : Nat → σ → Except ε ρ
  | 0, _ => .error out
  | fuel + 1, s =>
    match body s with
    | .error e => .error e
    | .ok (.inl s') => loop fuel s'
    | .ok (.inr r) => .ok r

/-- The loop returns `r` in the round after the given number of rounds. -/
inductive Loops : Nat → σ → ρ → Prop
  | done {s : σ} {r : ρ} (h : body s = .ok (.inr r)) : Loops 0 s r
  | next {n : Nat} {s s' : σ} {r : ρ} (h : body s = .ok (.inl s')) (hrest : Loops n s' r) :
      Loops (n + 1) s r

/-- A number of rounds lead from one state to another. -/
inductive Rounds : Nat → σ → σ → Prop
  | refl (s : σ) : Rounds 0 s s
  | next {n : Nat} {s s' s'' : σ} (h : body s = .ok (.inl s')) (hrest : Rounds n s' s'') :
      Rounds (n + 1) s s''

variable {body}

theorem Rounds.trans {n m : Nat} {s s' s'' : σ} (h : Rounds body n s s')
    (h' : Rounds body m s' s'') : Rounds body (n + m) s s'' := by
  induction h with
  | refl s => rwa [Nat.zero_add]
  | next hnext _ ih =>
    rw [Nat.add_right_comm]
    exact .next hnext (ih h')

theorem Rounds.loops {n m : Nat} {s s' : σ} {r : ρ} (h : Rounds body n s s')
    (h' : Loops body m s' r) : Loops body (n + m) s r := by
  induction h with
  | refl s => rwa [Nat.zero_add]
  | next hnext _ ih =>
    rw [Nat.add_right_comm]
    exact .next hnext (ih h')

theorem loop_eq {n fuel : Nat} {s : σ} {r : ρ} (h : Loops body n s r) (hfuel : n < fuel) :
    loop out body fuel s = .ok r := by
  induction h generalizing fuel with
  | done h =>
    cases fuel with
    | zero => exact absurd hfuel (Nat.not_lt_zero _)
    | succ fuel => rw [loop, h]
  | next h _ ih =>
    cases fuel with
    | zero => exact absurd hfuel (Nat.not_lt_zero _)
    | succ fuel =>
      rw [loop, h]
      exact ih (Nat.lt_of_succ_lt_succ hfuel)

/-- What is known about the first round of a loop that returns. -/
theorem loop_eq_ok {fuel : Nat} {s : σ} {r : ρ} (h : loop out body (fuel + 1) s = .ok r) :
    body s = .ok (.inr r) ∨ ∃ s', body s = .ok (.inl s') ∧ loop out body fuel s' = .ok r := by
  rw [loop] at h
  split at h
  · cases h
  · exact .inr ⟨_, ‹_›, h⟩
  · obtain rfl := Except.ok.inj h
    exact .inl ‹_›

/-- What every round of a loop keeps, the result of the loop has. -/
theorem loop_post {E : ε → Prop} {I : σ → Prop} {Q : ρ → Prop} (hout : E out)
    (hbody : ∀ s, I s → Post (body s) E (Sum.elim I Q)) (fuel : Nat) {s : σ} (hs : I s) :
    Post (loop out body fuel s) E Q := by
  induction fuel generalizing s with
  | zero => exact hout
  | succ fuel ih =>
    have h := hbody s hs
    rw [loop]
    split
    · next e heq =>
        rw [heq] at h
        exact h
    · next s' heq =>
        rw [heq] at h
        exact ih h
    · next r heq =>
        rw [heq] at h
        exact h

/-- A loop ends if every round returns or makes some measure smaller. -/
theorem exists_loops (I : σ → Prop) (Q : ρ → Prop) (size : σ → Nat)
    (h : ∀ s, I s → (∃ r, body s = .ok (.inr r) ∧ Q r) ∨
      ∃ s', body s = .ok (.inl s') ∧ I s' ∧ size s' < size s) (s : σ) (hs : I s) :
    ∃ n ≤ size s, ∃ r, Loops body n s r ∧ Q r := by
  induction hn : size s using Nat.strong_induction_on generalizing s with
  | _ k ih =>
    obtain ⟨r, hr, hQ⟩ | ⟨s', hs', hI, hlt⟩ := h s hs
    · exact ⟨0, Nat.zero_le _, r, .done hr, hQ⟩
    · obtain ⟨n, hn', r, hloops, hQ⟩ := ih (size s') (hn ▸ hlt) s' hI rfl
      exact ⟨n + 1, by omega, r, .next hs' hloops, hQ⟩

end Loop

/-! ## Places in a list -/

section HoldsAt

variable {α : Type} {l xs ys : List α} {pos : Nat}

/-- `l` holds `xs` from `pos` on. -/
def HoldsAt (l : List α) (pos : Nat) (xs : List α) : Prop := xs <+: l.drop pos

theorem HoldsAt.drop_eq (h : HoldsAt l pos xs) : l.drop pos = xs ++ l.drop (pos + xs.length) := by
  obtain ⟨rest, hrest⟩ := h
  rw [← drop_drop, ← hrest, drop_left]

theorem holdsAt_append :
    HoldsAt l pos (xs ++ ys) ↔ HoldsAt l pos xs ∧ HoldsAt l (pos + xs.length) ys := by
  constructor
  · rintro ⟨rest, hrest⟩
    rw [append_assoc] at hrest
    refine ⟨⟨_, hrest⟩, ?_⟩
    rw [HoldsAt, ← drop_drop, ← hrest, drop_left]
    exact ⟨rest, rfl⟩
  · rintro ⟨hx, rest, hrest⟩
    refine ⟨rest, ?_⟩
    rw [hx.drop_eq, ← hrest, append_assoc]

theorem HoldsAt.take (h : HoldsAt l pos xs) : (l.drop pos).take xs.length = xs :=
  (prefix_iff_eq_take.mp h).symm

theorem HoldsAt.length_le (h : HoldsAt l pos xs) : xs.length ≤ l.length - pos := by
  rw [← length_drop]
  exact List.IsPrefix.length_le h

end HoldsAt

end Hafnium.Support
