import Mathlib.Order.WellFounded
import Mathlib.Order.Preorder.Finite
import Mathlib.Tactic

/-!
# Waiting for locks

Threads hold locks and wait for others.  A deadlock is a set of threads each of which
waits for a lock that one of the set holds.  If the locks that a thread waits for come
after those that it holds, in some order, there is none; `not_deadlocked` allows some
threads to break the order, as long as what they wait for does not go round in a circle
among themselves.
-/

namespace Hafnium.Support

open Relation

variable {θ κ : Type}

/-- A relation without circles. -/
def Acyclic (r : θ → θ → Prop) : Prop := ∀ p, ¬ TransGen r p p

section Acyclic

variable {r r' : θ → θ → Prop} {p : θ}

/-- New arrows to a point from which none start do not make a circle. -/
theorem Acyclic.of_sink (h : Acyclic r) (hsub : ∀ x y, r' x y → r x y ∨ y = p)
    (hsink : ∀ y, ¬ r' p y) : Acyclic r' := by
  have hold : ∀ x y, TransGen r' x y → y ≠ p → TransGen r x y := by
    intro x y hxy
    induction hxy with
    | single hxy =>
      intro hne
      exact .single ((hsub _ _ hxy).resolve_right hne)
    | @tail b c _ hbc ih =>
      intro hne
      have hb : b ≠ p := by
        rintro rfl
        exact hsink c hbc
      exact (ih hb).tail ((hsub _ _ hbc).resolve_right hne)
  intro x hxx
  refine h x (hold x x hxx ?_)
  rintro rfl
  obtain ⟨y, hxy, -⟩ := TransGen.head'_iff.mp hxx
  exact hsink y hxy

/-- New arrows from `p` to points from which `p` cannot be reached do not make a
circle. -/
theorem Acyclic.of_arrows {N : θ → Prop} (h : Acyclic r)
    (hsub : ∀ x y, r' x y → r x y ∨ (x = p ∧ N y)) (hN : ∀ y, N y → ¬ ReflTransGen r y p) :
    Acyclic r' := by
  -- a path either is an old one or goes through `p` once, to a point of `N`
  have hpath : ∀ x y, TransGen r' x y →
      TransGen r x y ∨ (ReflTransGen r x p ∧ ∃ z, N z ∧ ReflTransGen r z y) := by
    intro x y hxy
    induction hxy with
    | single hxy =>
      obtain hxy | ⟨rfl, hy⟩ := hsub _ _ hxy
      · exact Or.inl (.single hxy)
      · exact Or.inr ⟨.refl, _, hy, .refl⟩
    | tail _ hbc ih =>
      obtain hbc | ⟨rfl, hc⟩ := hsub _ _ hbc
      · obtain hold | ⟨hxp, z, hz, hzb⟩ := ih
        · exact Or.inl (hold.tail hbc)
        · exact Or.inr ⟨hxp, z, hz, hzb.tail hbc⟩
      · obtain hold | ⟨-, z, hz, hzp⟩ := ih
        · exact Or.inr ⟨hold.to_reflTransGen, _, hc, .refl⟩
        · exact absurd hzp (hN z hz)
  intro x hxx
  obtain hold | ⟨hxp, z, hz, hzx⟩ := hpath x x hxx
  · exact h x hold
  · exact hN z hz (hzx.trans hxp)

/-- In a finite set in which every point has a successor there is a circle. -/
theorem Acyclic.exists_last [Finite θ] (h : Acyclic r) {A : Set θ} (hA : A.Nonempty) :
    ∃ p ∈ A, ∀ q ∈ A, ¬ r p q := by
  have : IsTrans θ (fun x y => TransGen r y x) := ⟨fun _ _ _ hxy hyz => hyz.trans hxy⟩
  have : Std.Irrefl (fun x y : θ => TransGen r y x) := ⟨h⟩
  have hwf : WellFounded fun x y : θ => TransGen r y x :=
    Finite.wellFounded_of_trans_of_irrefl _
  obtain ⟨p, hp, hmin⟩ := hwf.has_min A hA
  exact ⟨p, hp, fun q hq hpq => hmin q hq (.single hpq)⟩

end Acyclic

/-! ## Deadlocks -/

/-- Some threads each wait for a lock that one of them holds. -/
def Deadlocked (owner : κ → Option θ) (waits : θ → Option κ) : Prop :=
  ∃ A : Set θ, A.Nonempty ∧ ∀ p ∈ A, ∃ l, waits p = some l ∧ ∃ q ∈ A, owner l = some q

variable {owner : κ → Option θ} {waits : θ → Option κ} {r : θ → θ → Prop}

/-- There is no deadlock if every thread but the exceptions waits for locks of a higher
rank than it holds, nobody but the exceptions waits for an exception, and the exceptions
do not wait for each other in a circle. -/
theorem not_deadlocked [Finite θ] (rank : κ → Nat) (exception : θ → Prop)
    (hordered : ∀ p l q l', ¬ exception p → waits p = some l → owner l = some q →
      waits q = some l' → ¬ exception q ∧ rank l < rank l')
    (hexception : ∀ p l q, exception p → waits p = some l → owner l = some q → exception q → r p q)
    (hacyclic : Acyclic r) : ¬ Deadlocked owner waits := by
  rintro ⟨A, hne, hA⟩
  -- among the threads that keep to the order, one waits for the highest lock
  have hall : ∀ p ∈ A, exception p := by
    by_contra hnot
    have hB : {p ∈ A | ¬ exception p}.Nonempty := by
      simpa [Set.Nonempty] using hnot
    obtain ⟨p, ⟨hp, hpe⟩, hmax⟩ :=
      Set.exists_max_image _ (fun p => (waits p).elim 0 rank) (Set.toFinite _) hB
    obtain ⟨l, hl, q, hq, howner⟩ := hA p hp
    obtain ⟨l', hl', -⟩ := hA q hq
    obtain ⟨hqe, hlt⟩ := hordered p l q l' hpe hl howner hl'
    have hle := hmax q ⟨hq, hqe⟩
    rw [hl, hl'] at hle
    exact absurd hlt (Nat.not_lt.mpr hle)
  obtain ⟨p, hp, hlast⟩ := hacyclic.exists_last hne
  obtain ⟨l, hl, q, hq, howner⟩ := hA p hp
  exact hlast q hq (hexception p l q (hall p hp) hl howner (hall q hq))

/-- A circle of threads that wait for each other is a deadlock. -/
theorem deadlocked_of_circle {p : θ} (h : TransGen r p p)
    (hr : ∀ x y z, r x y → r y z → ∃ l, waits x = some l ∧ owner l = some y) :
    Deadlocked owner waits := by
  refine ⟨{x | ReflTransGen r p x ∧ ReflTransGen r x p}, ⟨p, .refl, .refl⟩, ?_⟩
  rintro x ⟨hpx, hxp⟩
  -- every point of the circle has a successor on it, which has one in turn
  have hnext : ∀ x, ReflTransGen r x p → ∃ y, r x y ∧ ReflTransGen r y p := by
    intro x hxp
    obtain ⟨y, hxy, hyp⟩ := TransGen.head'_iff.mp (TransGen.trans_right hxp h)
    exact ⟨y, hxy, hyp⟩
  obtain ⟨y, hxy, hyp⟩ := hnext x hxp
  obtain ⟨z, hyz, -⟩ := hnext y hyp
  obtain ⟨l, hl, howner⟩ := hr x y z hxy hyz
  exact ⟨l, hl, y, ⟨hpx.tail hxy, hyp⟩, howner⟩

end Hafnium.Support
