import Mathlib.Tactic

/-!
# Bitmaps

An array of registers of `w` bits each is a set of numbers: bit `k` of register
`i` stands for `i * w + k`.
-/

namespace Hafnium.Support

open Finset Function

variable {n w : Nat}

/-- The numbers whose bits are set. -/
def bits (regs : Fin n → BitVec w) : Finset Nat :=
  (univ ×ˢ range w).filter (fun p : Fin n × Nat => (regs p.1).getLsbD p.2 = true)
    |>.image fun p => p.1 * w + p.2
variable {regs : Fin n → BitVec w}

theorem mem_bits {x : Nat} :
    x ∈ bits regs ↔ ∃ (i : Fin n) (k : Nat), k < w ∧ (regs i).getLsbD k = true ∧ i * w + k = x := by
  simp [bits, and_assoc]

theorem place_inj {i j : Fin n} {k l : Nat} (hk : k < w) (hl : l < w)
    (h : (i : Nat) * w + k = j * w + l) : i = j ∧ k = l := by
  have hpos : 0 < w := by omega
  have hdiv : ∀ (i : Fin n) {k : Nat}, k < w → ((i : Nat) * w + k) / w = i := by
    intro i k hk
    rw [Nat.mul_comm, Nat.mul_add_div hpos, Nat.div_eq_of_lt hk, Nat.add_zero]
  have hij : i = j := by
    apply Fin.ext
    rw [← hdiv i hk, ← hdiv j hl, h]
  subst hij
  exact ⟨rfl, Nat.add_left_cancel h⟩

theorem place_mem_bits {i : Fin n} {k : Nat} (hk : k < w) :
    i * w + k ∈ bits regs ↔ (regs i).getLsbD k = true := by
  rw [mem_bits]
  constructor
  · rintro ⟨j, l, hl, hbit, heq⟩
    obtain ⟨rfl, rfl⟩ := place_inj hl hk heq
    exact hbit
  · intro hbit
    exact ⟨i, k, hk, hbit, rfl⟩

/-- Two sets of numbers with the same bits are equal. -/
theorem bits_ext {s : Finset Nat} (hs : ∀ x ∈ s, x < n * w)
    (h : ∀ (i : Fin n) (k : Nat), k < w → ((regs i).getLsbD k = true ↔ i * w + k ∈ s)) :
    bits regs = s := by
  ext x
  rw [mem_bits]
  constructor
  · rintro ⟨i, k, hk, hbit, rfl⟩
    exact (h i k hk).mp hbit
  · intro hx
    have hlt := hs x hx
    have hpos : 0 < w := Nat.pos_of_lt_mul_left hlt
    have hi : x / w < n := Nat.div_lt_of_lt_mul (by rwa [Nat.mul_comm])
    have heq : x / w * w + x % w = x := by rw [Nat.mul_comm, Nat.div_add_mod]
    have hk : x % w < w := Nat.mod_lt _ hpos
    refine ⟨⟨x / w, hi⟩, x % w, hk, ?_, heq⟩
    rw [h _ _ hk, heq]
    exact hx

theorem lt_of_mem_bits {x : Nat} (hx : x ∈ bits regs) : x < n * w := by
  obtain ⟨i, k, hk, -, rfl⟩ := mem_bits.mp hx
  calc i * w + k < i * w + w := by omega
    _ = (i + 1) * w := by rw [Nat.add_mul, Nat.one_mul]
    _ ≤ n * w := Nat.mul_le_mul_right w i.isLt

theorem bits_subset (regs : Fin n → BitVec w) : bits regs ⊆ range (n * w) := by
  intro x hx
  exact mem_range.mpr (lt_of_mem_bits hx)

theorem place_lt (i : Fin n) {k : Nat} (hk : k < w) : i * w + k < n * w := by
  have hmem : i * w + k ∈ bits (fun _ : Fin n => BitVec.allOnes w) := by
    rw [place_mem_bits hk, BitVec.getLsbD_allOnes]
    exact decide_eq_true hk
  exact lt_of_mem_bits hmem

theorem getLsbD_one_shiftLeft {k l : Nat} (hk : k < w) :
    (1#w <<< k).getLsbD l = decide (l = k) := by
  rw [← BitVec.twoPow_eq, BitVec.getLsbD_twoPow, decide_eq_true hk, Bool.true_and]
  exact decide_eq_decide.mpr eq_comm

theorem and_mask_ne_zero {v : BitVec w} {k : Nat} (hk : k < w) :
    v &&& 1#w <<< k ≠ 0 ↔ v.getLsbD k = true := by
  constructor
  · intro h
    by_contra hbit
    apply h
    ext l hl
    rw [← BitVec.getLsbD_eq_getElem, BitVec.getLsbD_and, getLsbD_one_shiftLeft hk]
    by_cases hlk : l = k
    · subst hlk
      simp [Bool.eq_false_iff.mpr hbit]
    · simp [hlk]
  · intro hbit h
    have := congrArg (fun v => v.getLsbD k) h
    simp [getLsbD_one_shiftLeft hk, hbit] at this

theorem bits_zero : bits (fun _ : Fin n => 0#w) = ∅ := by
  apply bits_ext
  · simp
  · simp

theorem bits_and (a b : Fin n → BitVec w) : bits (fun i => a i &&& b i) = bits a ∩ bits b := by
  apply bits_ext
  · intro x hx
    exact lt_of_mem_bits (mem_inter.mp hx).1
  · intro i k hk
    rw [mem_inter, place_mem_bits hk, place_mem_bits hk, BitVec.getLsbD_and,
      Bool.and_eq_true]

theorem bits_insert {i : Fin n} {k : Nat} (hk : k < w) :
    bits (update regs i (regs i ||| 1#w <<< k)) = insert (i * w + k) (bits regs) := by
  apply bits_ext
  · intro x hx
    rcases mem_insert.mp hx with rfl | hx
    · exact place_lt i hk
    · exact lt_of_mem_bits hx
  · intro j l hl
    rw [mem_insert, place_mem_bits hl]
    by_cases hij : j = i
    · subst hij
      have hlk : (j : Nat) * w + l = j * w + k ↔ l = k := by omega
      rw [update_self, BitVec.getLsbD_or, getLsbD_one_shiftLeft hk, Bool.or_eq_true,
        decide_eq_true_iff, hlk, or_comm]
    · have hne : (j : Nat) * w + l ≠ i * w + k := fun h => hij (place_inj hl hk h).1
      rw [update_of_ne hij, or_iff_right hne]

theorem bits_erase {i : Fin n} {k : Nat} (hk : k < w) :
    bits (update regs i (regs i &&& ~~~(1#w <<< k))) = (bits regs).erase (i * w + k) := by
  apply bits_ext
  · intro x hx
    exact lt_of_mem_bits (mem_of_mem_erase hx)
  · intro j l hl
    rw [mem_erase, place_mem_bits hl]
    by_cases hij : j = i
    · subst hij
      have hlk : (j : Nat) * w + l ≠ j * w + k ↔ l ≠ k := by omega
      rw [update_self, BitVec.getLsbD_and, BitVec.getLsbD_not, getLsbD_one_shiftLeft hk,
        hlk]
      simp [hl, and_comm]
    · have hne : (j : Nat) * w + l ≠ i * w + k := fun h => hij (place_inj hl hk h).1
      rw [update_of_ne hij, and_iff_right hne]

/-- The lowest bit of the first register that is not zero is the least number. -/
theorem bits_min (regs : Fin n → BitVec w) {i : Fin n} (hi : regs i ≠ 0)
    (hfirst : ∀ j < i, regs j = 0) :
    (regs i).ctz.toNat < w ∧ i * w + (regs i).ctz.toNat ∈ bits regs ∧
      ∀ x ∈ bits regs, i * w + (regs i).ctz.toNat ≤ x := by
  have hk : (regs i).ctz.toNat < w := by
    by_contra hge
    have hbit := BitVec.getLsbD_true_ctz_of_ne_zero hi
    rw [BitVec.getLsbD_of_ge _ _ (Nat.le_of_not_lt hge)] at hbit
    exact absurd hbit Bool.false_ne_true
  refine ⟨hk, ?_, ?_⟩
  · rw [place_mem_bits hk]
    exact BitVec.getLsbD_true_ctz_of_ne_zero hi
  · intro x hx
    obtain ⟨j, l, hl, hbit, rfl⟩ := mem_bits.mp hx
    rcases lt_trichotomy j i with hji | rfl | hij
    · rw [hfirst j hji] at hbit
      exact absurd (BitVec.getLsbD_zero.symm.trans hbit) Bool.false_ne_true
    · apply Nat.add_le_add_left
      by_contra hlt
      rw [BitVec.getLsbD_false_of_lt_ctz (Nat.lt_of_not_le hlt)] at hbit
      exact absurd hbit Bool.false_ne_true
    · calc i * w + (regs i).ctz.toNat ≤ i * w + w := by omega
        _ = (i + 1) * w := by rw [Nat.add_mul, Nat.one_mul]
        _ ≤ j * w := Nat.mul_le_mul_right w hij
        _ ≤ j * w + l := Nat.le_add_right _ _

end Hafnium.Support
