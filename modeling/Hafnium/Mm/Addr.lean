import Mathlib.Tactic

/-!
# Address arithmetic of the page table walk

The helpers of `mm.rs`'s module `addr`, and the pairing of table entries with
block addresses that every walk over a table performs
(`ptes.zip(BlockIter::new(..))`).

Addresses are natural numbers.  The walk only ever adds a block size to an
address below the end of the address space, so its sums stay below `2 ^ 57`
and never wrap; the one sum that can wrap, rounding an arbitrary `end` up to
a page, is reduced modulo `2 ^ 64`.
-/

namespace Hafnium

open Nat List

def pageBits : Nat := 12
def pageSize : Nat := 1 <<< pageBits
def pageLevelBits : Nat := 9

/-- Number of entries in a page table. -/
def ptePerPage : Nat := pageSize / 8

instance ptePerPage_neZero : NeZero 512 := ⟨by decide⟩

/-- `addr & !(PAGE_SIZE - 1)`. -/
def roundDownToPage (addr : Nat) : Nat := addr / pageSize * pageSize

def roundUpToPage (addr : Nat) : Nat :=
  roundDownToPage ((addr + pageSize - 1) % 2 ^ 64)

/-- The size of the address space represented by an entry at a level. -/
def entrySize (level : Nat) : Nat := 1 <<< (pageBits + level * pageLevelBits)

/-- `(addr + block_size) & !(block_size - 1)`. -/
def startOfNextBlock (addr blockSize : Nat) : Nat := (addr + blockSize) / blockSize * blockSize

/-- One past the largest address represented by the table at `level` that
holds `addr`. -/
def levelEnd (addr level : Nat) : Nat :=
  let offset := pageBits + (level + 1) * pageLevelBits
  ((addr >>> offset) + 1) <<< offset

/-- The index of `addr`'s entry in a table at `level`. -/
def index (addr level : Nat) : Nat :=
  (addr >>> (pageBits + level * pageLevelBits)) &&& ((1 <<< pageLevelBits) - 1)

/-- The pairs visited by `ptes.zip(BlockIter::new(begin, end, block_size))`:
the iterator yields `begin`, then the starts of the following blocks, and stops
at `end` or when the entries run out. -/
def zipBlocks {ι : Type} (blockSize endAddr : Nat) : List ι → Nat → List (ι × Nat)
  | [], _ => []
  | i :: is, begin =>
    if begin ≥ endAddr then []
    else (i, begin) :: zipBlocks blockSize endAddr is (startOfNextBlock begin blockSize)

/-! ## Arithmetic facts -/

theorem pageSize_eq : pageSize = 4096 := rfl

theorem ptePerPage_eq : ptePerPage = 512 := rfl

theorem entrySize_eq (level : Nat) : entrySize level = 2 ^ (12 + 9 * level) := by
  simp [entrySize, shiftLeft_eq, pageBits, pageLevelBits, mul_comm]

theorem entrySize_zero : entrySize 0 = 4096 := rfl

theorem entrySize_succ (level : Nat) : entrySize (level + 1) = 512 * entrySize level := by
  rw [entrySize_eq, entrySize_eq, show 12 + 9 * (level + 1) = 9 + (12 + 9 * level) by ring,
    Nat.pow_add]

theorem entrySize_pos (level : Nat) : 0 < entrySize level := by
  rw [entrySize_eq]
  exact Nat.two_pow_pos _

theorem pageSize_dvd_entrySize (level : Nat) : 4096 ∣ entrySize level := by
  rw [entrySize_eq, pow_add]
  exact Dvd.intro _ rfl

theorem entrySize_mono {l l' : Nat} (h : l ≤ l') : entrySize l ≤ entrySize l' := by
  rw [entrySize_eq, entrySize_eq]
  exact Nat.pow_le_pow_right (by decide) (by omega)

theorem index_eq (addr level : Nat) : index addr level = addr / entrySize level % 512 := by
  rw [index, entrySize_eq, shiftRight_eq_div_pow,
    show (1 <<< pageLevelBits) - 1 = 2 ^ 9 - 1 from rfl, and_two_pow_sub_one_eq_mod]
  simp [pageBits, pageLevelBits, mul_comm]

theorem index_lt (addr level : Nat) : index addr level < ptePerPage := by
  rw [index_eq, ptePerPage_eq]
  exact mod_lt _ (by decide)

theorem levelEnd_eq (addr level : Nat) : levelEnd addr level =
      (addr / entrySize (level + 1) + 1) * entrySize (level + 1) := by
  simp [levelEnd, entrySize_eq, shiftRight_eq_div_pow, shiftLeft_eq, pageBits,
    pageLevelBits, mul_comm]

theorem roundDownToPage_le (addr : Nat) : roundDownToPage addr ≤ addr :=
  div_mul_le_self _ _

theorem roundDownToPage_mod (addr : Nat) : roundDownToPage addr % 4096 = 0 := by
  rw [roundDownToPage, pageSize_eq]
  omega

theorem roundUpToPage_mod (addr : Nat) : roundUpToPage addr % 4096 = 0 :=
  roundDownToPage_mod _

theorem startOfNextBlock_eq {addr s : Nat} (hs : 0 < s) :
    startOfNextBlock addr s = (addr / s + 1) * s := by
  rw [startOfNextBlock, add_div_right _ hs]

/-! ## Slots of a table

`Slot base s i a` says that `a` lies in the `i`-th block of size `s` counted
from `base`. -/

/-- The start of the `i`-th entry of a table that starts at `base`. -/
def slotBase (base s i : Nat) : Nat := base + i * s

theorem slotBase_succ (base s i : Nat) : slotBase base s (i + 1) = slotBase base s i + s := by
  simp only [slotBase]
  ring

theorem slotBase_mono (base s : Nat) {i j : Nat} (h : i ≤ j) :
    slotBase base s i ≤ slotBase base s j :=
  Nat.add_le_add_left (Nat.mul_le_mul_right s h) base

theorem slotBase_mod {base s i : Nat} (h : base % s = 0) : slotBase base s i % s = 0 := by
  rw [slotBase, add_mul_mod_self_right]
  exact h

theorem lt_of_slotBase_lt {base s i j : Nat}
    (h : slotBase base s i < slotBase base s j) : i < j := by
  by_contra hij
  exact absurd (slotBase_mono base s (not_lt.mp hij)) (not_le.mpr h)

/-- Dividing by the block size recovers the slot. -/
theorem div_eq_of_slot {base s i a : Nat} (hs : 0 < s) (hbase : base % s = 0)
    (hlo : slotBase base s i ≤ a) (hhi : a < slotBase base s i + s) :
    a / s = base / s + i := by
  have hb : base = s * (base / s) := (Nat.mul_div_cancel' (Nat.dvd_of_mod_eq_zero hbase)).symm
  rw [Nat.div_eq_iff hs]
  have hval : slotBase base s i = (base / s + i) * s := by
    rw [slotBase, Nat.add_mul, Nat.mul_comm (base / s), ← hb]
  omega

theorem mod_of_mod_mul {base n s : Nat} (h : base % (n * s) = 0) : base % s = 0 :=
  mod_eq_zero_of_dvd ((dvd_mul_left s n).trans (dvd_of_mod_eq_zero h))

theorem slotBase_aligned {base level : Nat} (h : base % entrySize (level + 1) = 0) (i : Nat) :
    slotBase base (entrySize level) i % entrySize level = 0 := by
  rw [entrySize_succ] at h
  exact slotBase_mod (mod_of_mod_mul h)

theorem slotBase_add_le (base level : Nat) (i : Fin 512) :
    slotBase base (entrySize level) i + entrySize level ≤ base + entrySize (level + 1) := by
  rw [← slotBase_succ, entrySize_succ]
  exact slotBase_mono base (entrySize level) (succ_le_of_lt i.isLt)

/-- An aligned block's start and an address's offset in it recover the address. -/
theorem add_mod_of_slot {base s a : Nat} (hbase : base % s = 0) (hlo : base ≤ a)
    (hhi : a < base + s) : base + a % s = a := by
  obtain ⟨q, rfl⟩ := dvd_of_mod_eq_zero hbase
  have hlt : a - s * q < s := by omega
  have ha : a = s * q + (a - s * q) := by omega
  have hmod : a % s = a - s * q := by
    rw [ha, mul_add_mod, mod_eq_of_lt (by omega)]
    omega
  omega

/-- An address in the `i`-th slot of a table has index `i`. -/
theorem index_of_slot {base level i a : Nat} (hbase : base % entrySize (level + 1) = 0)
    (hi : i < 512) (hlo : slotBase base (entrySize level) i ≤ a)
    (hhi : a < slotBase base (entrySize level) i + entrySize level) :
    index a level = i := by
  have hs := entrySize_pos level
  rw [entrySize_succ] at hbase
  have hdiv := div_eq_of_slot hs (mod_of_mod_mul hbase) hlo hhi
  have hq : base / entrySize level % 512 = 0 := by
    obtain ⟨q, hq⟩ := Nat.dvd_of_mod_eq_zero hbase
    rw [hq, Nat.mul_comm 512, Nat.mul_assoc, Nat.mul_div_cancel_left _ hs]
    omega
  rw [index_eq, hdiv]
  omega

/-- Every address of a table lies in the slot of its index. -/
theorem slot_of_index {base level a : Nat} (hbase : base % entrySize (level + 1) = 0)
    (hlo : base ≤ a) (hhi : a < base + entrySize (level + 1)) :
    slotBase base (entrySize level) (index a level) ≤ a ∧
      a < slotBase base (entrySize level) (index a level) + entrySize level := by
  have hs := entrySize_pos level
  rw [entrySize_succ] at hbase hhi
  have hb0 := mod_of_mod_mul hbase
  set s := entrySize level with hsdef
  set i := (a - base) / s with hidef
  have hilt : i < 512 := by
    rw [hidef, div_lt_iff_lt_mul hs]
    omega
  have hmul : i * s ≤ a - base := div_mul_le_self _ _
  have hlt : a - base < i * s + s := by
    have := lt_div_mul_add (a := a - base) hs
    simpa [hidef] using this
  have h1 : slotBase base s i ≤ a := by simp only [slotBase]; omega
  have h2 : a < slotBase base s i + s := by simp only [slotBase]; omega
  have hidx : index a level = i :=
    index_of_slot (by rw [entrySize_succ]; exact hbase) hilt h1 h2
  rw [hidx]
  exact ⟨h1, h2⟩

theorem startOfNextBlock_of_slot {base s i a : Nat} (hs : 0 < s) (hbase : base % s = 0)
    (hlo : slotBase base s i ≤ a) (hhi : a < slotBase base s i + s) :
    startOfNextBlock a s = slotBase base s (i + 1) := by
  have hb : base = base / s * s := (Nat.div_mul_cancel (Nat.dvd_of_mod_eq_zero hbase)).symm
  rw [startOfNextBlock_eq hs, div_eq_of_slot hs hbase hlo hhi, slotBase]
  nth_rewrite 2 [hb]
  ring

/-! ## The pairs visited by a walk -/

theorem finRange_drop {n k : Nat} (hk : k < n) :
    (finRange n).drop k = ⟨k, hk⟩ :: (finRange n).drop (k + 1) := by
  rw [drop_eq_getElem_cons (by simpa using hk)]
  simp

/-- Walking the entries from the slot of `begin` pairs each entry with the part
of its slot at or above `begin`, as long as that starts below `end`. -/
theorem mem_zipBlocks_drop {n base s endAddr : Nat} (hs : 0 < s) (hbase : base % s = 0)
    {k begin : Nat} (hlo : slotBase base s k ≤ begin) (hhi : begin < slotBase base s k + s)
    (i : Fin n) (b : Nat) :
    (i, b) ∈ zipBlocks s endAddr ((finRange n).drop k) begin ↔
      k ≤ i ∧ b = max begin (slotBase base s i) ∧ b < endAddr := by
  by_cases hk : k < n
  · rw [finRange_drop hk, zipBlocks]
    by_cases hend : begin ≥ endAddr
    · simp only [hend, if_true, not_mem_nil, false_iff, not_and]
      intro _ hb
      omega
    · have hnext := startOfNextBlock_of_slot hs hbase hlo hhi
      have hsucc := slotBase_succ base s k
      have ih : (i, b) ∈ zipBlocks s endAddr ((finRange n).drop (k + 1))
          (slotBase base s (k + 1)) ↔ _ :=
        mem_zipBlocks_drop hs hbase le_rfl (by omega) i b
      simp only [hend, if_false, mem_cons, hnext, ih, Prod.mk.injEq]
      rcases lt_trichotomy (i : Nat) k with hik | hik | hik
      · constructor
        · rintro (⟨rfl, -⟩ | ⟨h, -⟩)
          · simp at hik
          · omega
        · rintro ⟨h, -⟩
          omega
      · have hmax : max begin (slotBase base s i) = begin := by rw [hik]; omega
        have hi : i = ⟨k, hk⟩ := Fin.ext hik
        rw [hmax]
        constructor
        · rintro (⟨-, rfl⟩ | ⟨h, -⟩)
          · exact ⟨hik.ge, rfl, not_le.mp hend⟩
          · omega
        · rintro ⟨-, rfl, -⟩
          exact Or.inl ⟨hi, rfl⟩
      · have hge : slotBase base s (k + 1) ≤ slotBase base s i := slotBase_mono base s hik
        have hmax : max begin (slotBase base s i) = slotBase base s i := by omega
        have hmax' : max (slotBase base s (k + 1)) (slotBase base s i) = slotBase base s i := by
          omega
        have hne : i ≠ ⟨k, hk⟩ := by
          intro h
          rw [h] at hik
          exact lt_irrefl k hik
        rw [hmax, hmax']
        simp only [hne, false_and, false_or]
        constructor
        · rintro ⟨h, rest⟩
          exact ⟨by omega, rest⟩
        · rintro ⟨h, rest⟩
          exact ⟨by omega, rest⟩
  · rw [drop_eq_nil_of_le (by simpa using hk)]
    simp only [zipBlocks, not_mem_nil, false_iff, not_and]
    intro h
    have := i.isLt
    omega
termination_by n - k

theorem zipBlocks_fst_sublist {ι : Type} (s endAddr : Nat) (is : List ι) (begin : Nat) :
    ((zipBlocks s endAddr is begin).map Prod.fst).Sublist is := by
  induction is generalizing begin with
  | nil => simp [zipBlocks]
  | cons i is ih =>
    rw [zipBlocks]
    split
    · simp
    · simpa using ih (startOfNextBlock begin s)

theorem zipBlocks_drop_nodup (n s endAddr k begin : Nat) :
    ((zipBlocks s endAddr ((finRange n).drop k) begin).map Prod.fst).Nodup :=
  (zipBlocks_fst_sublist _ _ _ _).nodup
    ((drop_sublist _ _).nodup (nodup_finRange n))

end Hafnium
