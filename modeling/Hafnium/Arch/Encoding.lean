import Hafnium.Arch.Aarch64

/-!
# Facts about the aarch64 entry encoding

An entry packs an output address (bits 12 to 47), a type bit (bit 1) and
attributes (all other bits).  The lemmas below say what each reader returns on
each kind of entry the code builds: absent entries, table descriptors, blocks,
and the blocks that `populate_table` derives from a larger block.
-/

namespace Hafnium

open BitVec (and_comm and_zero toNat_and zero_or)
namespace Aarch64

/-! ## Addresses and attributes -/

theorem pteAddrMask_getLsbD : ∀ i < 64, pteAddrMask.getLsbD i = decide (12 ≤ i ∧ i < 48) := by
  decide

/-- An address that fits the address field of an entry. -/
structure IsPa (pa : Nat) : Prop where
  aligned : pa % 4096 = 0
  bound : pa < 2 ^ 48

instance (pa : Nat) : Decidable (IsPa pa) :=
  decidable_of_iff (pa % 4096 = 0 ∧ pa < 2 ^ 48)
    ⟨fun h => ⟨h.1, h.2⟩, fun h => ⟨h.aligned, h.bound⟩⟩

theorem IsPa.testBit {pa : Nat} (h : IsPa pa) (i : Nat)
    (hi : ¬(12 ≤ i ∧ i < 48)) : pa.testBit i = false := by
  by_cases hlow : i < 12
  · have hdvd : pa = 2 ^ 12 * (pa / 4096) := by have := h.aligned; omega
    rw [hdvd, Nat.testBit_two_pow_mul]
    simp [Nat.not_le.mpr hlow]
  · have hlt : pa < 2 ^ i :=
      lt_of_lt_of_le h.bound (Nat.pow_le_pow_right (by decide) (by omega))
    exact Nat.testBit_lt_two_pow hlt

theorem IsPa.and_addrMask {pa : Nat} (h : IsPa pa) :
    BitVec.ofNat 64 pa &&& pteAddrMask = BitVec.ofNat 64 pa := by
  apply BitVec.eq_of_getLsbD_eq
  intro i hi
  rw [BitVec.getLsbD_and, pteAddrMask_getLsbD i hi, BitVec.getLsbD_ofNat]
  by_cases hr : 12 ≤ i ∧ i < 48
  · simp [hr]
  · simp [hr, h.testBit i hr]

theorem IsPa.and_eq_zero {pa : Nat} (h : IsPa pa) {m : BitVec 64}
    (hm : pteAddrMask &&& m = 0#64) : BitVec.ofNat 64 pa &&& m = 0#64 := by
  rw [← h.and_addrMask, BitVec.and_assoc, hm, and_zero]

theorem IsPa.toNat {pa : Nat} (h : IsPa pa) : (BitVec.ofNat 64 pa).toNat = pa := by
  have := h.bound
  simp only [BitVec.toNat_ofNat]
  omega

/-- Attributes that stay clear of the address bits and of the type bit. -/
def AttrsOk (attrs : BitVec 64) : Prop := attrs &&& pteAttrMask = attrs

theorem AttrsOk.and_eq_zero {attrs : BitVec 64} (h : AttrsOk attrs) {m : BitVec 64}
    (hm : pteAttrMask &&& m = 0#64) : attrs &&& m = 0#64 := by
  rw [← h, BitVec.and_assoc, hm, and_zero]

theorem attrsOk_pteAttrs (pte : Pte) (level : Nat) : AttrsOk (archMmPteAttrs pte level) := by
  simp [AttrsOk, archMmPteAttrs, BitVec.and_assoc]

theorem attrsOk_modeToStage1Attrs (mode : Mode) : AttrsOk (archMmModeToStage1Attrs mode) := by
  unfold AttrsOk archMmModeToStage1Attrs
  dsimp only
  split_ifs <;> decide

theorem attrsOk_modeToStage2Attrs (mode : Mode) : AttrsOk (archMmModeToStage2Attrs mode) := by
  unfold AttrsOk archMmModeToStage2Attrs
  dsimp only
  split_ifs <;> decide

/-! ## Facts about entries -/

theorem archMmPteIsValid_pteAttrs (pte : Pte) (l l' : Nat) :
    archMmPteIsValid (archMmPteAttrs pte l) l' = archMmPteIsValid pte l' := by
  have hm : pteAttrMask &&& pteValid = pteValid := by decide
  simp [archMmPteIsValid, archMmPteAttrs, BitVec.and_assoc, hm]

/-- Whether an entry is present can be read off its attributes. -/
theorem archMmPteIsPresent_pteAttrs (pte : Pte) (l l' : Nat) :
    archMmPteIsPresent (archMmPteAttrs pte l) l' = archMmPteIsPresent pte l' := by
  have hm : pteAttrMask &&& stage2SwOwned = stage2SwOwned := by decide
  rw [archMmPteIsPresent, archMmPteIsPresent, archMmPteIsValid_pteAttrs]
  simp [archMmPteAttrs, BitVec.and_assoc, hm]

theorem archMmPteIsPresent_level (pte : Pte) (l l' : Nat) :
    archMmPteIsPresent pte l = archMmPteIsPresent pte l' := rfl

theorem archMmPteIsPresent_congr {pte pte' : Pte} {l l' : Nat}
    (h : archMmPteAttrs pte l = archMmPteAttrs pte' l') (k k' : Nat) :
    archMmPteIsPresent pte k = archMmPteIsPresent pte' k' := by
  rw [← archMmPteIsPresent_pteAttrs pte l k, h, archMmPteIsPresent_pteAttrs,
    archMmPteIsPresent_level]

theorem archMmPteIsPresent_absent (l : Nat) : archMmPteIsPresent (archMmAbsentPte l) l = false := by
  simp [archMmPteIsPresent, archMmPteIsValid, archMmAbsentPte]

theorem archMmPteIsTable_absent (l : Nat) : archMmPteIsTable (archMmAbsentPte l) l = false := by
  simp [archMmPteIsTable, archMmPteIsValid, archMmAbsentPte]

theorem archMmPteIsTable_zero (pte : Pte) : archMmPteIsTable pte 0 = false := by
  simp [archMmPteIsTable]

/-- A table descriptor is valid, so it is present. -/
theorem archMmPteIsPresent_of_isTable {pte : Pte} {l : Nat}
    (h : archMmPteIsTable pte l = true) : archMmPteIsPresent pte l = true := by
  simp only [archMmPteIsTable, Bool.and_eq_true] at h
  simp [archMmPteIsPresent, h.1.2]

theorem archMmPteIsValid_of_isTable {pte : Pte} {l : Nat}
    (h : archMmPteIsTable pte l = true) : archMmPteIsValid pte l = true := by
  simp only [archMmPteIsTable, Bool.and_eq_true] at h
  exact h.1.2

/-- A table descriptor is never taken for a block. -/
theorem archMmPteIsBlock_of_isTable {pte : Pte} {l : Nat}
    (h : archMmPteIsTable pte l = true) : archMmPteIsBlock pte l = false := by
  have hl : l ≠ 0 := by
    rintro rfl
    simp [archMmPteIsTable_zero] at h
  simp [archMmPteIsBlock, hl, h]

/-- Above level 0 a block is an entry that is present and not a table. -/
theorem archMmPteIsBlock_succ (pte : Pte) (l : Nat) : archMmPteIsBlock pte (l + 1) =
      (archMmIsBlockAllowed (l + 1) && archMmPteIsPresent pte (l + 1) &&
        !archMmPteIsTable pte (l + 1)) := by
  simp [archMmPteIsBlock, Bool.and_assoc]

/-- Every address read from an entry fits one. -/
theorem isPa_tableFromPte (w : Pte) (level : Nat) : IsPa (archMmTableFromPte w level) := by
  constructor
  · have hlow : pteAddr w &&& 4095#64 = 0#64 := by
      have hm : pteAddrMask &&& 4095#64 = 0#64 := by decide
      rw [pteAddr, BitVec.and_assoc, hm, and_zero]
    have := congrArg BitVec.toNat hlow
    rw [toNat_and, show (4095#64).toNat = 2 ^ 12 - 1 from rfl,
      Nat.and_two_pow_sub_one_eq_mod] at this
    exact this
  · have hle : (pteAddr w).toNat ≤ pteAddrMask.toNat := by
      rw [pteAddr, toNat_and]
      exact Nat.and_le_right
    have hval : pteAddrMask.toNat = 2 ^ 48 - 2 ^ 12 := by decide
    simp only [archMmTableFromPte]
    omega

section TablePte

variable {pa : Nat} (hpa : IsPa pa)
include hpa

theorem archMmTableFromPte_tablePte (l : Nat) :
    archMmTableFromPte (archMmTablePte l pa) l = pa := by
  have h1 : pteTable &&& pteAddrMask = 0#64 := by decide
  have h2 : pteValid &&& pteAddrMask = 0#64 := by decide
  simp only [archMmTableFromPte, pteAddr, archMmTablePte, BitVec.and_or_distrib_right,
    hpa.and_addrMask, h1, h2, BitVec.or_zero, hpa.toNat]

theorem archMmPteIsTable_tablePte (l : Nat) :
    archMmPteIsTable (archMmTablePte (l + 1) pa) (l + 1) = true := by
  have h1 : BitVec.ofNat 64 pa &&& pteValid = 0#64 := hpa.and_eq_zero (by decide)
  have h2 : BitVec.ofNat 64 pa &&& pteTable = 0#64 := hpa.and_eq_zero (by decide)
  simp only [archMmPteIsTable, archMmPteIsValid, archMmTablePte, BitVec.and_or_distrib_right,
    h1, h2, bne_iff_ne.mpr (Nat.succ_ne_zero l)]
  decide

end TablePte

section BlockPte

variable {pa : Nat} (hpa : IsPa pa) {attrs : BitVec 64} (hattrs : AttrsOk attrs)
include hpa hattrs

theorem archMmPteAttrs_blockPte (l l' : Nat) :
    archMmPteAttrs (archMmBlockPte l pa attrs) l' = attrs := by
  have h1 : BitVec.ofNat 64 pa &&& pteAttrMask = 0#64 := hpa.and_eq_zero (by decide)
  have h2 : pteLevel0Block &&& pteAttrMask = 0#64 := by decide
  have h3 : attrs &&& pteAttrMask = attrs := hattrs
  unfold archMmPteAttrs archMmBlockPte
  dsimp only
  split_ifs
  · simp only [BitVec.and_or_distrib_right, h1, h2, h3, BitVec.or_zero, zero_or]
  · simp only [BitVec.and_or_distrib_right, h1, h3, zero_or]

theorem archMmBlockFromPte_blockPte (l l' : Nat) :
    archMmBlockFromPte (archMmBlockPte l pa attrs) l' = pa := by
  have h1 : attrs &&& pteAddrMask = 0#64 := hattrs.and_eq_zero (by decide)
  have h2 : pteLevel0Block &&& pteAddrMask = 0#64 := by decide
  unfold archMmBlockFromPte pteAddr archMmBlockPte
  dsimp only
  split_ifs
  · simp only [BitVec.and_or_distrib_right, h1, h2, hpa.and_addrMask, BitVec.or_zero, hpa.toNat]
  · simp only [BitVec.and_or_distrib_right, h1, hpa.and_addrMask, BitVec.or_zero, hpa.toNat]

theorem archMmPteIsTable_blockPte (l : Nat) :
    archMmPteIsTable (archMmBlockPte l pa attrs) l = false := by
  cases l with
  | zero => exact archMmPteIsTable_zero _
  | succ l =>
    have h1 : BitVec.ofNat 64 pa &&& pteTable = 0#64 := hpa.and_eq_zero (by decide)
    have h2 : attrs &&& pteTable = 0#64 := hattrs.and_eq_zero (by decide)
    simp [archMmPteIsTable, archMmBlockPte, BitVec.and_or_distrib_right, h1, h2]

/-- Where blocks are allowed, a block entry that is present reads as a block. -/
theorem archMmPteIsBlock_blockPte {l : Nat} (hl : archMmIsBlockAllowed l = true)
    (hp : archMmPteIsPresent (archMmBlockPte l pa attrs) l = true) :
    archMmPteIsBlock (archMmBlockPte l pa attrs) l = true := by
  cases l with
  | zero =>
    have h1 : pteLevel0Block &&& pteLevel0Block = pteLevel0Block := by decide
    have h2 : BitVec.ofNat 64 pa &&& pteLevel0Block = 0#64 := hpa.and_eq_zero (by decide)
    have h3 : attrs &&& pteLevel0Block = 0#64 := hattrs.and_eq_zero (by decide)
    simp only [archMmPteIsBlock, archMmBlockPte, BitVec.and_or_distrib_right, h2, h3,
      zero_or, h1, hl, if_true, Bool.true_and]
    decide
  | succ l =>
    rw [archMmPteIsBlock_succ, hl, hp, archMmPteIsTable_blockPte hpa hattrs]
    rfl

end BlockPte

section Split

/-- The address of a block is a multiple of the block's size, so adding an
offset inside the block only sets bits that are clear. -/
theorem and_eq_zero_of_offset {base x k : Nat} (hbase : base % 2 ^ k = 0) (hx : x < 2 ^ k) :
    base &&& x = 0 := by
  apply Nat.eq_of_testBit_eq
  intro i
  rw [Nat.testBit_and, Nat.zero_testBit]
  by_cases hi : i < k
  · have hb : base = 2 ^ k * (base / 2 ^ k) :=
      (Nat.mul_div_cancel' (Nat.dvd_of_mod_eq_zero hbase)).symm
    rw [hb, Nat.testBit_two_pow_mul]
    simp [Nat.not_le.mpr hi]
  · have hlt : x < 2 ^ i :=
      lt_of_lt_of_le hx (Nat.pow_le_pow_right (by decide) (by omega))
    simp [Nat.testBit_lt_two_pow hlt]

variable {pte : Pte} {l k x : Nat}
variable (hbase : archMmBlockFromPte pte (l + 1) % 2 ^ k = 0) (hx : x < 2 ^ k) (hpa : IsPa x)
include hbase hx hpa

theorem and_offset_eq_zero : pte &&& BitVec.ofNat 64 x = 0#64 := by
  have h : pte &&& BitVec.ofNat 64 x = pteAddr pte &&& BitVec.ofNat 64 x := by
    rw [pteAddr, BitVec.and_assoc, and_comm pteAddrMask, hpa.and_addrMask]
  rw [h]
  apply BitVec.eq_of_toNat_eq
  rw [toNat_and, hpa.toNat]
  exact and_eq_zero_of_offset hbase hx

/-- The address handed to `arch_mm_block_pte` when a block is split still
carries the attributes of the block. -/
theorem ofNat_inner_add_offset : BitVec.ofNat 64 (pte.toNat + x) = pte ||| BitVec.ofNat 64 x := by
  rw [← BitVec.add_eq_or_of_and_eq_zero _ _ (and_offset_eq_zero hbase hx hpa)]
  apply BitVec.eq_of_toNat_eq
  simp

theorem archMmPteAttrs_splitPte (l' : Nat) :
    archMmPteAttrs (archMmBlockPte l (pte.toNat + x) (archMmPteAttrs pte (l + 1))) l' =
      archMmPteAttrs pte (l + 1) := by
  have h1 : BitVec.ofNat 64 x &&& pteAttrMask = 0#64 := hpa.and_eq_zero (by decide)
  have h2 : pteLevel0Block &&& pteAttrMask = 0#64 := by decide
  unfold archMmPteAttrs archMmBlockPte
  dsimp only
  rw [ofNat_inner_add_offset hbase hx hpa]
  split_ifs
  · simp only [BitVec.and_or_distrib_right, h1, h2, BitVec.or_zero, BitVec.and_assoc,
      BitVec.and_self, BitVec.or_self]
  · simp only [BitVec.and_or_distrib_right, h1, BitVec.or_zero, BitVec.and_assoc,
      BitVec.and_self, BitVec.or_self]

theorem archMmBlockFromPte_splitPte (l' : Nat) :
    archMmBlockFromPte (archMmBlockPte l (pte.toNat + x) (archMmPteAttrs pte (l + 1))) l' =
      archMmBlockFromPte pte (l + 1) + x := by
  have h1 : archMmPteAttrs pte (l + 1) &&& pteAddrMask = 0#64 :=
    (attrsOk_pteAttrs pte (l + 1)).and_eq_zero (by decide)
  have h2 : pteLevel0Block &&& pteAddrMask = 0#64 := by decide
  have hsum : (pteAddr pte ||| BitVec.ofNat 64 x).toNat = (pteAddr pte).toNat + x := by
    have hand : pteAddr pte &&& BitVec.ofNat 64 x = 0#64 := by
      rw [pteAddr, BitVec.and_assoc, and_comm pteAddrMask, hpa.and_addrMask]
      exact and_offset_eq_zero hbase hx hpa
    have hmask : (pteAddr pte).toNat ≤ pteAddrMask.toNat := by
      rw [pteAddr, toNat_and]
      exact Nat.and_le_right
    have hval : pteAddrMask.toNat = 2 ^ 48 - 2 ^ 12 := by decide
    have := hpa.bound
    rw [← BitVec.add_eq_or_of_and_eq_zero _ _ hand, BitVec.toNat_add, hpa.toNat]
    omega
  unfold archMmBlockFromPte archMmBlockPte
  dsimp only
  rw [ofNat_inner_add_offset hbase hx hpa]
  split_ifs
  · simp only [pteAddr, BitVec.and_or_distrib_right, h1, h2, BitVec.or_zero, hpa.and_addrMask]
    exact hsum
  · simp only [pteAddr, BitVec.and_or_distrib_right, h1, BitVec.or_zero, hpa.and_addrMask]
    exact hsum

theorem archMmPteIsTable_splitPte (hpte : archMmPteIsTable pte (l + 1) = false) : archMmPteIsTable
      (archMmBlockPte l (pte.toNat + x) (archMmPteAttrs pte (l + 1))) l = false := by
  cases l with
  | zero => exact archMmPteIsTable_zero _
  | succ l =>
    have h1 : BitVec.ofNat 64 x &&& pteTable = 0#64 := hpa.and_eq_zero (by decide)
    have h2 : archMmPteAttrs pte (l + 1 + 1) &&& pteTable = 0#64 :=
      (attrsOk_pteAttrs pte _).and_eq_zero (by decide)
    have h3 : BitVec.ofNat 64 x &&& pteValid = 0#64 := hpa.and_eq_zero (by decide)
    have h4 : archMmPteAttrs pte (l + 1 + 1) &&& pteValid = pte &&& pteValid := by
      have hm : pteAttrMask &&& pteValid = pteValid := by decide
      rw [archMmPteAttrs, BitVec.and_assoc, hm]
    simp only [archMmPteIsTable, archMmPteIsValid] at hpte
    simp only [archMmPteIsTable, archMmPteIsValid, archMmBlockPte,
      ofNat_inner_add_offset hbase hx hpa, Nat.succ_ne_zero, if_false,
      BitVec.and_or_distrib_right, h1, h2, h3, h4, BitVec.or_zero, BitVec.or_self]
    simpa using hpte

theorem archMmPteIsBlock_splitPte (hpte : archMmPteIsTable pte (l + 1) = false)
    (hp : archMmPteIsPresent pte (l + 1) = true) (hl : archMmIsBlockAllowed l = true) :
    archMmPteIsBlock
      (archMmBlockPte l (pte.toNat + x) (archMmPteAttrs pte (l + 1))) l = true := by
  have hattrs := archMmPteAttrs_splitPte hbase hx hpa l
  have hp' : archMmPteIsPresent
      (archMmBlockPte l (pte.toNat + x) (archMmPteAttrs pte (l + 1))) l = true := by
    rw [archMmPteIsPresent_congr hattrs l (l + 1), hp]
  have htable := archMmPteIsTable_splitPte hbase hx hpa hpte
  cases l with
  | zero =>
    have h1 : pteLevel0Block &&& pteLevel0Block = pteLevel0Block := by decide
    simp only [archMmPteIsBlock, hl, if_true, Bool.true_and, archMmBlockPte,
      BitVec.and_or_distrib_right, h1]
    simp only [bne_iff_ne, ne_eq]
    intro hzero
    have hbit := congrArg (fun b => b.getLsbD 1) hzero
    simp [pteLevel0Block] at hbit
  | succ l => rw [archMmPteIsBlock_succ, hl, hp', htable]; rfl

end Split

end Aarch64
end Hafnium
