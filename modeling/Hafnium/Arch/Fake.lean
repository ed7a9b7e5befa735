import Hafnium.Arch.Aarch64
import Hafnium.Support.Bitmap

/-!
# The fake entry encoding

The implementation of the `arch_mm_*` functions that the host tests use
(`src/arch/fake/mm.c`).  Attributes are the mode flags, shifted; an entry is shifted
down by two more bits at each level, so that entries of different levels differ.
-/

namespace Hafnium
namespace Fake

def pteAttrModeShift : Nat := 48

def pteAttrModeMask : BitVec 64 := Mode.all.setWidth 64 <<< pteAttrModeShift

/-- Distinguishes a table from a block: the highest of the page bits. -/
def pteTable : BitVec 64 := 1#64 <<< 11

/-- Mask for the address part of an entry. -/
def pteAddrMask : BitVec 64 := ~~~(pteAttrModeMask ||| ((1#64 <<< 12) - 1#64))

def pteLevelShift (level : Nat) : Nat := level * 2

def archMmAbsentPte (level : Nat) : Pte :=
  ((Mode.INVALID ||| Mode.UNOWNED ||| Mode.SHARED).setWidth 64 <<< pteAttrModeShift) >>>
    pteLevelShift level

def archMmTablePte (level : Nat) (pa : Nat) : Pte :=
  (BitVec.ofNat 64 pa ||| pteTable) >>> pteLevelShift level

def archMmBlockPte (level : Nat) (pa : Nat) (attrs : BitVec 64) : Pte :=
  (BitVec.ofNat 64 pa ||| attrs) >>> pteLevelShift level

def archMmIsBlockAllowed (_level : Nat) : Bool := true

def archMmPteIsValid (pte : Pte) (level : Nat) : Bool :=
  ((pte <<< pteLevelShift level) >>> pteAttrModeShift) &&& Mode.INVALID.setWidth 64 == 0#64

def archMmPteIsPresent (pte : Pte) (level : Nat) : Bool :=
  archMmPteIsValid pte level ||
    ((pte <<< pteLevelShift level) >>> pteAttrModeShift) &&& Mode.UNOWNED.setWidth 64 == 0#64

def archMmPteIsTable (pte : Pte) (level : Nat) : Bool :=
  (pte <<< pteLevelShift level) &&& pteTable != 0#64

def archMmPteIsBlock (pte : Pte) (level : Nat) : Bool :=
  archMmPteIsPresent pte level && !archMmPteIsTable pte level

def archMmClearPa (pa : Nat) : Nat := (BitVec.ofNat 64 pa &&& pteAddrMask).toNat

def archMmBlockFromPte (pte : Pte) (level : Nat) : Nat :=
  ((pte <<< pteLevelShift level) &&& pteAddrMask).toNat

def archMmTableFromPte (pte : Pte) (level : Nat) : Nat :=
  ((pte <<< pteLevelShift level) &&& pteAddrMask).toNat

def archMmPteAttrs (pte : Pte) (level : Nat) : BitVec 64 :=
  (pte <<< pteLevelShift level) &&& pteAttrModeMask

def archMmCombineTableEntryAttrs (tableAttrs blockAttrs : BitVec 64) : BitVec 64 :=
  tableAttrs ||| blockAttrs

def archMmModeToStage1Attrs (mode : Mode) : BitVec 64 :=
  (mode.setWidth 64 <<< pteAttrModeShift) &&& pteAttrModeMask

/-- Stage-2 ignores the device mode. -/
def archMmModeToStage2Attrs (mode : Mode) : BitVec 64 :=
  let mode := mode &&& ~~~Mode.D
  (mode.setWidth 64 <<< pteAttrModeShift) &&& pteAttrModeMask

def archMmStage2AttrsToMode (attrs : BitVec 64) : BitVec 32 :=
  (attrs >>> pteAttrModeShift).setWidth 32

/-! ## Readers of an entry -/

theorem pteAttrModeMask_getLsbD :
    ∀ i < 64, pteAttrModeMask.getLsbD i = decide (48 ≤ i ∧ i < 55) := by
  decide

theorem pteAddrMask_getLsbD_of_attr : ∀ i < 64, 48 ≤ i ∧ i < 55 → pteAddrMask.getLsbD i =
    false := by
  decide

theorem and_flag_eq_zero (v : BitVec 64) {k : Nat} (hk : k < 64) :
    (v &&& 1#64 <<< k == 0#64) = !v.getLsbD k := by
  have h := Support.and_mask_ne_zero (v := v) hk
  rw [Bool.eq_iff_iff, Bool.not_eq_true', Bool.eq_false_iff, beq_iff_eq, Ne, ← h, not_not]
  exact Iff.rfl

/-- Whether an entry is present depends on two of its attribute bits. -/
theorem archMmPteIsPresent_eq (pte : Pte) (level : Nat) : archMmPteIsPresent pte level =
      (!(pte <<< pteLevelShift level).getLsbD 52 || !(pte <<< pteLevelShift level).getLsbD 53) := by
  have hinvalid : Mode.INVALID.setWidth 64 = 1#64 <<< 4 := by decide
  have hunowned : Mode.UNOWNED.setWidth 64 = 1#64 <<< 5 := by decide
  rw [archMmPteIsPresent, archMmPteIsValid, hinvalid, hunowned, and_flag_eq_zero _ (by decide),
    and_flag_eq_zero _ (by decide), BitVec.getLsbD_ushiftRight, BitVec.getLsbD_ushiftRight]
  rfl

theorem archMmPteIsPresent_pteAttrs (pte : Pte) (level : Nat) :
    archMmPteIsPresent (archMmPteAttrs pte level) 0 = archMmPteIsPresent pte level := by
  have hinvalid : pteAttrModeMask.getLsbD 52 = true := by decide
  have hunowned : pteAttrModeMask.getLsbD 53 = true := by decide
  have hzero : ∀ x : BitVec 64, x <<< pteLevelShift 0 = x := fun x => BitVec.shiftLeft_zero x
  rw [archMmPteIsPresent_eq, archMmPteIsPresent_eq, archMmPteAttrs, hzero, BitVec.getLsbD_and,
    BitVec.getLsbD_and, hinvalid, hunowned, Bool.and_true, Bool.and_true]

theorem archMmPteIsPresent_absent {level : Nat} (hlevel : level ≤ 2) :
    archMmPteIsPresent (archMmAbsentPte level) level = false := by
  interval_cases level <;> decide

theorem archMmPteAttrs_blockPte {level : Nat} (hlevel : level ≤ 2) (pte : BitVec 64)
    {attrs : BitVec 64} (hattrs : attrs &&& pteAttrModeMask = attrs) :
    archMmPteAttrs (archMmBlockPte level (pte &&& pteAddrMask).toNat attrs) level = attrs := by
  apply BitVec.eq_of_getLsbD_eq
  intro i hi
  rw [← hattrs, archMmPteAttrs, archMmBlockPte, BitVec.ofNat_toNat, BitVec.setWidth_eq]
  simp only [BitVec.getLsbD_and, pteAttrModeMask_getLsbD i hi]
  by_cases hi' : 48 ≤ i ∧ i < 55
  · have hshift : ¬i < pteLevelShift level := by
      rw [pteLevelShift]
      omega
    rw [BitVec.getLsbD_shiftLeft, BitVec.getLsbD_ushiftRight,
      Nat.add_sub_cancel' (Nat.not_lt.mp hshift), BitVec.getLsbD_or, BitVec.getLsbD_and,
      BitVec.getLsbD_and, pteAddrMask_getLsbD_of_attr i hi hi', pteAttrModeMask_getLsbD i hi]
    simp [hi, hi', hshift]
  · simp [hi']

end Fake

open Fake in
/-- The fake implementation of the interface. -/
@[simps] def fake : ArchMm where
  absentPte := archMmAbsentPte
  tablePte := archMmTablePte
  blockPte := archMmBlockPte
  isBlockAllowed := archMmIsBlockAllowed
  pteIsPresent := archMmPteIsPresent
  pteIsValid := archMmPteIsValid
  pteIsBlock := archMmPteIsBlock
  pteIsTable := archMmPteIsTable
  clearPa := archMmClearPa
  blockFromPte := archMmBlockFromPte
  tableFromPte := archMmTableFromPte
  pteAttrs := archMmPteAttrs
  combineTableEntryAttrs := archMmCombineTableEntryAttrs
  modeToStage1Attrs := archMmModeToStage1Attrs
  modeToStage2Attrs := archMmModeToStage2Attrs
  stage2AttrsToMode := archMmStage2AttrsToMode

end Hafnium
