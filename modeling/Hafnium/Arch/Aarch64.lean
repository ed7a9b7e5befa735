import Hafnium.Arch.Mode
import Mathlib.Tactic

/-!
# Page table entry encodings

`mm.rs` is written against the `arch_mm_*` functions, which each architecture
implements.  `ArchMm` is that interface.  This module gives the aarch64
implementation (`src/arch/aarch64/mm.c`) on 64-bit words and derives from it
the facts about entries that the page table proofs use; no later module looks
at the bits of an entry again.
-/

namespace Hafnium

/-- A page table entry as stored in memory (`pte_t`). -/
abbrev Pte := BitVec 64

/-- The part of the architecture interface that the page table code calls. -/
structure ArchMm where
  absentPte : Nat → Pte
  tablePte : Nat → Nat → Pte
  blockPte : Nat → Nat → BitVec 64 → Pte
  isBlockAllowed : Nat → Bool
  pteIsPresent : Pte → Nat → Bool
  pteIsValid : Pte → Nat → Bool
  pteIsBlock : Pte → Nat → Bool
  pteIsTable : Pte → Nat → Bool
  clearPa : Nat → Nat
  blockFromPte : Pte → Nat → Nat
  tableFromPte : Pte → Nat → Nat
  pteAttrs : Pte → Nat → BitVec 64
  combineTableEntryAttrs : BitVec 64 → BitVec 64 → BitVec 64
  modeToStage1Attrs : Mode → BitVec 64
  modeToStage2Attrs : Mode → BitVec 64
  stage2AttrsToMode : BitVec 64 → BitVec 32

namespace Aarch64

def pteValid : BitVec 64 := 1#64 <<< 0
def pteLevel0Block : BitVec 64 := 1#64 <<< 1
def pteTable : BitVec 64 := 1#64 <<< 1

def stage1Xn : BitVec 64 := 1#64 <<< 54
def stage1Pxn : BitVec 64 := 1#64 <<< 53
def stage1Af : BitVec 64 := 1#64 <<< 10
def stage1Sh (x : BitVec 64) : BitVec 64 := x <<< 8
def stage1Ap2 : BitVec 64 := 1#64 <<< 7
def stage1Ap1 : BitVec 64 := 1#64 <<< 6
def stage1Ap (x : BitVec 64) : BitVec 64 := x <<< 6
def stage1Ns : BitVec 64 := 1#64 <<< 5
def stage1AttrIndx (x : BitVec 64) : BitVec 64 := x <<< 2

def stage2Xn (x : BitVec 64) : BitVec 64 := x <<< 53
def stage2Af : BitVec 64 := 1#64 <<< 10
def stage2Sh (x : BitVec 64) : BitVec 64 := x <<< 8
def stage2S2ap (x : BitVec 64) : BitVec 64 := x <<< 6
def stage2MemattrNormal (outer inner : BitVec 64) : BitVec 64 :=
  ((outer <<< 2) ||| inner) <<< 2

def tableNstable : BitVec 64 := 1#64 <<< 63
def tableAptable1 : BitVec 64 := 1#64 <<< 62
def tableAptable0 : BitVec 64 := 1#64 <<< 61
def tableXntable : BitVec 64 := 1#64 <<< 60
def tablePxntable : BitVec 64 := 1#64 <<< 59

/-- Stage-2 software defined attribute: the VM owns the memory. -/
def stage2SwOwned : BitVec 64 := 1#64 <<< 55
/-- Stage-2 software defined attribute: access is exclusive. -/
def stage2SwExclusive : BitVec 64 := 1#64 <<< 56

/-- Mask for the address bits of an entry. -/
def pteAddrMask : BitVec 64 := ((1#64 <<< 48) - 1#64) &&& ~~~((1#64 <<< 12) - 1#64)

/-- Mask for the attribute bits of an entry. -/
def pteAttrMask : BitVec 64 := ~~~(pteAddrMask ||| (1#64 <<< 1))

def archMmAbsentPte (_level : Nat) : Pte := 0#64

def archMmTablePte (_level : Nat) (pa : Nat) : Pte :=
  BitVec.ofNat 64 pa ||| pteTable ||| pteValid

/-- A block entry.  A level 0 "block" is actually a page entry, which carries
an extra bit. -/
def archMmBlockPte (level : Nat) (pa : Nat) (attrs : BitVec 64) : Pte :=
  let pte := BitVec.ofNat 64 pa ||| attrs
  if level = 0 then pte ||| pteLevel0Block else pte

def archMmIsBlockAllowed (level : Nat) : Bool := level ≤ 2

def archMmPteIsValid (pte : Pte) (_level : Nat) : Bool := pte &&& pteValid != 0#64

/-- Valid, or invalid but still holding state about the memory. -/
def archMmPteIsPresent (pte : Pte) (level : Nat) : Bool :=
  archMmPteIsValid pte level || pte &&& stage2SwOwned != 0#64

def archMmPteIsTable (pte : Pte) (level : Nat) : Bool :=
  level != 0 && archMmPteIsValid pte level && pte &&& pteTable != 0#64

/-- Pages at level 0 count as blocks. -/
def archMmPteIsBlock (pte : Pte) (level : Nat) : Bool :=
  archMmIsBlockAllowed level &&
    (if level = 0 then pte &&& pteLevel0Block != 0#64
      else archMmPteIsPresent pte level && !archMmPteIsTable pte level)

def pteAddr (pte : Pte) : BitVec 64 := pte &&& pteAddrMask

def archMmClearPa (pa : Nat) : Nat := (pteAddr (BitVec.ofNat 64 pa)).toNat

def archMmBlockFromPte (pte : Pte) (_level : Nat) : Nat := (pteAddr pte).toNat

def archMmTableFromPte (pte : Pte) (_level : Nat) : Nat := (pteAddr pte).toNat

def archMmPteAttrs (pte : Pte) (_level : Nat) : BitVec 64 := pte &&& pteAttrMask

def archMmModeToStage1Attrs (mode : Mode) : BitVec 64 :=
  let attrs := stage1Af ||| stage1Sh 2#64
  let attrs := if mode &&& Mode.X = 0#32 then attrs ||| stage1Xn else attrs
  let attrs :=
    if mode &&& Mode.W ≠ 0#32 then attrs ||| stage1Ap 0#64 else attrs ||| stage1Ap 2#64
  let attrs :=
    if mode &&& Mode.D ≠ 0#32 then attrs ||| stage1AttrIndx 0#64
    else attrs ||| stage1AttrIndx 1#64
  if mode &&& Mode.INVALID = 0#32 then attrs ||| pteValid else attrs

def archMmModeToStage2Attrs (mode : Mode) : BitVec 64 :=
  let attrs := stage2Af ||| stage2Sh 0#64
  let access : BitVec 64 := if mode &&& Mode.R ≠ 0#32 then 1#64 else 0#64
  let access := if mode &&& Mode.W ≠ 0#32 then access ||| 2#64 else access
  let attrs := attrs ||| stage2S2ap access
  let attrs :=
    if mode &&& Mode.X ≠ 0#32 then attrs ||| stage2Xn 0#64 else attrs ||| stage2Xn 2#64
  let attrs := attrs ||| stage2MemattrNormal 3#64 3#64
  let attrs := if mode &&& Mode.UNOWNED = 0#32 then attrs ||| stage2SwOwned else attrs
  let attrs := if mode &&& Mode.SHARED = 0#32 then attrs ||| stage2SwExclusive else attrs
  if mode &&& Mode.INVALID = 0#32 then attrs ||| pteValid else attrs

def archMmStage2AttrsToMode (attrs : BitVec 64) : BitVec 32 :=
  let mode : BitVec 32 := 0#32
  let mode := if attrs &&& stage2S2ap 1#64 ≠ 0#64 then mode ||| Mode.R else mode
  let mode := if attrs &&& stage2S2ap 2#64 ≠ 0#64 then mode ||| Mode.W else mode
  let mode := if attrs &&& stage2Xn 3#64 = stage2Xn 0#64 then mode ||| Mode.X else mode
  let mode := if attrs &&& stage2SwOwned = 0#64 then mode ||| Mode.UNOWNED else mode
  let mode := if attrs &&& stage2SwExclusive = 0#64 then mode ||| Mode.SHARED else mode
  if attrs &&& pteValid = 0#64 then mode ||| Mode.INVALID else mode

/-- Attributes for a block that replaces a whole table.  Only stage-1 table
descriptors have attributes. -/
def archMmCombineTableEntryAttrs (tableAttrs blockAttrs : BitVec 64) : BitVec 64 :=
  let b := blockAttrs
  let b := if tableAttrs &&& tableNstable ≠ 0#64 then b ||| stage1Ns else b
  let b := if tableAttrs &&& tableAptable1 ≠ 0#64 then b ||| stage1Ap2 else b
  let b := if tableAttrs &&& tableAptable0 ≠ 0#64 then b &&& ~~~stage1Ap1 else b
  let b := if tableAttrs &&& tableXntable ≠ 0#64 then b ||| stage1Xn else b
  if tableAttrs &&& tablePxntable ≠ 0#64 then b ||| stage1Pxn else b

end Aarch64

open Aarch64 in
/-- The aarch64 implementation of the interface. -/
@[simps] def aarch64 : ArchMm where
  absentPte := archMmAbsentPte
  tablePte := archMmTablePte
  blockPte := archMmBlockPte
  isBlockAllowed := archMmIsBlockAllowed
  pteIsPresent := archMmPteIsPresent
  pteIsValid := archMmPteIsValid
  pteIsBlock := archMmPteIsBlock
  pteIsTable := archMmPteIsTable
  clearPa := archMmClearPa
  blockFromPte := archMmBlockFromPte
  tableFromPte := archMmTableFromPte
  pteAttrs := archMmPteAttrs
  combineTableEntryAttrs := archMmCombineTableEntryAttrs
  modeToStage1Attrs := archMmModeToStage1Attrs
  modeToStage2Attrs := archMmModeToStage2Attrs
  stage2AttrsToMode := archMmStage2AttrsToMode

end Hafnium
