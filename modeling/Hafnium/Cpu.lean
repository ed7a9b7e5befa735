import Hafnium.Abi
import Hafnium.Support.Traverse

/-!
# Virtual CPUs

The parts of `cpu.rs` that hypercalls use: the status of a vCPU, its virtual
interrupts, its saved registers, and the virtual timer of `timer.c`.
-/

namespace Hafnium

open Support

inductive VCpuStatus
  | off
  | ready
  | blockedMailbox
  | blockedInterrupt
  | aborted
  deriving DecidableEq, Repr

/-! ## Virtual interrupts -/

def interruptRegisterBits : Nat := 32

structure Interrupts where
  enabled : Fin 2 → BitVec 32
  pending : Fin 2 → BitVec 32
  /-- The number of bits set in `enabled & pending`. -/
  enabledAndPendingCount : BitVec 32
  deriving DecidableEq

namespace Interrupts

def new : Interrupts := ⟨fun _ => 0, fun _ => 0, 0⟩

/-- The register and the bit of an interrupt. -/
def idToIndex (intid : Nat) : Option (Fin 2 × BitVec 32) :=
  if h : intid < hfNumIntids then
    some (⟨intid / interruptRegisterBits, Nat.div_lt_of_lt_mul h⟩,
      1#32 <<< (intid % interruptRegisterBits))
  else none

/-- Makes an interrupt pending; `ok` if the vCPU had no interrupt to take before
and now has one. -/
def inject (intid : Nat) (self : Interrupts) : Outcome × Interrupts :=
  match idToIndex intid with
  | none => (.err, self)
  | some (i, mask) =>
    let pending := self.pending i
    let self := { self with pending := Function.update self.pending i (pending ||| mask) }
    if self.enabled i &&& ~~~pending &&& mask = 0 then (.err, self)
    else
      let self := { self with enabledAndPendingCount := self.enabledAndPendingCount + 1 }
      (if self.enabledAndPendingCount ≠ 1 then .err else .ok, self)

def enable (intid : Nat) (enable : Bool) (self : Interrupts) : Outcome × Interrupts :=
  match idToIndex intid with
  | none => (.err, self)
  | some (i, mask) =>
    if enable then
      let count :=
        if self.pending i &&& ~~~self.enabled i &&& mask ≠ 0 then self.enabledAndPendingCount + 1
        else self.enabledAndPendingCount
      (.ok, { self with
        enabled := Function.update self.enabled i (self.enabled i ||| mask)
        enabledAndPendingCount := count })
    else
      let count :=
        if self.pending i &&& self.enabled i &&& mask ≠ 0 then self.enabledAndPendingCount - 1
        else self.enabledAndPendingCount
      (.ok, { self with
        enabled := Function.update self.enabled i (self.enabled i &&& ~~~mask)
        enabledAndPendingCount := count })

def isInterrupted (self : Interrupts) : Bool := self.enabledAndPendingCount != 0

/-- The first interrupt that is enabled and pending; it is no longer pending
afterwards. -/
def get (self : Interrupts) : Nat × Interrupts :=
  match (List.finRange 2).find? fun i => self.enabled i &&& self.pending i != 0 with
  | none => (hfInvalidIntid, self)
  | some i =>
    let bitIndex := (self.enabled i &&& self.pending i).ctz.toNat
    (i * interruptRegisterBits + bitIndex, { self with
      pending := Function.update self.pending i (self.pending i &&& ~~~(1#32 <<< bitIndex))
      enabledAndPendingCount := self.enabledAndPendingCount - 1 })

end Interrupts

/-! ## The virtual timer -/

/-- The registers of the virtual timer on the physical CPU that makes a call. -/
structure Timer where
  cntvCtl : BitVec 64
  cntvCval : BitVec 64
  cntvct : BitVec 64
  cntfrq : BitVec 64
  deriving DecidableEq, Repr

def cntvCtlEnable : BitVec 64 := 1
def cntvCtlImask : BitVec 64 := 2
def cntvCtlIstatus : BitVec 64 := 4
def nanosPerUnit : BitVec 64 := 1000000000

/-- The timer is enabled and its interrupt not masked. -/
def timerEnabled (cntvCtl : BitVec 64) : Bool :=
  cntvCtl &&& cntvCtlEnable != 0 && cntvCtl &&& cntvCtlImask == 0

def timerRemainingTicks (cntvCval cntvct : BitVec 64) : BitVec 64 :=
  if cntvct ≤ cntvCval then cntvCval - cntvct else 0

namespace Timer

def ticksToNs (timer : Timer) (ticks : BitVec 64) : BitVec 64 := ticks * nanosPerUnit / timer.cntfrq

def enabledCurrent (timer : Timer) : Bool := timerEnabled timer.cntvCtl

def remainingNsCurrent (timer : Timer) : BitVec 64 :=
  timer.ticksToNs (timerRemainingTicks timer.cntvCval timer.cntvct)

def disableCurrent (timer : Timer) : Timer := { timer with cntvCtl := 0 }

end Timer

/-! ## Registers and vCPUs -/

/-- The registers that `arch_regs_reset` sets, but for `mdcr_el2`, whose value depends on
the features of the CPU; the other ones become 0. -/
structure ControlRegs where
  (spsr hcrEl2 cptrEl2 cnthctlEl2 vttbrEl2 vmpidrEl2 mdscrEl1 : BitVec 64 := 0)
  (ichHcrEl2 iccSreEl2 : BitVec 32 := 0)
  deriving DecidableEq, Repr

/-- The saved registers of a vCPU that the hypervisor looks at. -/
structure ArchRegs where
  /-- The values that the return value register was set to, the last one first. -/
  retvals : List (BitVec 64)
  cntvCtl : BitVec 64
  cntvCval : BitVec 64
  /-- The entry points and arguments that the vCPU was to start with, the last ones
  first. -/
  pcArgs : List (BitVec 64 × BitVec 64)
  /-- As they were last reset. -/
  control : ControlRegs
  deriving DecidableEq, Repr

namespace ArchRegs

/-- All registers but the PC and the argument become 0 or get fixed values.  A
secondary VM traps more than the primary VM. -/
def reset (isPrimary : Bool) (vmId vcpuId table : Nat) (regs : ArchRegs) : ArchRegs :=
  { regs with
    cntvCtl := 0
    cntvCval := 0
    control := {
      -- RW, TACR, TSC, TIDCP, PTW, VM, and AMO, IMO, FMO, FB, BSU, TWI, TWE
      hcrEl2 := .ofNat 64 <| 1 <<< 31 ||| 1 <<< 21 ||| 1 <<< 19 ||| 1 <<< 20 ||| 1 <<< 2 ||| 1 |||
        if isPrimary then 0 else 7 <<< 3 ||| 1 <<< 9 ||| 1 <<< 10 ||| 3 <<< 13
      cnthctlEl2 := if isPrimary then 3 else 0
      vttbrEl2 := .ofNat 64 (table ||| vmId <<< 48)
      vmpidrEl2 := .ofNat 64 vcpuId
      -- EL1h, interrupts disabled
      spsr := .ofNat 64 (5 ||| 0xf <<< 6)
      -- with a GIC of version 3 or 4
      ichHcrEl2 := if isPrimary then 0 else .ofNat 32 (0x1f <<< 10)
      iccSreEl2 := if isPrimary then 0xf else 7 } }

def setPcArg (pc arg : BitVec 64) (regs : ArchRegs) : ArchRegs :=
  { regs with pcArgs := (pc, arg) :: regs.pcArgs }

def setRetval (v : BitVec 64) (regs : ArchRegs) : ArchRegs :=
  { regs with retvals := v :: regs.retvals }

def timerMask (regs : ArchRegs) : ArchRegs := { regs with cntvCtl := regs.cntvCtl ||| cntvCtlImask }

def timerEnabled (regs : ArchRegs) : Bool := Hafnium.timerEnabled regs.cntvCtl

def timerRemainingNs (timer : Timer) (regs : ArchRegs) : BitVec 64 :=
  timer.ticksToNs (timerRemainingTicks regs.cntvCval timer.cntvct)

/-- The timer is ready to fire.  The condition may have been met since the
registers were saved. -/
def timerPending (timer : Timer) (regs : ArchRegs) : Bool :=
  regs.timerEnabled && (regs.cntvCtl &&& cntvCtlIstatus != 0 ||
    timerRemainingTicks regs.cntvCval timer.cntvct == 0)

end ArchRegs

/-- A vCPU.  `locked` is its execution lock, which a physical CPU holds while it
runs the vCPU; `cpu` is the index of the physical CPU it last ran on. -/
structure VCpu where
  state : VCpuStatus
  cpu : Option Nat
  regs : ArchRegs
  locked : Bool
  interrupts : Interrupts
  deriving DecidableEq

namespace VCpu

def on (entry arg : BitVec 64) (self : VCpu) : VCpu :=
  { self with regs := self.regs.setPcArg entry arg, state := .ready }

/-- Aborted still counts as on. -/
def isOff (self : VCpu) : Bool := self.state == .off

end VCpu
end Hafnium
