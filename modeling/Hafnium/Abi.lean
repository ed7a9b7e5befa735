import Hafnium.Arch.Mode
import Hafnium.Mm.Addr

/-!
# Interface to the VMs

The constants of `types.rs`, the return and request types of `abi.rs` and
`spci.rs`, and the layout of messages in memory.  Memory is a map from physical
addresses to bytes; fields are little-endian.
-/

namespace Hafnium

def maxCpus : Nat := 8
def maxVms : Nat := 16

/-- VM ids below the offset are reserved. -/
def hfVmIdOffset : Nat := 1
def hfPrimaryVmId : Nat := hfVmIdOffset

def hfNumIntids : Nat := 64
def hfInvalidIntid : Nat := 0xffff_ffff
def hfVirtualTimerIntid : Nat := 3
def hfMailboxSize : Nat := pageSize
def hfSleepIndefinite : BitVec 64 := 0xff_ffff_ffff_ffff#64

/-- What a call to run a vCPU returns to the scheduler. -/
inductive HfVCpuRunReturn
  | preempted
  | yield
  | waitForInterrupt (ns : BitVec 64)
  | waitForMessage (ns : BitVec 64)
  | wakeUp (vmId vcpu : Nat)
  | message (vmId : Nat)
  | notifyWaiters
  | aborted
  deriving DecidableEq, Repr

/-- The 64-bit packing of a return value. -/
def HfVCpuRunReturn.intoRaw : HfVCpuRunReturn → BitVec 64
  | preempted => 0
  | yield => 1
  | waitForInterrupt ns => 2 ||| (ns <<< 8)
  | waitForMessage ns => 3 ||| (ns <<< 8)
  | wakeUp vmId vcpu => 4 ||| (BitVec.ofNat 64 vmId <<< 32) ||| (BitVec.ofNat 64 vcpu <<< 16)
  | message vmId => 5 ||| (BitVec.ofNat 64 vmId <<< 8)
  | notifyWaiters => 6
  | aborted => 7

/-- The ways of sharing memory with another VM. -/
inductive HfShare
  | give
  | lend
  | share
  deriving DecidableEq, Repr

/-- The request with a code; the code is untrusted. -/
def HfShare.tryFrom : Nat → Option HfShare
  | 0 => some give
  | 1 => some lend
  | 2 => some share
  | _ => none

inductive SpciReturn
  | success
  | notSupported
  | invalidParameters
  | noMemory
  | busy
  | interrupted
  | denied
  | retry
  deriving DecidableEq, Repr

/-- The value of a return code in a register (`repr(i32)`, sign extended). -/
def SpciReturn.toReg : SpciReturn → BitVec 64
  | success => 0
  | notSupported => -1
  | invalidParameters => -2
  | noMemory => -3
  | busy => -4
  | interrupted => -5
  | denied => -6
  | retry => -7

/-- Architected memory sharing messages. -/
inductive SpciMemoryShare
  | lend
  | relinquish
  | donate
  deriving DecidableEq, Repr

/-- The message with a type code.  Other codes are not values of the type. -/
def SpciMemoryShare.ofCode : Nat → Option SpciMemoryShare
  | 0 => some lend
  | 1 => some relinquish
  | 2 => some donate
  | _ => none

/-! ## Memory -/

/-- The contents of physical memory. -/
abbrev Memory := Nat → BitVec 8

namespace Memory

/-- The little-endian number in `n` bytes from `addr` on. -/
def readLe (mem : Memory) (addr : Nat) : Nat → Nat
  | 0 => 0
  | n + 1 => (mem addr).toNat + 256 * readLe mem (addr + 1) n

/-- Writes the first `n` bytes of `src` to `addr`. -/
def write (mem : Memory) (addr n : Nat) (src : Nat → BitVec 8) : Memory := fun a =>
  if addr ≤ a ∧ a < addr + n then src (a - addr) else mem a

/-- `ptr::copy_nonoverlapping` on bytes. -/
def copy (mem : Memory) (src dst n : Nat) : Memory := mem.write dst n fun i => mem (src + i)

theorem write_of_mem {mem : Memory} {addr n a : Nat} {src : Nat → BitVec 8} (hlo : addr ≤ a)
    (hhi : a < addr + n) : mem.write addr n src a = src (a - addr) := if_pos ⟨hlo, hhi⟩

theorem write_of_not_mem {mem : Memory} {addr n a : Nat} {src : Nat → BitVec 8}
    (h : ¬(addr ≤ a ∧ a < addr + n)) : mem.write addr n src a = mem a := if_neg h

theorem readLe_congr {mem mem' : Memory} {addr addr' n : Nat}
    (h : ∀ k, k < n → mem' (addr' + k) = mem (addr + k)) :
    mem'.readLe addr' n = mem.readLe addr n := by
  induction n generalizing addr addr' with
  | zero => rfl
  | succ n ih =>
    have hfirst : mem' addr' = mem addr := h 0 (Nat.succ_pos n)
    have hrest : mem'.readLe (addr' + 1) n = mem.readLe (addr + 1) n := by
      refine ih fun k hk => ?_
      rw [Nat.add_right_comm, Nat.add_right_comm addr]
      exact h (k + 1) (Nat.succ_lt_succ hk)
    rw [readLe, readLe, hfirst, hrest]

/-- A byte of a number. -/
def leByte (v k : Nat) : BitVec 8 := .ofNat 8 (v / 256 ^ k)

theorem readLe_of_leByte {mem : Memory} {addr n v : Nat} (hv : v < 256 ^ n)
    (h : ∀ k, k < n → mem (addr + k) = leByte v k) : mem.readLe addr n = v := by
  induction n generalizing addr v with
  | zero =>
    rw [readLe]
    omega
  | succ n ih =>
    have hfirst : mem addr = .ofNat 8 v := by
      have := h 0 (Nat.succ_pos n)
      rwa [leByte, Nat.pow_zero, Nat.div_one] at this
    have hrest : mem.readLe (addr + 1) n = v / 256 := by
      refine ih (Nat.div_lt_of_lt_mul (by rwa [Nat.pow_succ, Nat.mul_comm] at hv)) fun k hk => ?_
      rw [Nat.add_assoc, Nat.add_comm 1, h (k + 1) (Nat.succ_lt_succ hk), leByte, leByte,
        Nat.div_div_eq_div_mul, Nat.pow_succ, Nat.mul_comm]
    rw [readLe, hfirst, hrest, BitVec.toNat_ofNat]
    omega

theorem readLe_lt (mem : Memory) (addr n : Nat) : mem.readLe addr n < 256 ^ n := by
  induction n generalizing addr with
  | zero => exact Nat.one_pos
  | succ n ih =>
    have hbyte := (mem addr).isLt
    have hrest := ih (addr + 1)
    rw [readLe, Nat.pow_succ]
    omega

end Memory

/-! ## Messages -/

/-- Size of an `SpciMessage`, the header of a message. -/
def spciMessageSize : Nat := 16

/-- The maximum length possible for a single message. -/
def spciMsgPayloadMax : Nat := hfMailboxSize - spciMessageSize

def spciArchitectedMessageHeaderSize : Nat := 8
def spciMemoryRegionSize : Nat := 8
def spciMemoryRegionConstituentSize : Nat := 16
def spciMemoryLendSize : Nat := 8

/-- A copy of the header of a message, byte by byte. -/
abbrev SpciMessage := Nat → BitVec 8

namespace SpciMessage

/-- `ptr::read` of a header. -/
def read (mem : Memory) (addr : Nat) : SpciMessage := fun i => mem (addr + i)

def flags (msg : SpciMessage) : Nat := Memory.readLe msg 0 2
def length (msg : SpciMessage) : Nat := Memory.readLe msg 4 4
def targetVmId (msg : SpciMessage) : Nat := Memory.readLe msg 8 2
def sourceVmId (msg : SpciMessage) : Nat := Memory.readLe msg 10 2

/-- `flags.contains(IMPDEF)`: the payload is opaque to the hypervisor. -/
def isImpdef (msg : SpciMessage) : Bool := msg.flags % 2 == 1

end SpciMessage

/-- The part of a memory region that sharing looks at: the first constituent. -/
structure SpciMemoryRegionConstituent where
  address : Nat
  pageCount : Nat
  deriving DecidableEq, Repr

/-- A memory region in a message: the declared number of constituents and the
first one. -/
structure SpciMemoryRegion where
  count : Nat
  constituent : SpciMemoryRegionConstituent
  deriving DecidableEq, Repr

/-- Reads a memory region: a handle, the count, and the constituents. -/
def SpciMemoryRegion.read (mem : Memory) (addr : Nat) : SpciMemoryRegion where
  count := mem.readLe (addr + 4) 4
  constituent := ⟨mem.readLe (addr + 8) 8, mem.readLe (addr + 16) 4⟩

/-- The access that a lender grants, by two bits of its attributes. -/
def spciMemoryAttrsToMode (memoryAttributes : Nat) : Mode :=
  match memoryAttributes / 2 ^ 7 % 4 with
  | 0 => Mode.R
  | 1 => Mode.R ||| Mode.X
  | 2 => Mode.R ||| Mode.W
  | _ => Mode.R ||| Mode.W ||| Mode.X

end Hafnium
