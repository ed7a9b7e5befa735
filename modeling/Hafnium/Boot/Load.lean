import Hafnium.AddressSpace
import Hafnium.Boot.Cpio
import Hafnium.Boot.FdtHandler

/-!
# Loading the VMs

`load.rs`, with `VmManager::new_vm` and `Vm::init`: the kernels are copied from the
archive into memory, each VM gets a stage-2 table, and its first vCPU is started.  No
other CPU runs yet.

The hypervisor's own accesses to memory are taken to succeed, except for the copies of
kernels, and what is logged is left out, except for the conversions of the strings that are
logged.
-/

namespace Hafnium

open Support Aarch64

/-- Where loading stops. -/
inductive LoadPanic
  /-- Root tables sliced past their end in `map_root`. -/
  | mapRoot
  /-- Not a panic: data is written where the hypervisor has nothing mapped. -/
  | dataAbort
  /-- `unwrap` of an `unmap` in the hypervisor's table. -/
  | unmap
  /-- `unwrap` of a string that is not UTF-8. -/
  | utf8
  /-- `unwrap` of the primary VM. -/
  | primaryVm
  /-- Index of the first vCPU of a VM without vCPUs. -/
  | vcpu
  /-- `assert` that a VM is not the primary. -/
  | secondaryVm
  /-- Not a panic: a vCPU is written past the end of the array. -/
  | vcpuArray
  deriving DecidableEq, Repr

/-- The value, or a panic if there is none. -/
def orStop {α : Type} (p : LoadPanic) : Option α → Except LoadPanic α
  | none => .error p
  | some a => .ok a

theorem orStop_eq_ok {α : Type} {p : LoadPanic} {x : Option α} {a : α} :
    orStop p x = .ok a ↔ x = some a := by
  cases x <;> simp [orStop]

/-- What the linker says about the image of the hypervisor. -/
structure Layout where
  textBegin : Nat
  textEnd : Nat
  rodataBegin : Nat
  rodataEnd : Nat
  dataBegin : Nat
  dataEnd : Nat
  primaryBegin : Nat
  /-- The bytes after the name of the end marker of archives. -/
  afterTrailer : List Byte

/-! ## Strings -/

/-- The bytes before the first zero. -/
def asAsciz (bytes : List Byte) : List Byte := cstr bytes

def utf8Tail (b : Byte) : Bool := 0x80 ≤ b.toNat ∧ b.toNat ≤ 0xbf

/-- Whether bytes are the UTF-8 encoding of a text (`str::from_utf8`). -/
def validUtf8 : List Byte → Bool
  | [] => true
  | a :: rest =>
    let a := a.toNat
    if a < 0x80 then validUtf8 rest
    else if 0xc2 ≤ a ∧ a ≤ 0xdf then
      match rest with
      | b :: rest => utf8Tail b && validUtf8 rest
      | _ => false
    else if 0xe0 ≤ a ∧ a ≤ 0xef then
      match rest with
      | b :: c :: rest =>
        -- neither overlong nor a surrogate
        utf8Tail b && (a != 0xe0 || 0xa0 ≤ b.toNat) && (a != 0xed || b.toNat ≤ 0x9f) &&
          utf8Tail c && validUtf8 rest
      | _ => false
    else if 0xf0 ≤ a ∧ a ≤ 0xf4 then
      match rest with
      | b :: c :: d :: rest =>
        -- neither overlong nor past the last code point
        utf8Tail b && (a != 0xf0 || 0x90 ≤ b.toNat) && (a != 0xf4 || b.toNat ≤ 0x8f) &&
          utf8Tail c && utf8Tail d && validUtf8 rest
      | _ => false
    else false

/-! ## Memory ranges -/

def paAdd (pa n : Nat) : Nat := (pa + n) % 2 ^ 64

def paDifference (start endAddr : Nat) : Nat := (endAddr + 2 ^ 64 - start) % 2 ^ 64

/-- Takes memory from the end of the first range that is large enough: the bounds of
the memory, and the ranges afterwards. -/
def carveOutMemRange : List MemRange → Nat → Option (Nat × Nat × List MemRange)
  | [], _ => none
  | range :: ranges, size =>
    if size ≤ paDifference range.begin range.endAddr then
      let foundEnd := range.endAddr
      let foundBegin := paDifference size foundEnd
      some (foundBegin, foundEnd, { range with endAddr := foundBegin } :: ranges)
    else
      (carveOutMemRange ranges size).map fun (foundBegin, foundEnd, ranges) =>
        (foundBegin, foundEnd, range :: ranges)

/-- Adds a range to the reserved ones, if there is room. -/
def reserve (update : List MemRange) (range : MemRange) : Outcome × List MemRange :=
  if update.length ≥ maxMemRanges then (.err, update) else (.ok, update ++ [range])

/-- Reserves what is missing from the ranges. -/
def updateReservedRanges : List MemRange → List MemRange → List MemRange → Outcome × List MemRange
  | update, before :: befores, after :: afters =>
    let (o, update) :=
      if after.begin > before.begin then reserve update ⟨before.begin, after.begin⟩
      else (.ok, update)
    match o with
    | .err => (.err, update)
    | .ok =>
      let (o, update) :=
        if after.endAddr < before.endAddr then reserve update ⟨after.endAddr, before.endAddr⟩
        else (.ok, update)
      match o with
      | .err => (.err, update)
      | .ok => updateReservedRanges update befores afters
  | update, _, _ => (.ok, update)

/-! ## VMs -/

/-- The state of a vCPU before the first run: the registers of one that is on hold
the entry point and its argument. -/
inductive LoadedVCpu
  | off
  | ready (entry arg : Nat)
  deriving DecidableEq, Repr

/-- A VM as it is when no hypercall has been made. -/
structure LoadedVm (S : Stage) where
  id : Nat
  vcpus : List LoadedVCpu
  ptable : PageTable S

namespace LoadedVm

variable {S : Stage}

/-- `VCpuInner::on` on the first vCPU. -/
def on (entry arg : Nat) (vm : LoadedVm S) : Except LoadPanic (LoadedVm S) :=
  match vm.vcpus with
  | [] => .error .vcpu
  | _ :: vcpus => .ok { vm with vcpus := .ready entry arg :: vcpus }

/-- `vcpu_secondary_reset_and_start` on the first vCPU. -/
def resetAndStart (entry arg : Nat) (vm : LoadedVm S) : Except LoadPanic (LoadedVm S) :=
  match vm.vcpus with
  | [] => .error .vcpu
  | vcpu :: _ =>
    if vm.id = hfPrimaryVmId then .error .secondaryVm
    else if vcpu = .off then vm.on entry arg
    else .ok vm

end LoadedVm

/-- All that loading works on. -/
structure Loader (S H : Stage) where
  vms : List (LoadedVm S)
  hypervisorPtable : PageTable H
  mpool : MPool
  mem : Memory

namespace Loader

variable {S H : Stage} (layout : Layout) (cpio : MemIter)

/-- `VmManager::new_vm`: the VM that takes the next slot, and the pool after it. -/
def newVm (vcpuCount : Nat) (s : Loader S H) : Except LoadPanic (Option (LoadedVm S × MPool)) :=
  if s.vms.length = maxVms then .ok none
  else
    match PageTable.new aarch64 S s.mpool with
    | none => .ok none
    | some (ptable, mpool) =>
      if maxCpus < vcpuCount then .error .vcpuArray
      else .ok (some (⟨s.vms.length + hfVmIdOffset, List.replicate vcpuCount .off, ptable⟩, mpool))

/-- Copies data to memory after the hypervisor has mapped it, which it can only do up to the
end of its address space. -/
def writeMapped (dst : Nat) (src : MemIter) (s : Loader S H) : Except LoadPanic Memory :=
  if src.len = 0 ∨ dst + src.len ≤ H.ptableAddrSpaceEnd then
    .ok (s.mem.copy src.next dst src.len)
  else .error .dataAbort

/-- Copies data to memory that the hypervisor has not mapped. -/
def copyToUnmapped (dst : Nat) (src : MemIter) (s : Loader S H) :
    Except LoadPanic (Bool × Loader S H) := do
  let dstEnd := paAdd dst src.len
  match ← orStop .mapRoot (s.hypervisorPtable.identityMap aarch64 dst dstEnd Mode.W s.mpool) with
  | (.err, hypervisorPtable, mpool) => return (false, { s with hypervisorPtable, mpool })
  | (.ok, hypervisorPtable, mpool) =>
    let mem ← s.writeMapped dst src
    match ← orStop .mapRoot (hypervisorPtable.unmap aarch64 dst dstEnd mpool) with
    | (.err, _, _) => throw .unmap
    | (.ok, hypervisorPtable, mpool) => return (true, { s with hypervisorPtable, mpool, mem })

/-- `vm_unmap_hypervisor`. -/
def unmapHypervisor (ptable : PageTable S) (mpool : MPool) :
    Except LoadPanic (Outcome × PageTable S × MPool) := do
  match ← orStop .mapRoot (ptable.unmap aarch64 layout.textBegin layout.textEnd mpool) with
  | (.err, r) => return (.err, r)
  | (.ok, ptable, mpool) =>
    match ← orStop .mapRoot (ptable.unmap aarch64 layout.rodataBegin layout.rodataEnd mpool) with
    | (.err, r) => return (.err, r)
    | (.ok, ptable, mpool) =>
      orStop .mapRoot (ptable.unmap aarch64 layout.dataBegin layout.dataEnd mpool)

/-- The memory of the primary VM: 1 TB without the hypervisor. -/
def mapPrimary (ptable : PageTable S) (mpool : MPool) :
    Except LoadPanic (Outcome × PageTable S × MPool) := do
  match ← orStop .mapRoot (ptable.identityMap aarch64 0 (2 ^ 40) (Mode.R ||| Mode.W ||| Mode.X)
      mpool) with
  | (.err, r) => return (.err, r)
  | (.ok, ptable, mpool) => unmapHypervisor layout ptable mpool

/-- Loads the primary VM; yields its initial RAM disk. -/
def loadPrimary (kernelArg : Nat) (s : Loader S H) :
    Except LoadPanic (Option MemIter × Loader S H) := do
  match findFile layout.afterTrailer s.mem cpio (ascii "vmlinuz") with
  | none => return (none, s)
  | some kernel =>
    match ← s.copyToUnmapped layout.primaryBegin kernel with
    | (false, s) => return (none, s)
    | (true, s) =>
      match findFile layout.afterTrailer s.mem cpio (ascii "initrd.img") with
      | none => return (none, s)
      | some initrd =>
        match ← s.newVm maxCpus with
        | none => return (none, s)
        | some (vm, mpool) =>
          if vm.id ≠ hfPrimaryVmId then
            return (none, { s with vms := s.vms ++ [vm], mpool })
          match ← mapPrimary layout vm.ptable mpool with
          | (.err, ptable, mpool) =>
            return (none, { s with vms := s.vms ++ [{ vm with ptable }], mpool })
          | (.ok, ptable, mpool) =>
            let vm ← { vm with ptable }.on layout.primaryBegin kernelArg
            return (some initrd, { s with vms := s.vms ++ [vm], mpool })

/-- The kernel of a VM in the archive.  The names are logged. -/
def findKernel (vm : ManifestVm) (s : Loader S H) : Except LoadPanic (Option MemIter) := do
  if !validUtf8 (asAsciz vm.debugName) then throw .utf8
  match findFileMemiter layout.afterTrailer s.mem cpio (asAsciz vm.kernelFilename) with
  | none =>
    if !validUtf8 (asAsciz vm.kernelFilename) then throw .utf8
    return none
  | some kernel => return some kernel

/-- Denies the primary VM access to memory. -/
def unmapPrimary (begin endAddr : Nat) (s : Loader S H) :
    Except LoadPanic (Outcome × Loader S H) := do
  match s.vms with
  | [] => throw .primaryVm
  | primary :: vms =>
    let (o, ptable, mpool) ← orStop .mapRoot (primary.ptable.unmap aarch64 begin endAddr s.mpool)
    return (o, { s with vms := { primary with ptable } :: vms, mpool })

/-- Creates a VM, grants it access to memory and starts it. -/
def startVm (vcpuCount begin endAddr : Nat) (s : Loader S H) : Except LoadPanic (Loader S H) := do
  match ← s.newVm vcpuCount with
  | none => return s
  | some (vm, mpool) =>
    match ← orStop .mapRoot (vm.ptable.identityMap aarch64 begin endAddr
        (Mode.R ||| Mode.W ||| Mode.X) mpool) with
    | (.err, ptable, mpool) => return { s with vms := s.vms ++ [{ vm with ptable }], mpool }
    | (.ok, ptable, mpool) =>
      let vm ← { vm with ptable }.resetAndStart begin (paDifference begin endAddr)
      return { s with vms := s.vms ++ [vm], mpool }

/-- Loads a kernel into memory, which a new VM gets; `err` if the function returns. -/
def giveMemory (kernel : MemIter) (vcpuCount begin endAddr : Nat) (s : Loader S H) :
    Except LoadPanic (Outcome × Loader S H) := do
  match ← s.copyToUnmapped begin kernel with
  | (false, s) => return (.ok, s)
  | (true, s) =>
    match ← s.unmapPrimary begin endAddr with
    | (.err, s) => return (.err, s)
    | (.ok, s) => return (.ok, ← s.startVm vcpuCount begin endAddr)

/-- One round of the loop of `load_secondary`; `err` if the function returns. -/
def loadVm (vm : ManifestVm) (ranges : List MemRange) (s : Loader S H) :
    Except LoadPanic (Outcome × List MemRange × Loader S H) := do
  match ← s.findKernel layout cpio vm with
  | none => return (.ok, ranges, s)
  | some kernel =>
    let memSize := roundUpToPage vm.memSize
    if memSize < kernel.len then return (.ok, ranges, s)
    match carveOutMemRange ranges memSize with
    | none => return (.ok, ranges, s)
    | some (begin, endAddr, ranges) =>
      let (o, s) ← s.giveMemory kernel vm.vcpuCount begin endAddr
      return (o, ranges, s)

/-- The loop of `load_secondary`, from an index of the manifest on. -/
def loadVms : Nat → List ManifestVm → List MemRange → Loader S H →
    Except LoadPanic (Outcome × List MemRange × Loader S H)
  | _, [], ranges, s => .ok (.ok, ranges, s)
  | i, vm :: vms, ranges, s =>
    if hfVmIdOffset + i = hfPrimaryVmId then loadVms (i + 1) vms ranges s
    else do
      match ← s.loadVm layout cpio vm ranges with
      | (.err, r) => return (.err, r)
      | (.ok, ranges, s) => loadVms (i + 1) vms ranges s

/-- The memory that is available: the ranges up to the last whole page. -/
def availableRanges (params : List MemRange) : List MemRange :=
  params.map fun range => { range with endAddr := roundDownToPage range.endAddr }

end Loader

end Hafnium
