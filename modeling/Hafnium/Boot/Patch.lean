import Hafnium.Boot.Load

/-!
# Patching the device tree

`add_mem_reservation` of `fdt.rs`, and `write_number` and `patch` of `fdt_handler.rs`: the
device tree of the primary VM gets the location of its ramdisk and reserves the memory
that is not for it.  The tree is changed in place, so the blocks are read from memory
again after each change.

The hypervisor's accesses to memory are taken to succeed, except that a store has to be
aligned to its size (`SCTLR_EL2.A` is set).
-/

namespace Hafnium

open Support Aarch64

/-- Where patching stops. -/
inductive PatchStop
  | fdt (p : FdtPanic)
  /-- Root tables sliced past their end in `map_root`. -/
  | mapRoot
  /-- Not a panic: a store that is not aligned. -/
  | alignment
  deriving DecidableEq, Repr

def orPatchStop {α : Type} : Option α → Except PatchStop α
  | none => .error .mapRoot
  | some a => .ok a

/-! ## Big-endian numbers in memory -/

/-- The big-endian bytes of a number. -/
def beBytes (n v : Nat) : List Byte := (List.range n).map fun i => .ofNat 8 (v / 256 ^ (n - 1 - i))

namespace Memory

def writeBe (mem : Memory) (addr n v : Nat) : Memory :=
  mem.write addr n fun i => .ofNat 8 (v / 256 ^ (n - 1 - i))

/-- Stores a big-endian number. -/
def storeBe (mem : Memory) (addr n v : Nat) : Except PatchStop Memory :=
  if addr % n = 0 then .ok (mem.writeBe addr n v) else .error .alignment

end Memory

/-! ## Reservations -/

def fdtTotalsize (mem : Memory) (hdr : Nat) : Nat := fdtField mem hdr 1
def fdtOffMemRsvmap (mem : Memory) (hdr : Nat) : Nat := fdtField mem hdr 4

/-- The reservations from an address on, until an empty one ends the list (as in `dump`). -/
def reserveEntries (mem : Memory) : Nat → Nat → Option (List (Nat × Nat))
  | 0, _ => none
  | fuel + 1, entry =>
    let address := fromBeBytes (mem.bytes entry 8)
    let size := fromBeBytes (mem.bytes (entry + 8) 8)
    if address ≠ 0 ∨ size ≠ 0 then
      (reserveEntries mem fuel (entry + 16)).map ((address, size) :: ·)
    else some []

/-- The reservations of a device tree; there are less than it has bytes. -/
def fdtReservations (mem : Memory) (hdr : Nat) : Option (List (Nat × Nat)) :=
  reserveEntries mem (fdtTotalsize mem hdr) (hdr + fdtOffMemRsvmap mem hdr)

def addMemReservation (hdr addr len : Nat) (mem : Memory) : Except PatchStop Memory := do
  let begin := hdr + fdtOffMemRsvmap mem hdr
  let oldSize := (fdtTotalsize mem hdr + 2 ^ 32 - fdtOffMemRsvmap mem hdr) % 2 ^ 32
  let mem ← mem.storeBe (hdr + 4 * 1) 4 (fdtTotalsize mem hdr + 16)
  let mem ← mem.storeBe (hdr + 4 * 2) 4 (fdtOffDtStruct mem hdr + 16)
  let mem ← mem.storeBe (hdr + 4 * 3) 4 (fdtOffDtStrings mem hdr + 16)
  let mem := mem.copy begin (begin + 16) oldSize
  let mem ← mem.storeBe begin 8 addr
  mem.storeBe (begin + 8) 8 len

/-- A number of calls in a row. -/
def addMemReservations (hdr : Nat) : List (Nat × Nat) → Memory → Except PatchStop Memory
  | [], mem => .ok mem
  | (addr, len) :: rest, mem => do
      let mem ← addMemReservation hdr addr len mem
      addMemReservations hdr rest mem

/-! ## Numbers in properties -/

/-- Where the blocks of a device tree are. -/
structure FdtSlices where
  data : Nat
  dataSize : Nat
  strs : Nat
  strsSize : Nat
  deriving DecidableEq, Repr

def FdtSlices.read (slices : FdtSlices) (mem : Memory) : FdtBlocks :=
  ⟨slices.data, mem.bytes slices.data slices.dataSize, mem.bytes slices.strs slices.strsSize⟩

/-- `FdtNode::new_root`: where the blocks are. -/
def fdtSlices (mem : Memory) (hdr : Nat) : Option FdtSlices :=
  (fdtNewRoot mem hdr).map fun _ =>
    ⟨hdr + fdtOffDtStruct mem hdr, fdtSizeDtStruct mem hdr, hdr + fdtOffDtStrings mem hdr,
      fdtSizeDtStrings mem hdr⟩

namespace FdtBlocks

variable (B : FdtBlocks)

def readPropertyAtRound (name : List Byte) (pos : Nat) :
    Except FdtPanic (Nat ⊕ Option (Nat × Nat)) := do
  match ← B.nextPropertyAt pos with
  | (none, _) => return .inr none
  | (some (propName, data, size), pos) =>
    match strcmp propName (cstr name ++ [0]) with
    | none => throw .overread
    | some v => return if v = 0 then .inr (some (data, size)) else .inl pos

/-- `read_property`: the position and the length of the value. -/
def readPropertyAt (name : List Byte) (pos : Nat) : Except FdtPanic (Option (Nat × Nat)) :=
  loop .loop (B.readPropertyAtRound name) B.fuel pos

end FdtBlocks

def liftFdt {α : Type} : Except FdtPanic α → Except PatchStop α
  | .error p => .error (.fdt p)
  | .ok a => .ok a

/-- Writes a number to a property of a node, in as many bytes as the property has. -/
def writeNumber (slices : FdtSlices) (name : List Byte) (value node : Nat) (mem : Memory) :
    Except PatchStop (Outcome × Memory) := do
  match ← liftFdt ((slices.read mem).readPropertyAt name node) with
  | none => return (.err, mem)
  | some (data, size) =>
    if size = 4 ∨ size = 8 then return (.ok, ← mem.storeBe (slices.data + data) size value)
    else return (.err, mem)

/-! ## `patch` -/

/-- What the device tree is changed to: the new location of the ramdisk, and memory to
reserve. -/
structure BootParamsUpdate where
  reservedRanges : List MemRange
  initrdBegin : Nat
  initrdEnd : Nat

/-- The memory that is reserved: the image of the hypervisor and the memory of secondary
VMs. -/
def reservations (layout : Layout) (p : BootParamsUpdate) : List (Nat × Nat) :=
  [(layout.textBegin, paDifference layout.textBegin layout.textEnd),
    (layout.rodataBegin, paDifference layout.rodataBegin layout.rodataEnd),
    (layout.dataBegin, paDifference layout.dataBegin layout.dataEnd)] ++
  p.reservedRanges.map fun range => (range.begin, paDifference range.begin range.endAddr)

/-- The changes to the mapped device tree. -/
def patchTree (layout : Layout) (slices : FdtSlices) (hdr : Nat) (p : BootParamsUpdate)
    (mem : Memory) : Except PatchStop (Outcome × Memory) := do
  match ← liftFdt ((slices.read mem).findChild (asciz "") 0) with
  | none => return (.err, mem)
  | some root =>
    match ← liftFdt ((slices.read mem).findChild (asciz "chosen") root) with
    | none => return (.err, mem)
    | some chosen =>
      let (r, mem) ← writeNumber slices (asciz "linux,initrd-start") p.initrdBegin chosen mem
      if r = .err then return (.err, mem)
      let (r, mem) ← writeNumber slices (asciz "linux,initrd-end") p.initrdEnd chosen mem
      if r = .err then return (.err, mem)
      return (.ok, ← addMemReservations hdr (reservations layout p) mem)

/-- What patching works on. -/
structure PatchState (H : Stage) where
  ptable : PageTable H
  mem : Memory
  mpool : MPool

namespace PatchState

variable {H : Stage}

def map (begin endAddr : Nat) (mode : Mode) (s : PatchState H) :
    Except PatchStop (Outcome × PatchState H) := do
  let (r, ptable, mpool) ← orPatchStop (s.ptable.identityMap aarch64 begin endAddr mode s.mpool)
  return (r, { s with ptable, mpool })

def unmap (begin endAddr : Nat) (s : PatchState H) : Except PatchStop (Outcome × PatchState H) := do
  let (r, ptable, mpool) ← orPatchStop (s.ptable.unmap aarch64 begin endAddr s.mpool)
  return (r, { s with ptable, mpool })

end PatchState

def patch {H : Stage} (layout : Layout) (fdtAddr : Nat) (p : BootParamsUpdate) (s : PatchState H) :
    Except PatchStop (Outcome × PatchState H) := do
  let headerEnd := paAdd fdtAddr 40
  let (r, s) ← s.map fdtAddr headerEnd Mode.R
  if r = .err then return (.err, s)
  match fdtSlices s.mem fdtAddr with
  | none =>
    let (_, s) ← s.unmap fdtAddr headerEnd
    return (.err, s)
  | some slices =>
    -- room for the reservations
    let mappedEnd := paAdd fdtAddr (fdtTotalsize s.mem fdtAddr + pageSize)
    let (r, s) ← s.map fdtAddr mappedEnd (Mode.R ||| Mode.W)
    if r = .err then
      let (_, s) ← s.unmap fdtAddr headerEnd
      return (.err, s)
    let (r, mem) ← patchTree layout slices fdtAddr p s.mem
    let s := { s with mem }
    if r = .err then
      let (_, s) ← s.unmap fdtAddr mappedEnd
      return (.err, s)
    s.unmap fdtAddr (paAdd fdtAddr (fdtTotalsize s.mem fdtAddr + pageSize))

end Hafnium
