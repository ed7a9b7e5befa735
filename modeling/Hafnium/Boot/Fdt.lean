import Hafnium.Abi
import Hafnium.Support.Loop

/-!
# Flattened device trees

The tokenizer and the nodes of `fdt.rs`.  A node is a position in the struct
block, after the name of the node; the end of the slice that the code keeps is the
end of the block throughout.  All positions and sizes fit the machine's words, and
so does the depth that `skip_node` counts, since a block is shorter than 4 GiB.
-/

namespace Hafnium

open Support

abbrev Byte := BitVec 8

/-- The bytes of memory in a range (`slice::from_raw_parts`). -/
def Memory.bytes (mem : Memory) (addr n : Nat) : List Byte :=
  (List.range n).map fun i => mem (addr + i)

/-- The number that big-endian bytes stand for. -/
def fromBeBytes (bytes : List Byte) : Nat := bytes.foldl (fun v b => 256 * v + b.toNat) 0

/-- The string that C finds at the start of some bytes. -/
def cstr (bytes : List Byte) : List Byte := bytes.takeWhile (· ≠ 0)

/-- `strcmp`; `none` if it would go on past the end of the bytes. -/
def strcmp : List Byte → List Byte → Option Int
  | x :: xs, y :: ys =>
    if x ≠ 0 ∧ y ≠ 0 then
      if x ≠ y then some (x.toNat - y.toNat) else strcmp xs ys
    else some (x.toNat - y.toNat)
  | _, _ => none

inductive FdtToken
  | beginNode
  | endNode
  | prop
  | nop
  | fdtEnd
  deriving DecidableEq, Repr

def FdtToken.tryFrom : Nat → Option FdtToken
  | 1 => some beginNode
  | 2 => some endNode
  | 3 => some prop
  | 4 => some nop
  | 9 => some fdtEnd
  | _ => none

def fdtVersion : Nat := 17
def fdtMagic : Nat := 0xd00dfeed
def fdtTokenAlignment : Nat := 4

/-- Where reading a device tree stops. -/
inductive FdtPanic
  /-- `split_at` past the end of the block. -/
  | align
  /-- `unwrap` of an unknown token. -/
  | token
  /-- Name of a property past the end of the strings. -/
  | strings
  /-- Not a panic: the name of a property is read past the end of the strings. -/
  | overread
  /-- A range of indices that is not in a slice. -/
  | slice
  /-- `unwrap` of a number that is neither 4 nor 8 bytes long. -/
  | number
  /-- `unwrap` of the last byte of an empty list of strings. -/
  | emptyList
  /-- `assert` that the primary VM has not been found before. -/
  | primaryVm
  /-- Not a panic: a loop does not end. -/
  | loop
  deriving DecidableEq, Repr

/-- The struct block of a device tree, at an address, and its strings block. -/
structure FdtBlocks where
  addr : Nat
  data : List Byte
  strs : List Byte
  deriving DecidableEq

namespace FdtBlocks

variable (B : FdtBlocks)

/-! ## The tokenizer -/

def align (pos : Nat) : Except FdtPanic Nat :=
  let modular := (B.addr + pos) % fdtTokenAlignment
  let skip := (fdtTokenAlignment - modular) % fdtTokenAlignment
  if B.data.length - pos < skip then .error .align else .ok (pos + skip)

def bytes (size pos : Nat) : Except FdtPanic (Option (List Byte) × Nat) :=
  if B.data.length - pos < size then .ok (none, pos)
  else do
    let first := (B.data.drop pos).take size
    return (some first, ← B.align (pos + size))

def u32 (pos : Nat) : Except FdtPanic (Option Nat × Nat) := do
  let (bytes, pos) ← B.bytes 4 pos
  return (bytes.map fromBeBytes, pos)

/-- A bound on the rounds of the loops below: each of them reads something. -/
def fuel : Nat := B.data.length + 1

/-- One round of the loop of `token`. -/
def tokenRound (pos : Nat) : Except FdtPanic (Nat ⊕ (Option FdtToken × Nat)) := do
  match ← B.u32 pos with
  | (none, pos) => return .inr (none, pos)
  | (some v, pos) =>
    match FdtToken.tryFrom v with
    | none => throw .token
    | some token => return if token = .nop then .inl pos else .inr (some token, pos)

/-- The next token that is not a NOP. -/
def token (pos : Nat) : Except FdtPanic (Option FdtToken × Nat) :=
  loop .loop B.tokenRound B.fuel pos

/-- Whether the next token is the expected one; another one is not consumed. -/
def tokenExpect (expect : FdtToken) (pos : Nat) : Except FdtPanic (Bool × Nat) := do
  match ← B.token pos with
  | (none, pos) => return (false, pos)
  | (some token, pos) =>
    return if token = expect then (true, pos) else (false, pos - fdtTokenAlignment)

/-- A string with its terminator. -/
def str (pos : Nat) : Except FdtPanic (Option (List Byte) × Nat) :=
  match (B.data.drop pos).findIdx? (· = 0) with
  | none => .ok (none, pos)
  | some i => do
      let first := (B.data.drop pos).take (i + 1)
      return (some first, ← B.align (pos + (i + 1)))

/-- The end of the block, where there are no more tokens. -/
def collapse : Nat := B.data.length

/-- The name of the next property, with what follows it in the strings block, and
where its value is. -/
def nextPropertyAt (pos : Nat) : Except FdtPanic (Option (List Byte × Nat × Nat) × Nat) := do
  let (found, pos) ← B.tokenExpect .prop pos
  if !found then return (none, pos)
  match ← B.u32 pos with
  | (none, _) => return (none, B.collapse)
  | (some size, pos) =>
    match ← B.u32 pos with
    | (none, _) => return (none, B.collapse)
    | (some nameoff, pos) =>
      match ← B.bytes size pos with
      | (none, _) => return (none, B.collapse)
      | (some _, pos') =>
        if nameoff > B.strs.length then throw .strings
        return (some (B.strs.drop nameoff, pos, size), pos')

/-- `next_property`, with the bytes of the value. -/
def nextProperty (pos : Nat) : Except FdtPanic (Option (List Byte × List Byte) × Nat) :=
  (B.nextPropertyAt pos).map fun r =>
    (r.1.map fun x => (x.1, (B.data.drop x.2.1).take x.2.2), r.2)

def nextSubnode (pos : Nat) : Except FdtPanic (Option (List Byte) × Nat) := do
  let (found, pos) ← B.tokenExpect .beginNode pos
  if !found then return (none, pos)
  match ← B.str pos with
  | (none, _) => return (none, B.collapse)
  | (some name, pos) => return (some name, pos)

def skipPropertiesRound (pos : Nat) : Except FdtPanic (Nat ⊕ Nat) := do
  let (property, pos) ← B.nextProperty pos
  return if property.isSome then .inl pos else .inr pos

def skipProperties (pos : Nat) : Except FdtPanic Nat :=
  loop .loop B.skipPropertiesRound B.fuel pos

/-- One round of the loops of `skip_node`: a subnode is entered, or a node is left.
The state is the number of nodes that are open, and the position. -/
def skipNodeRound : Nat × Nat → Except FdtPanic ((Nat × Nat) ⊕ (Bool × Nat))
  | (0, pos) => .ok (.inr (true, pos))
  | (pending + 1, pos) => do
      match ← B.nextSubnode pos with
      | (some _, pos) => return .inl (pending + 2, ← B.skipProperties pos)
      | (none, pos) =>
        match ← B.token pos with
        | (none, pos) => return .inr (false, pos)
        | (some token, pos) =>
          return if token = .endNode then .inl (pending, pos) else .inr (false, B.collapse)

/-- Skips the rest of a node. -/
def skipNode (pos : Nat) : Except FdtPanic (Bool × Nat) := do
  let pos ← B.skipProperties pos
  loop .loop B.skipNodeRound B.fuel (1, pos)

/-! ## Nodes -/

def readPropertyRound (name : List Byte) (pos : Nat) :
    Except FdtPanic (Nat ⊕ Option (List Byte)) := do
  match ← B.nextProperty pos with
  | (none, _) => return .inr none
  | (some (propName, buf), pos) =>
    match strcmp propName (cstr name ++ [0]) with
    | none => throw .overread
    | some v => return if v = 0 then .inr (some buf) else .inl pos

/-- The value of a property of the node. -/
def readProperty (name : List Byte) (pos : Nat) : Except FdtPanic (Option (List Byte)) :=
  loop .loop (B.readPropertyRound name) B.fuel pos

/-- The name and the position of the first child, if there is one. -/
def firstChild (pos : Nat) : Except FdtPanic (Option (List Byte × Nat)) := do
  let pos ← B.skipProperties pos
  let (name, pos) ← B.nextSubnode pos
  return name.map fun name => (name, pos)

/-- The name and the position of the next sibling, if there is one. -/
def nextSibling (pos : Nat) : Except FdtPanic (Option (List Byte × Nat)) := do
  let (found, pos) ← B.skipNode pos
  if !found then return none
  let (name, pos) ← B.nextSubnode pos
  return name.map fun name => (name, pos)

def findChildRound (child : List Byte) (pos : Nat) : Except FdtPanic (Nat ⊕ Option Nat) := do
  match ← B.nextSubnode pos with
  | (none, _) => return .inr none
  | (some name, pos) =>
    if cstr name = cstr child then return .inr (some pos)
    let (_, pos) ← B.skipNode pos
    return .inl pos

/-- The position of the first child of a name, if there is one. -/
def findChild (child : List Byte) (pos : Nat) : Except FdtPanic (Option Nat) := do
  let pos ← B.skipProperties pos
  loop .loop (B.findChildRound child) B.fuel pos

end FdtBlocks

/-! ## The header -/

/-- A field of the header, by its number. -/
def fdtField (mem : Memory) (hdr k : Nat) : Nat := fromBeBytes (mem.bytes (hdr + 4 * k) 4)

def fdtOffDtStruct (mem : Memory) (hdr : Nat) : Nat := fdtField mem hdr 2
def fdtOffDtStrings (mem : Memory) (hdr : Nat) : Nat := fdtField mem hdr 3
def fdtSizeDtStrings (mem : Memory) (hdr : Nat) : Nat := fdtField mem hdr 8
def fdtSizeDtStruct (mem : Memory) (hdr : Nat) : Nat := fdtField mem hdr 9

/-- `FdtNode::new_root`: the blocks of the tree whose header is at an address; the
root is the position 0. -/
def fdtNewRoot (mem : Memory) (hdr : Nat) : Option FdtBlocks :=
  if fdtField mem hdr 0 ≠ fdtMagic then none
  else
    let maxVer := fdtField mem hdr 5
    let minVer := fdtField mem hdr 6
    if fdtVersion < minVer ∨ fdtVersion > maxVer then none
    else
      let dataBegin := hdr + fdtOffDtStruct mem hdr
      let strsBegin := hdr + fdtOffDtStrings mem hdr
      some ⟨dataBegin, mem.bytes dataBegin (fdtSizeDtStruct mem hdr),
        mem.bytes strsBegin (fdtSizeDtStrings mem hdr)⟩

end Hafnium
