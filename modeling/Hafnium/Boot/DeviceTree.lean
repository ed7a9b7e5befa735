import Hafnium.Boot.Fdt

/-!
# Device trees and their flattened form

A device tree as data, its serialisation as a struct block, and what the tokenizer
reads from it.  A block is a sequence of items, each after any number of NOPs;
`Stream` says which items there are from a position on, whatever the NOPs.
-/

namespace Hafnium

open Support List

/-! ## Trees -/

/-- A property: its name and its value. -/
abbrev DtProp := List Byte × List Byte

/-- A node of a device tree: its name, its properties and its children. -/
inductive DtNode
  | node (name : List Byte) (props : List DtProp) (children : List DtNode)

namespace DtNode

def name : DtNode → List Byte
  | node name _ _ => name

def props : DtNode → List DtProp
  | node _ props _ => props

def children : DtNode → List DtNode
  | node _ _ children => children

end DtNode

/-! ## Serialisation -/

/-- What a struct block consists of. -/
inductive FdtItem
  | beginNode (name : List Byte)
  | prop (name value : List Byte)
  | endNode
  | fdtEnd

def toBeBytes (v : Nat) : List Byte :=
  [.ofNat 8 (v / 2 ^ 24), .ofNat 8 (v / 2 ^ 16), .ofNat 8 (v / 2 ^ 8), .ofNat 8 v]

/-- Bytes followed by zeros up to the alignment of tokens. -/
def padded (bytes : List Byte) : List Byte :=
  bytes ++ replicate ((4 - bytes.length % 4) % 4) 0

namespace FdtItem

def token : FdtItem → FdtToken
  | beginNode _ => .beginNode
  | prop _ _ => .prop
  | endNode => .endNode
  | fdtEnd => .fdtEnd

def code : FdtItem → Nat
  | beginNode _ => 1
  | endNode => 2
  | prop _ _ => 3
  | fdtEnd => 9

/-- What follows the token of an item; the name of a property is its offset in the
strings block. -/
def payload (offset : List Byte → Nat) : FdtItem → List Byte
  | beginNode name => padded (name ++ [0])
  | prop name value => toBeBytes value.length ++ (toBeBytes (offset name) ++ padded value)
  | endNode => []
  | fdtEnd => []

def bytes (offset : List Byte → Nat) (it : FdtItem) : List Byte :=
  toBeBytes it.code ++ it.payload offset

end FdtItem

def nops (k : Nat) : List Byte := (replicate k (toBeBytes 4)).flatten

def propItems (props : List DtProp) : List FdtItem := props.map fun p => .prop p.1 p.2

mutual

/-- The items of a node: its name, its properties, its children, and its end. -/
def DtNode.items : DtNode → List FdtItem
  | .node name props children =>
    .beginNode name :: (propItems props ++ (childItems children ++ [.endNode]))

def childItems : List DtNode → List FdtItem
  | [] => []
  | c :: cs => c.items ++ childItems cs

end

/-- Items with `gap i` NOPs before the `i`-th one. -/
def encodeItems (offset : List Byte → Nat) : (Nat → Nat) → List FdtItem → List Byte
  | _, [] => []
  | gap, it :: items =>
    nops (gap 0) ++ (it.bytes offset ++ encodeItems offset (fun i => gap (i + 1)) items)

/-- The struct block of a tree. -/
def flatten (offset : List Byte → Nat) (gap : Nat → Nat) (tree : DtNode) : List Byte :=
  encodeItems offset gap (tree.items ++ [.fdtEnd])

/-! ## Lengths -/

theorem length_toBeBytes (v : Nat) : (toBeBytes v).length = 4 := rfl

theorem fromBeBytes_toBeBytes {v : Nat} (h : v < 2 ^ 32) : fromBeBytes (toBeBytes v) = v := by
  simp only [fromBeBytes, toBeBytes, foldl_cons, foldl_nil, BitVec.toNat_ofNat]
  omega

theorem padded_toBeBytes (v : Nat) : padded (toBeBytes v) = toBeBytes v := by
  simp [padded, toBeBytes]

theorem length_padded_mod (bytes : List Byte) : (padded bytes).length % 4 = 0 := by
  rw [padded, length_append, length_replicate]
  omega

theorem length_nops (k : Nat) : (nops k).length = 4 * k := by
  rw [nops, length_flatten, map_replicate, length_toBeBytes, sum_replicate,
    smul_eq_mul, Nat.mul_comm]

theorem nops_succ (k : Nat) : nops (k + 1) = toBeBytes 4 ++ nops k := by
  rw [nops, replicate_succ, flatten_cons, nops]

namespace FdtItem

variable (offset : List Byte → Nat) (it : FdtItem)

theorem length_payload_mod : (it.payload offset).length % 4 = 0 := by
  cases it with
  | beginNode name => exact length_padded_mod _
  | prop name value =>
    have := length_padded_mod value
    simp only [payload, length_append, length_toBeBytes]
    omega
  | endNode => rfl
  | fdtEnd => rfl

theorem length_bytes : (it.bytes offset).length = 4 + (it.payload offset).length := by
  rw [bytes, length_append, length_toBeBytes]

theorem code_lt : it.code < 2 ^ 32 := by
  cases it <;> norm_num [code]

theorem tryFrom_code : FdtToken.tryFrom it.code = some it.token := by
  cases it <;> rfl

theorem token_ne_nop : it.token ≠ .nop := by
  cases it <;> exact FdtToken.noConfusion

end FdtItem

/-! ## Reading items -/

namespace FdtBlocks

variable {B : FdtBlocks} (haddr : B.addr % 4 = 0) {pos : Nat}
include haddr

/-- Reading bytes skips what they are padded with. -/
theorem align_padded {xs : List Byte} (hpos : pos % 4 = 0) (h : HoldsAt B.data pos (padded xs)) :
    B.align (pos + xs.length) = .ok (pos + (padded xs).length) := by
  have hle := h.length_le
  have hskip : (fdtTokenAlignment - (B.addr + (pos + xs.length)) % fdtTokenAlignment) %
      fdtTokenAlignment = (4 - xs.length % 4) % 4 := by
    rw [fdtTokenAlignment]
    omega
  rw [padded, length_append, length_replicate] at hle ⊢
  rw [align]
  simp only [hskip]
  rw [if_neg (by omega), Nat.add_assoc]

theorem bytes_eq {xs : List Byte} (hpos : pos % 4 = 0) (h : HoldsAt B.data pos (padded xs)) :
    B.bytes xs.length pos = .ok (some xs, pos + (padded xs).length) := by
  have hle := h.length_le
  have hxs : HoldsAt B.data pos xs := (holdsAt_append.mp h).1
  rw [padded, length_append] at hle
  rw [bytes, if_neg (by omega), align_padded haddr hpos h, hxs.take]
  rfl

theorem u32_eq {v : Nat} (hv : v < 2 ^ 32) (hpos : pos % 4 = 0)
    (h : HoldsAt B.data pos (toBeBytes v)) : B.u32 pos = .ok (some v, pos + 4) := by
  rw [← padded_toBeBytes v] at h
  have hbytes := bytes_eq haddr hpos h
  rw [padded_toBeBytes, length_toBeBytes] at hbytes
  rw [u32, hbytes]
  simp only [bind, Except.bind, Option.map_some, fromBeBytes_toBeBytes hv]
  rfl

/-- Each NOP takes one round of `token`. -/
theorem loops_tokenRound {it : FdtItem} {k : Nat} (hpos : pos % 4 = 0)
    (h : HoldsAt B.data pos (nops k ++ toBeBytes it.code)) :
    Loops B.tokenRound k pos (some it.token, pos + 4 * k + 4) := by
  induction k generalizing pos with
  | zero =>
    refine .done ?_
    rw [tokenRound, u32_eq haddr it.code_lt hpos h]
    simp only [bind, Except.bind, it.tryFrom_code, if_neg it.token_ne_nop]
    rfl
  | succ k ih =>
    rw [nops_succ, append_assoc, holdsAt_append, length_toBeBytes] at h
    have hrest := ih (by omega) h.2
    rw [show pos + 4 + 4 * k = pos + 4 * (k + 1) by omega] at hrest
    refine .next ?_ hrest
    rw [tokenRound, u32_eq haddr (by norm_num) hpos h.1]
    rfl

/-- `token` skips NOPs. -/
theorem token_eq {it : FdtItem} {k : Nat} (hpos : pos % 4 = 0)
    (h : HoldsAt B.data pos (nops k ++ toBeBytes it.code)) :
    B.token pos = .ok (some it.token, pos + 4 * k + 4) := by
  have hle := h.length_le
  rw [length_append, length_nops, length_toBeBytes] at hle
  exact loop_eq _ (loops_tokenRound haddr hpos h) (by rw [fuel]; omega)

end FdtBlocks

end Hafnium
