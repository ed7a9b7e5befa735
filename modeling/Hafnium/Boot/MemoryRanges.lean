import Hafnium.Boot.FdtHandler

/-!
# The memory of a device tree

`find_memory_ranges` on a flattened tree.  What it finds is compared with the ranges of
the memory nodes of the tree, which are defined without the loops over siblings and over
entries.
-/

namespace Hafnium

open Support List DtNode

/-! ## Entries -/

/-- The whole entries of a `reg` property. -/
def regEntries (addressSize sizeSize : Nat) (data : List Byte) : List MemRange :=
  (range (data.length / (addressSize + sizeSize))).map fun i =>
    firstRange addressSize sizeSize (data.drop (i * (addressSize + sizeSize)))

section Entries

variable {addressSize sizeSize : Nat} {data : List Byte}

theorem regEntries_short (h : data.length < addressSize + sizeSize) :
    regEntries addressSize sizeSize data = [] := by
  rw [regEntries, Nat.div_eq_of_lt h]
  rfl

theorem regEntries_long (hpos : 0 < addressSize + sizeSize)
    (h : addressSize + sizeSize ≤ data.length) :
    regEntries addressSize sizeSize data = firstRange addressSize sizeSize data ::
      regEntries addressSize sizeSize (data.drop (addressSize + sizeSize)) := by
  have hcount : data.length / (addressSize + sizeSize) =
      (data.drop (addressSize + sizeSize)).length / (addressSize + sizeSize) + 1 := by
    rw [length_drop, Nat.div_eq_sub_div hpos h]
  rw [regEntries, hcount, range_succ_eq_map, map_cons, map_map, Nat.zero_mul, drop_zero, regEntries]
  congr 1
  apply map_congr_left
  intro i _
  change firstRange _ _ (data.drop ((i + 1) * _)) = firstRange _ _ ((data.drop _).drop _)
  rw [drop_drop, Nat.succ_mul, Nat.add_comm]

/-- A range is added as long as there is room. -/
theorem take_append_singleton (seen : List MemRange) (x : MemRange) :
    (if (seen.take maxMemRanges).length < maxMemRanges then seen.take maxMemRanges ++ [x]
      else seen.take maxMemRanges) = (seen ++ [x]).take maxMemRanges := by
  rw [length_take]
  split
  · rename_i hroom
    have hlt : seen.length < maxMemRanges := by omega
    rw [take_of_length_le hlt.le, take_of_length_le]
    rw [length_append]
    exact hlt
  · rename_i hfull
    rw [take_append_of_le_length]
    omega

/-- The loop over the entries of a node. -/
theorem memoryEntries_eq (hcells : CellsFit addressSize sizeSize) (data : List Byte)
    (seen : List MemRange) :
    memoryEntries addressSize sizeSize data (seen.take maxMemRanges) =
      .ok (some ((seen ++ regEntries addressSize sizeSize data).take maxMemRanges)) := by
  have hentry : (addressSize + sizeSize) % 2 ^ 64 = addressSize + sizeSize := by
    rw [CellsFit] at hcells
    omega
  have hpos : 0 < addressSize + sizeSize := by
    rw [CellsFit] at hcells
    omega
  -- the induction is on what remains of the property
  have hloop : ∀ fuel (data : List Byte) (seen : List MemRange), data.length < fuel →
      loop .loop (memoryEntriesRound addressSize sizeSize) fuel (data, seen.take maxMemRanges) =
        .ok (some ((seen ++ regEntries addressSize sizeSize data).take maxMemRanges)) := by
    intro fuel
    induction fuel with
    | zero =>
      intro data seen hfuel
      contradiction
    | succ fuel ih =>
      intro data seen hfuel
      by_cases hshort : data.length < addressSize + sizeSize
      · have hround : memoryEntriesRound addressSize sizeSize (data, seen.take maxMemRanges) =
            .ok (.inr (some (seen.take maxMemRanges))) :=
          if_pos (hshort.trans_eq hentry.symm)
        rw [loop, hround, regEntries_short hshort, append_nil]
      · have hround := @memoryEntriesRound_entry _ _ _ (seen.take maxMemRanges) hcells
          (by rwa [hentry])
        rw [take_append_singleton, hentry] at hround
        rw [regEntries_long hpos (not_lt.mp hshort), append_cons, loop, hround]
        apply ih
        rw [length_drop]
        omega
  exact hloop _ data seen (Nat.lt_succ_self _)

end Entries

/-! ## Memory nodes -/

namespace DtNode

/-- The number of cells that a property says, one if it is absent. -/
def cells (t : DtNode) (name : List Byte) : Nat :=
  ((t.property name).bind fdtParseNumber).getD 1

/-- The entries of a node, if it describes memory. -/
def memoryReg (t : DtNode) : Option (List Byte) :=
  if t.property (ascii "device_type") = some (asciz "memory") then t.property (ascii "reg")
  else none

/-- The ranges of the memory nodes below a node, in the order of the document. -/
def memoryRanges (root : DtNode) : List MemRange :=
  (root.children.filterMap memoryReg).flatMap
    (regEntries (4 * root.cells (ascii "#address-cells")) (4 * root.cells (ascii "#size-cells")))

theorem flatMap_memoryReg_cons (t : DtNode) (ts : List DtNode) (f : List Byte → List MemRange) :
    ((t :: ts).filterMap memoryReg).flatMap f =
      t.memoryReg.elim [] f ++ (ts.filterMap memoryReg).flatMap f := by
  rw [filterMap_cons]
  cases t.memoryReg <;> rfl

end DtNode

namespace FdtBlocks

variable {B : FdtBlocks} {offset : List Byte → Nat} {pos : Nat} {t : DtNode} (hB : B.Ready)
include hB

theorem AtNode.cellsSize_eq (h : B.AtNode offset pos t) {name : List Byte} (hname : 0 ∉ name)
    (hcells : t.cells name < 2 ^ 32) :
    B.cellsSize (name ++ [0]) pos = .ok (4 * t.cells name) := by
  rw [cellsSize, readNumber, h.readProperty_eq hB hname]
  rw [cells] at hcells ⊢
  dsimp only [bind, Except.bind, pure, Except.pure]
  cases hnumber : (t.property name).bind fdtParseNumber with
  | none => rfl
  | some n =>
    rw [hnumber] at hcells
    change Except.ok (n * 4 % 2 ^ 64) = .ok (4 * n)
    change n < 2 ^ 32 at hcells
    rw [Nat.mul_comm, Nat.mod_eq_of_lt (by omega)]

theorem AtNode.deviceReg_eq (h : B.AtNode offset pos t) :
    B.deviceReg (asciz "memory") pos = .ok t.memoryReg := by
  have htype : B.readProperty (asciz "device_type") pos =
      .ok (t.property (ascii "device_type")) := h.readProperty_eq hB (by decide +kernel)
  have hreg : B.readProperty (asciz "reg") pos = .ok (t.property (ascii "reg")) :=
    h.readProperty_eq hB (by decide +kernel)
  rw [deviceReg, htype, memoryReg]
  cases t.property (ascii "device_type") with
  | none => rfl
  | some data =>
    simp only [bind, Except.bind, Option.some.injEq]
    split
    · exact hreg
    · rfl

variable {addressSize sizeSize : Nat} (hfit : CellsFit addressSize sizeSize)
include hfit

/-- A round over a child: its entries are added if it is a memory node, and the loop goes
on with the next sibling. -/
theorem AtNode.devicesRound_eq (h : B.AtNode offset pos t) {sibling : Option (List Byte × Nat)}
    (hnext : B.nextSibling pos = .ok sibling) (seen : List MemRange) :
    B.devicesRound (asciz "memory") (memoryEntries addressSize sizeSize)
        (pos, seen.take maxMemRanges) =
      let found :=
        (seen ++ t.memoryReg.elim [] (regEntries addressSize sizeSize)).take maxMemRanges
      .ok (sibling.elim (.inr (some found)) fun node => .inl (node.2, found)) := by
  rw [devicesRound, h.deviceReg_eq hB]
  cases t.memoryReg with
  | none =>
    simp only [bind, Except.bind, hnext, Option.elim_none, append_nil]
    cases sibling <;> rfl
  | some data =>
    simp only [bind, Except.bind, hnext, Option.elim_some, memoryEntries_eq hfit]
    cases sibling <;> rfl

omit hB hfit in
/-- The loops over children have enough rounds. -/
theorem Represents.length_children_lt {c : DtCursor} (h : B.Represents offset pos c) :
    c.children.length < B.fuel := by
  obtain ⟨it, items, -, hstream⟩ := h
  have hlt := hstream.length_lt
  rw [length_append, length_append] at hlt
  have hle := length_le_childItems c.children
  omega

/-- The loop over siblings, by induction on those that follow. -/
theorem Represents.devices_eq {props : List DtProp} {children siblings : List DtNode}
    (h : B.Represents offset pos ⟨props, children, siblings⟩) (name : List Byte)
    (seen : List MemRange) {fuel : Nat} (hfuel : siblings.length < fuel) :
    loop .loop (B.devicesRound (asciz "memory") (memoryEntries addressSize sizeSize)) fuel
        (pos, seen.take maxMemRanges) =
      .ok (some ((seen ++ ((node name props children :: siblings).filterMap
        memoryReg).flatMap (regEntries addressSize sizeSize)).take maxMemRanges)) := by
  induction siblings generalizing props children pos name seen fuel with
  | nil =>
    obtain ⟨found, hnext, hrel⟩ := h.nextSibling hB
    cases hrel
    have hnode : B.AtNode offset pos (.node name props children) := ⟨[], h⟩
    obtain ⟨fuel, rfl⟩ := Nat.exists_eq_add_of_lt hfuel
    rw [loop, hnode.devicesRound_eq hB hfit hnext, flatMap_memoryReg_cons,
      filterMap_nil, flatMap_nil, append_nil]
    rfl
  | cons sibling siblings ih =>
    obtain ⟨siblingName, siblingProps, grandchildren⟩ := sibling
    obtain ⟨found, hnext, hrel⟩ := h.nextSibling hB
    cases hrel with
    | @some next _ hsibling =>
      have hnode : B.AtNode offset pos (.node name props children) := ⟨_, h⟩
      obtain ⟨fuel, rfl⟩ := Nat.exists_eq_add_of_lt hfuel
      rw [loop, hnode.devicesRound_eq hB hfit hnext, flatMap_memoryReg_cons, ← append_assoc]
      apply ih hsibling.2
      rw [length_cons]
      omega

omit hfit in
theorem AtNode.findMemoryRanges_eq {root : DtNode} (h : B.AtNode offset pos root)
    (haddress : root.cells (ascii "#address-cells") = 1 ∨ root.cells (ascii "#address-cells") = 2)
    (hsize : root.cells (ascii "#size-cells") = 1 ∨ root.cells (ascii "#size-cells") = 2)
    (hchildren : root.children ≠ []) :
    B.findMemoryRanges pos = .ok (some (root.memoryRanges.take maxMemRanges)) := by
  have haddressSize : B.cellsSize (asciz "#address-cells") pos =
      .ok (4 * root.cells (ascii "#address-cells")) :=
    h.cellsSize_eq hB (by decide +kernel) (by omega)
  have hsizeSize : B.cellsSize (asciz "#size-cells") pos =
      .ok (4 * root.cells (ascii "#size-cells")) :=
    h.cellsSize_eq hB (by decide +kernel) (by omega)
  obtain ⟨siblings, hpos⟩ := h
  obtain ⟨⟨name, props, children⟩, rest, hcons⟩ := exists_cons_of_ne_nil hchildren
  have hlt : rest.length < B.fuel := by
    have hlt := hpos.length_children_lt
    rw [hcons, length_cons] at hlt
    omega
  obtain ⟨found, hfirst, hrel⟩ := hpos.firstChild hB
  rw [DtCursor.firstChild, hcons] at hrel
  cases hrel with
  | @some first _ hchild =>
    rw [findMemoryRanges, haddressSize, hsizeSize]
    simp only [bind, Except.bind, hfirst]
    rw [memoryRanges, hcons]
    exact hchild.2.devices_eq hB ⟨by omega, by omega⟩ name [] hlt

end FdtBlocks

/-! ## Flattened trees -/

variable {mem : Memory} {hdr : Nat} {offset : List Byte → Nat} {gap : Nat → Nat} {root : DtNode}

/-- The boot memory of a flattened tree: the ranges of its memory nodes are all found, in
the order of the document, up to the number that there is room for. -/
theorem memoryRanges_found (h : IsFdt mem hdr offset gap root)
    (haddress : root.cells (ascii "#address-cells") = 1 ∨ root.cells (ascii "#address-cells") = 2)
    (hsize : root.cells (ascii "#size-cells") = 1 ∨ root.cells (ascii "#size-cells") = 2)
    (hchildren : root.children ≠ []) :
    ∃ B pos, fdtNewRoot mem hdr = some B ∧ B.findChild (root.name ++ [0]) 0 = .ok (some pos) ∧
      B.findMemoryRanges pos = .ok (some (root.memoryRanges.take maxMemRanges)) := by
  obtain ⟨B, pos, hB, hready, hfind, hnode⟩ := h.findRoot
  exact ⟨B, pos, hB, hfind, hnode.findMemoryRanges_eq hready haddress hsize hchildren⟩

/-- Two memory nodes around a CPU and a memory node without entries.  An address has two
cells, a size one, and the first node has half an entry at its end. -/
def memoryTree : DtNode :=
  .node [] [(ascii "#address-cells", [0, 0, 0, 2])]
    [.node (ascii "memory@8000") [(ascii "device_type", asciz "memory"),
          (ascii "reg", [0, 0, 0, 0, 0, 0, 128, 0, 0, 0, 16, 0, 0, 0, 0, 1, 0, 0, 0, 0, 0, 0, 32, 0,
            0, 0, 0, 2, 0, 0])] [],
      .node (ascii "cpu") [(ascii "device_type", asciz "cpu"), (ascii "reg", [0, 0, 0, 0])] [],
      .node (ascii "memory") [(ascii "device_type", asciz "memory")] [],
      .node (ascii "memory@0")
        [(ascii "reg", [255, 255, 255, 255, 255, 255, 240, 0, 0, 0, 32, 0]),
          (ascii "device_type", asciz "memory")] []]

def memoryStrings : List Byte := (["#address-cells", "device_type", "reg"].map asciz).flatten

def memoryOffset (name : List Byte) : Nat :=
  (range 32).find? (fun i => name ++ [0] <+: memoryStrings.drop i) |>.getD 0

def memoryBlob : List Byte :=
  let block := flatten memoryOffset (fun _ => 0) memoryTree
  let header := [fdtMagic, 40 + block.length + memoryStrings.length, 40, 40 + block.length, 0, 17,
    16, 0, memoryStrings.length, block.length]
  (header.map toBeBytes).flatten ++ block ++ memoryStrings

def memoryFdt : Memory := fun a => memoryBlob.getD a 0

theorem isFdt_memoryFdt : IsFdt memoryFdt 0 memoryOffset (fun _ => 0) memoryTree where
  magic := by decide +kernel
  version := by decide +kernel
  lastCompVersion := by decide +kernel
  aligned := by decide +kernel
  structBlock := by decide +kernel
  names := by decide +kernel

/-- The ranges of the two nodes, the last one around the end of the address space. -/
theorem memoryRanges_found_memoryFdt :
    ∃ B root, fdtNewRoot memoryFdt 0 = some B ∧ B.findChild [0] 0 = .ok (some root) ∧
      B.findMemoryRanges root = .ok (some [⟨0x8000, 0x9000⟩, ⟨0x100000000, 0x100002000⟩,
        ⟨0xfffffffffffff000, 0x1000⟩]) := by
  have hranges : memoryTree.memoryRanges.take maxMemRanges = [⟨0x8000, 0x9000⟩,
      ⟨0x100000000, 0x100002000⟩, ⟨0xfffffffffffff000, 0x1000⟩] := by decide +kernel
  rw [← hranges]
  exact memoryRanges_found isFdt_memoryFdt (.inr (by decide +kernel)) (.inl (by decide +kernel))
    nofun

end Hafnium
