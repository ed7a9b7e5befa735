import Hafnium.Boot.Manifest

/-!
# What the hypervisor reads from the device tree

`find_initrd`, `find_cpus` and `find_memory_ranges` of `fdt_handler.rs`.  The loops over
the CPUs and over the memory differ in what they do with the entries of a node.
-/

namespace Hafnium

open Support List

structure MemRange where
  begin : Nat
  endAddr : Nat
  deriving DecidableEq, Repr

def maxMemRanges : Nat := 20

/-- The part of a slice between two indices. -/
def sliceRange (data : List Byte) (first last : Nat) : Except FdtPanic (List Byte) :=
  if first ≤ last ∧ last ≤ data.length then .ok ((data.drop first).take (last - first))
  else .error .slice

/-- `fdt_parse_number(…).unwrap()`. -/
def unwrapNumber (data : List Byte) : Except FdtPanic Nat :=
  match fdtParseNumber data with
  | some v => .ok v
  | none => .error .number

/-- One round of the loop over the entries of a CPU.  There is room for the maximum
number of CPUs. -/
def cpuEntriesRound (addressSize : Nat) :
    List Byte × List Nat → Except FdtPanic ((List Byte × List Nat) ⊕ Option (List Nat))
  | (data, cpuIds) =>
    if data.length < addressSize then .ok (.inr (some cpuIds))
    else if cpuIds.length ≥ maxCpus then .ok (.inr none)
    else
      match fdtParseNumber (data.take addressSize) with
      | none => .ok (.inr none)
      | some id => .ok (.inl (data.drop addressSize, cpuIds ++ [id]))

def cpuEntries (addressSize : Nat) (data : List Byte) (cpuIds : List Nat) :
    Except FdtPanic (Option (List Nat)) :=
  loop .loop (cpuEntriesRound addressSize) (data.length + 1) (data, cpuIds)

/-- One round of the loop over the memory ranges of a node. -/
def memoryEntriesRound (addressSize sizeSize : Nat) : List Byte × List MemRange →
      Except FdtPanic ((List Byte × List MemRange) ⊕ Option (List MemRange))
  | (data, ranges) => do
      let entrySize := (addressSize + sizeSize) % 2 ^ 64
      if data.length < entrySize then return .inr (some ranges)
      let addr ← unwrapNumber (← sliceRange data 0 addressSize)
      let len ← unwrapNumber (← sliceRange data addressSize entrySize)
      let ranges :=
        if ranges.length < maxMemRanges then ranges ++ [⟨addr, (addr + len) % 2 ^ 64⟩] else ranges
      return .inl (data.drop entrySize, ranges)

def memoryEntries (addressSize sizeSize : Nat) (data : List Byte) (ranges : List MemRange) :
    Except FdtPanic (Option (List MemRange)) :=
  loop .loop (memoryEntriesRound addressSize sizeSize) (data.length + 1) (data, ranges)

namespace FdtBlocks

variable (B : FdtBlocks)

def readNumber (name : List Byte) (pos : Nat) : Except FdtPanic (Option Nat) := do
  let data ← B.readProperty name pos
  return data.bind fdtParseNumber

def findInitrd (pos : Nat) : Except FdtPanic (Option (Nat × Nat)) := do
  match ← B.findChild (asciz "chosen") pos with
  | none => return none
  | some node =>
    match ← B.readNumber (asciz "linux,initrd-start") node with
    | none => return none
    | some initrdBegin =>
      match ← B.readNumber (asciz "linux,initrd-end") node with
      | none => return none
      | some initrdEnd => return some (initrdBegin, initrdEnd)

/-- The size in bytes of something whose number of cells is a property. -/
def cellsSize (name : List Byte) (pos : Nat) : Except FdtPanic Nat := do
  match ← B.readNumber name pos with
  | some cells => return cells * 4 % 2 ^ 64
  | none => return 4

/-- The entries of a node, if it is a device of a type. -/
def deviceReg (deviceType : List Byte) (node : Nat) : Except FdtPanic (Option (List Byte)) := do
  match ← B.readProperty (asciz "device_type") node with
  | none => return none
  | some data => if data = deviceType then B.readProperty (asciz "reg") node else return none

/-- One round of the loops over siblings: the entries of a device are added to what was
found. -/
def devicesRound {α : Type} (deviceType : List Byte)
    (entries : List Byte → α → Except FdtPanic (Option α)) :
    Nat × α → Except FdtPanic ((Nat × α) ⊕ Option α)
  | (node, found) => do
      let next (found : α) : Except FdtPanic ((Nat × α) ⊕ Option α) := do
        match ← B.nextSibling node with
        | none => return .inr (some found)
        | some (_, node) => return .inl (node, found)
      match ← B.deviceReg deviceType node with
      | none => next found
      | some data =>
        match ← entries data found with
        | none => return .inr none
        | some found => next found

def findCpus (pos : Nat) : Except FdtPanic (Option (List Nat)) := do
  match ← B.findChild (asciz "cpus") pos with
  | none => return none
  | some node =>
    let addressSize ← B.cellsSize (asciz "#address-cells") node
    match ← B.firstChild node with
    | none => return none
    | some (_, node) =>
      loop .loop (B.devicesRound (asciz "cpu") (cpuEntries addressSize)) B.fuel (node, [])

def findMemoryRanges (pos : Nat) : Except FdtPanic (Option (List MemRange)) := do
  let addressSize ← B.cellsSize (asciz "#address-cells") pos
  let sizeSize ← B.cellsSize (asciz "#size-cells") pos
  match ← B.firstChild pos with
  | none => return none
  | some (_, node) =>
    loop .loop (B.devicesRound (asciz "memory") (memoryEntries addressSize sizeSize)) B.fuel
      (node, [])

end FdtBlocks

/-! ## Entries -/

theorem fdtParseNumber_isSome {data : List Byte} :
    (fdtParseNumber data).isSome = true ↔ data.length = 4 ∨ data.length = 8 := by
  rw [fdtParseNumber]
  split <;> simp_all

/-- The entries of a CPU are read without a panic, whatever the size of an address. -/
theorem cpuEntries_returns (addressSize : Nat) (data : List Byte) (cpuIds : List Nat) :
    ∃ r, cpuEntries addressSize data cpuIds = .ok r := by
  have hround : ∀ s : List Byte × List Nat, True →
      (∃ r, cpuEntriesRound addressSize s = .ok (.inr r) ∧ True) ∨
        ∃ s', cpuEntriesRound addressSize s = .ok (.inl s') ∧ True ∧ s'.1.length < s.1.length := by
    rintro ⟨data, cpuIds⟩ -
    by_cases hshort : data.length < addressSize
    · exact .inl ⟨_, if_pos hshort, trivial⟩
    by_cases hfull : cpuIds.length ≥ maxCpus
    · refine .inl ⟨none, ?_, trivial⟩
      rw [cpuEntriesRound, if_neg hshort, if_pos hfull]
    cases hparse : fdtParseNumber (data.take addressSize) with
    | none =>
      refine .inl ⟨none, ?_, trivial⟩
      rw [cpuEntriesRound, if_neg hshort, if_neg hfull, hparse]
    | some id =>
      refine .inr ⟨(data.drop addressSize, cpuIds ++ [id]), ?_, trivial, ?_⟩
      · rw [cpuEntriesRound, if_neg hshort, if_neg hfull, hparse]
      · have hlength := fdtParseNumber_isSome.mp (Option.isSome_of_eq_some hparse)
        rw [length_take] at hlength
        change (data.drop addressSize).length < data.length
        rw [length_drop]
        omega
  obtain ⟨n, hn, r, hloops, -⟩ := exists_loops _ _ _ hround (data, cpuIds) trivial
  exact ⟨r, loop_eq _ hloops (Nat.lt_succ_of_le hn)⟩

/-- An address and a size have 4 or 8 bytes. -/
def CellsFit (addressSize sizeSize : Nat) : Prop :=
  (addressSize = 4 ∨ addressSize = 8) ∧ (sizeSize = 4 ∨ sizeSize = 8)

theorem unwrapNumber_of_length {data : List Byte} (h : data.length = 4 ∨ data.length = 8) :
    unwrapNumber data = .ok (fromBeBytes data) := by
  rw [unwrapNumber, fdtParseNumber, if_pos h]

theorem unwrapNumber_returns {data : List Byte} :
    (∃ v, unwrapNumber data = .ok v) ↔ data.length = 4 ∨ data.length = 8 := by
  rw [← fdtParseNumber_isSome, unwrapNumber]
  cases fdtParseNumber data <;> simp

theorem sliceRange_eq_ok {data part : List Byte} {first last : Nat}
    (h : sliceRange data first last = .ok part) :
    first ≤ last ∧ last ≤ data.length ∧ part.length = last - first := by
  rw [sliceRange] at h
  split at h
  · rename_i hrange
    obtain rfl := Except.ok.inj h
    refine ⟨hrange.1, hrange.2, ?_⟩
    rw [length_take, length_drop]
    omega
  · contradiction

section Memory

variable {addressSize sizeSize : Nat} {data : List Byte} {ranges : List MemRange}

/-- A whole entry is only read if its parts have the size of a number. -/
theorem cellsFit_of_round (hsize : sizeSize < 2 ^ 64)
    (h : ¬data.length < (addressSize + sizeSize) % 2 ^ 64)
    {x : (List Byte × List MemRange) ⊕ Option (List MemRange)}
    (hx : memoryEntriesRound addressSize sizeSize (data, ranges) = .ok x) :
    CellsFit addressSize sizeSize := by
  simp only [memoryEntriesRound, if_neg h, bind_eq_ok] at hx
  obtain ⟨part, hpart, addr, haddr, part', hpart', len, hlen, -⟩ := hx
  obtain ⟨-, -, hpart⟩ := sliceRange_eq_ok hpart
  obtain ⟨hle, -, hpart'⟩ := sliceRange_eq_ok hpart'
  have haddr := unwrapNumber_returns.mp ⟨addr, haddr⟩
  have hlen := unwrapNumber_returns.mp ⟨len, hlen⟩
  rw [CellsFit]
  omega

/-- The range at the start of some entries. -/
def firstRange (addressSize sizeSize : Nat) (data : List Byte) : MemRange :=
  let addr := fromBeBytes (data.take addressSize)
  let len := fromBeBytes ((data.drop addressSize).take sizeSize)
  ⟨addr, (addr + len) % 2 ^ 64⟩

theorem memoryEntriesRound_entry (hcells : CellsFit addressSize sizeSize)
    (h : ¬data.length < (addressSize + sizeSize) % 2 ^ 64) :
    memoryEntriesRound addressSize sizeSize (data, ranges) =
      .ok (.inl (data.drop ((addressSize + sizeSize) % 2 ^ 64),
        if ranges.length < maxMemRanges then ranges ++ [firstRange addressSize sizeSize data]
        else ranges)) := by
  rw [CellsFit] at hcells
  have hentry : (addressSize + sizeSize) % 2 ^ 64 = addressSize + sizeSize := by omega
  rw [hentry] at h
  have haddr : sliceRange data 0 addressSize = .ok (data.take addressSize) :=
    if_pos ⟨Nat.zero_le _, by omega⟩
  have hlen : sliceRange data addressSize (addressSize + sizeSize) =
      .ok ((data.drop addressSize).take sizeSize) := by
    rw [sliceRange, if_pos ⟨by omega, by omega⟩, Nat.add_sub_cancel_left]
  have haddr' : (data.take addressSize).length = 4 ∨ (data.take addressSize).length = 8 := by
    rw [length_take]
    omega
  have hlen' : ((data.drop addressSize).take sizeSize).length = 4 ∨
      ((data.drop addressSize).take sizeSize).length = 8 := by
    rw [length_take, length_drop]
    omega
  simp only [memoryEntriesRound, hentry, if_neg h, bind_eq_ok]
  exact ⟨_, haddr, _, unwrapNumber_of_length haddr', _, hlen, _, unwrapNumber_of_length hlen', rfl⟩

/-- The ranges of a node are all read, or none of them has the size of two numbers. -/
theorem fits_of_memoryEntries (hsize : sizeSize < 2 ^ 64) {r : Option (List MemRange)}
    (h : memoryEntries addressSize sizeSize data ranges = .ok r) :
    data.length < (addressSize + sizeSize) % 2 ^ 64 ∨ CellsFit addressSize sizeSize := by
  by_cases hshort : data.length < (addressSize + sizeSize) % 2 ^ 64
  · exact .inl hshort
  · obtain hround | ⟨s', hround, -⟩ := loop_eq_ok _ h
    · exact .inr (cellsFit_of_round hsize hshort hround)
    · exact .inr (cellsFit_of_round hsize hshort hround)

theorem memoryEntries_of_fits
    (h : data.length < (addressSize + sizeSize) % 2 ^ 64 ∨ CellsFit addressSize sizeSize) :
    ∃ ranges', memoryEntries addressSize sizeSize data ranges = .ok (some ranges') := by
  obtain hshort | hcells := h
  · have hround : memoryEntriesRound addressSize sizeSize (data, ranges) =
        .ok (.inr (some ranges)) := if_pos hshort
    exact ⟨ranges, loop_eq _ (.done hround) (Nat.succ_pos _)⟩
  · have hround : ∀ s : List Byte × List MemRange, True →
        (∃ r, memoryEntriesRound addressSize sizeSize s = .ok (.inr r) ∧ r.isSome = true) ∨
          ∃ s', memoryEntriesRound addressSize sizeSize s = .ok (.inl s') ∧ True ∧
            s'.1.length < s.1.length := by
      rintro ⟨data, ranges⟩ -
      by_cases hshort : data.length < (addressSize + sizeSize) % 2 ^ 64
      · exact .inl ⟨some ranges, if_pos hshort, rfl⟩
      · refine .inr ⟨_, memoryEntriesRound_entry hcells hshort, trivial, ?_⟩
        rw [CellsFit] at hcells
        change (data.drop _).length < data.length
        rw [length_drop]
        omega
    obtain ⟨n, hn, r, hloops, hr⟩ := exists_loops _ _ _ hround (data, ranges) trivial
    obtain ⟨ranges', rfl⟩ := Option.isSome_iff_exists.mp hr
    exact ⟨ranges', loop_eq _ hloops (Nat.lt_succ_of_le hn)⟩

end Memory

end Hafnium
