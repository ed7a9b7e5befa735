import Hafnium.Boot.Navigation
import Hafnium.Support.Post

/-!
# The manifest

`manifest.rs`: what the hypervisor is told about the VMs, in the node `hypervisor` of
the device tree.  The values that `read_property` returns are aligned like the tokens
before them, so that the assertion in `fdt_parse_number` holds.

`Accepts` says which trees have a manifest, in terms of the nodes and properties alone.
-/

namespace Hafnium

open Support List Option

/-- The bytes of a string. -/
def ascii (s : String) : List Byte := s.toList.map fun c => .ofNat 8 c.toNat

/-- The bytes of a string with its terminator. -/
def asciz (s : String) : List Byte := ascii s ++ [0]

inductive ManifestError
  | noHypervisorFdtNode
  | notCompatible
  | reservedVmId
  | noPrimaryVm
  | tooManyVms
  | propertyNotFound
  | malformedString
  | stringTooLong
  | malformedStringList
  | malformedInteger
  | integerOverflow
  deriving DecidableEq, Repr

/-- How parsing can end without a manifest. -/
inductive ManifestStop
  | error (e : ManifestError)
  | panic (p : FdtPanic)
  deriving DecidableEq, Repr

def liftPanic {α : Type} (x : Except FdtPanic α) : Except ManifestStop α := x.mapError .panic

/-- Maximum length of a string, with its terminator. -/
def manifestMaxStringLength : Nat := 32

/-- What the manifest says about a VM.  The strings are buffers of the maximum length. -/
structure ManifestVm where
  debugName : List Byte
  kernelFilename : List Byte
  memSize : Nat
  vcpuCount : Nat
  deriving DecidableEq, Repr

/-- `vm` followed by an integer.  There is room for five digits. -/
def generateVmNodeName (vmId : Nat) : List Byte :=
  ascii "vm" ++ (Nat.toDigits 10 vmId).map (fun c => .ofNat 8 c.toNat) ++ [0]

def fdtParseNumber (data : List Byte) : Option Nat :=
  if data.length = 4 ∨ data.length = 8 then some (fromBeBytes data) else none

/-! ## Lists of strings -/

namespace StringList

/-- The next entry and what remains; the separator after the entry is dropped. -/
def getNext (list : List Byte) : List Byte × List Byte :=
  match list.findIdx? (· = 0) with
  | some pos => (list.take pos, list.drop (pos + 1))
  | none => (list, [])

/-- `MemIter::iseq` with a terminated string. -/
def iseq (entry str : List Byte) : Bool := entry == cstr str

/-- Whether a string is an entry.  Every round takes something from the list. -/
def containsFrom (str : List Byte) : Nat → List Byte → Bool
  | 0, _ => false
  | fuel + 1, list =>
    if list.length > 0 then
      let (entry, rest) := getNext list
      if iseq entry str then true else containsFrom str fuel rest
    else false

def contains (list str : List Byte) : Bool := containsFrom str list.length list

end StringList

/-! ## Reading the nodes -/

namespace FdtBlocks

variable (B : FdtBlocks)

def readValue (name : List Byte) (pos : Nat) : Except ManifestStop (List Byte) := do
  match ← liftPanic (B.readProperty name pos) with
  | none => throw (.error .propertyNotFound)
  | some data => return data

/-- A string, in a buffer that is otherwise zero. -/
def readString (name : List Byte) (pos : Nat) : Except ManifestStop (List Byte) := do
  let data ← B.readValue name pos
  if data.findIdx? (· = 0) ≠ some ((data.length + 2 ^ 64 - 1) % 2 ^ 64) then
    throw (.error .malformedString)
  if data.length > manifestMaxStringLength then throw (.error .stringTooLong)
  return data ++ replicate (manifestMaxStringLength - data.length) 0

def readU64 (name : List Byte) (pos : Nat) : Except ManifestStop Nat := do
  let data ← B.readValue name pos
  match fdtParseNumber data with
  | none => throw (.error .malformedInteger)
  | some value => return value

def readU16 (name : List Byte) (pos : Nat) : Except ManifestStop Nat := do
  let value ← B.readU64 name pos
  if value < 2 ^ 16 then return value else throw (.error .integerOverflow)

/-- `StringList::read_from`: the value without its terminator. -/
def readStringList (name : List Byte) (pos : Nat) : Except ManifestStop (List Byte) := do
  let data ← B.readValue name pos
  match data.getLast? with
  | none => throw (.panic .emptyList)
  | some last =>
    if last ≠ 0 then throw (.error .malformedStringList)
    return data.dropLast

/-- `ManifestVm::new`. -/
def manifestVm (pos vmId : Nat) : Except ManifestStop ManifestVm := do
  let debugName ← B.readString (asciz "debug_name") pos
  if vmId ≠ hfPrimaryVmId then
    let kernelFilename ← B.readString (asciz "kernel_filename") pos
    let memSize ← B.readU64 (asciz "mem_size") pos
    let vcpuCount ← B.readU16 (asciz "vcpu_count") pos
    return ⟨debugName, kernelFilename, memSize, vcpuCount⟩
  else return ⟨debugName, replicate manifestMaxStringLength 0, 0, 0⟩

/-- The loop over the VM nodes, with the number of rounds left. -/
def manifestVms (hypNode : Nat) : Nat → Nat → List ManifestVm → Bool →
    Except ManifestStop (List ManifestVm × Bool)
  | 0, _, vms, foundPrimaryVm => .ok (vms, foundPrimaryVm)
  | rounds + 1, i, vms, foundPrimaryVm => do
      let vmId := hfVmIdOffset + i
      match ← liftPanic (B.findChild (generateVmNodeName vmId) hypNode) with
      | none => return (vms, foundPrimaryVm)
      | some vmNode =>
        if i = maxVms then throw (.error .tooManyVms)
        if vmId = hfPrimaryVmId ∧ foundPrimaryVm = true then throw (.panic .primaryVm)
        let vm ← B.manifestVm vmNode vmId
        manifestVms hypNode rounds (i + 1) (vms ++ [vm]) (foundPrimaryVm || vmId == hfPrimaryVmId)

/-- `Manifest::init`, at the root of the tree. -/
def manifestInit (root : Nat) : Except ManifestStop (List ManifestVm) := do
  match ← liftPanic (B.findChild (asciz "hypervisor") root) with
  | none => throw (.error .noHypervisorFdtNode)
  | some hypNode =>
    let compatibleList ← B.readStringList (asciz "compatible") hypNode
    if !StringList.contains compatibleList (asciz "hafnium,hafnium") then
      throw (.error .notCompatible)
    -- there is one reserved VM ID
    if (← liftPanic (B.findChild (generateVmNodeName 0) hypNode)).isSome then
      throw (.error .reservedVmId)
    let (vms, foundPrimaryVm) ← B.manifestVms hypNode (maxVms + 1) 0 [] false
    if !foundPrimaryVm then throw (.error .noPrimaryVm)
    return vms

end FdtBlocks

/-! ## Trees with a manifest -/

namespace DtNode

/-- The child of a name, the first one if there are several. -/
def child (t : DtNode) (name : List Byte) : Option DtNode := t.children.find? fun c => c.name = name

/-- The value of a property. -/
def property (t : DtNode) (name : List Byte) : Option (List Byte) :=
  (t.props.find? fun prop => prop.1 = name).map Prod.snd

/-- A property is a terminated string without other NULs that fits a buffer. -/
def StringProperty (t : DtNode) (name buffer : List Byte) : Prop :=
  ∃ s, t.property name = some (s ++ [0]) ∧ 0 ∉ s ∧ s.length + 1 ≤ manifestMaxStringLength ∧
    buffer = s ++ replicate (manifestMaxStringLength - s.length) 0

/-- A property is a number of 4 or 8 bytes. -/
def NumberProperty (t : DtNode) (name : List Byte) (v : Nat) : Prop :=
  ∃ data, t.property name = some data ∧ (data.length = 4 ∨ data.length = 8) ∧ v = fromBeBytes data

/-- A node says this about a VM. -/
@[mk_iff]
structure IsVm (t : DtNode) (primary : Prop) (vm : ManifestVm) : Prop where
  debugName : t.StringProperty (ascii "debug_name") vm.debugName
  primaryVm : primary → vm.kernelFilename = replicate manifestMaxStringLength 0 ∧
    vm.memSize = 0 ∧ vm.vcpuCount = 0
  secondaryVm : ¬primary → t.StringProperty (ascii "kernel_filename") vm.kernelFilename ∧
    t.NumberProperty (ascii "mem_size") vm.memSize ∧
    t.NumberProperty (ascii "vcpu_count") vm.vcpuCount ∧ vm.vcpuCount < 2 ^ 16

/-- The name of the node of a VM. -/
def vmName (vmId : Nat) : List Byte :=
  ascii "vm" ++ (Nat.toDigits 10 vmId).map fun c => .ofNat 8 c.toNat

/-- The node of the hypervisor describes these VMs. -/
structure Describes (hypervisor : DtNode) (vms : List ManifestVm) : Prop where
  compatible : ∃ value, hypervisor.property (ascii "compatible") = some (value ++ [0]) ∧
    ascii "hafnium,hafnium" ∈ value.splitOn 0
  reserved : hypervisor.child (vmName 0) = none
  pos : 1 ≤ vms.length
  le : vms.length ≤ maxVms
  last : hypervisor.child (vmName (vms.length + 1)) = none
  vm : ∀ i (hi : i < vms.length), ∃ t, hypervisor.child (vmName (i + 1)) = some t ∧
    t.IsVm (i = 0) vms[i]

/-- The tree has a manifest with these VMs. -/
def Accepts (root : DtNode) (vms : List ManifestVm) : Prop :=
  ∃ hypervisor, root.child (ascii "hypervisor") = some hypervisor ∧ hypervisor.Describes vms

end DtNode

/-! ## Strings -/

/-- The first NUL ends a string. -/
theorem findIdx_zero_eq_some {l : List Byte} {i : Nat} :
    l.findIdx? (· = 0) = some i ↔ ∃ s rest, l = s ++ 0 :: rest ∧ 0 ∉ s ∧ s.length = i := by
  constructor
  · intro h
    obtain ⟨hi, hzero, hbefore⟩ := findIdx?_eq_some_iff_getElem.mp h
    refine ⟨l.take i, l.drop (i + 1), ?_, ?_, length_take_of_le hi.le⟩
    · rw [← of_decide_eq_true hzero, getElem_cons_drop, take_append_drop]
    · intro hmem
      obtain ⟨j, hj, hval⟩ := mem_take_iff_getElem.mp hmem
      exact hbefore j (by omega) (decide_eq_true hval)
  · rintro ⟨s, rest, rfl, hs, rfl⟩
    have hnone : s.findIdx? (· = 0) = none := by
      rw [findIdx?_eq_none_iff]
      intro x hx
      apply decide_eq_false
      rintro rfl
      exact hs hx
    rw [findIdx?_append, hnone, findIdx?_cons]
    simp

theorem findIdx_zero_eq_none {l : List Byte} : l.findIdx? (· = 0) = none ↔ 0 ∉ l := by
  rw [findIdx?_eq_none_iff]
  constructor
  · intro h hmem
    exact of_decide_eq_false (h 0 hmem) rfl
  · intro h x hx
    apply decide_eq_false
    rintro rfl
    exact h hx

namespace StringList

theorem containsFrom_iff {str : List Byte} (hne : str ≠ []) (hzero : 0 ∉ str) :
    ∀ (fuel : Nat) (list : List Byte), list.length ≤ fuel →
      (containsFrom (str ++ [0]) fuel list = true ↔ str ∈ list.splitOn 0) := by
  have hcstr : cstr (str ++ [0]) = str := cstr_append_zero hzero []
  have hempty : str ∉ ([] : List Byte).splitOn 0 := by
    rw [splitOn_nil, mem_singleton]
    exact hne
  intro fuel
  induction fuel with
  | zero =>
    intro list hlist
    rw [length_eq_zero_iff.mp (Nat.le_zero.mp hlist)]
    exact iff_of_false Bool.false_ne_true hempty
  | succ fuel ih =>
    intro list hlist
    rw [containsFrom]
    by_cases hpos : list.length > 0
    · rw [if_pos hpos]
      cases hfind : list.findIdx? (· = 0) with
      | none =>
        have hlast : containsFrom (str ++ [0]) fuel [] = false := by
          rw [← Bool.not_eq_true, ih [] (Nat.zero_le _)]
          exact hempty
        rw [splitOn_eq_singleton (findIdx_zero_eq_none.mp hfind), mem_singleton]
        simp only [getNext, hfind, iseq, hcstr, hlast, beq_iff_eq]
        simp [eq_comm]
      | some i =>
        obtain ⟨s, rest, rfl, hs, rfl⟩ := findIdx_zero_eq_some.mp hfind
        have hrest : rest.length ≤ fuel := by
          rw [length_append, length_cons] at hlist
          omega
        have hdrop : (s ++ 0 :: rest).drop (s.length + 1) = rest := by
          rw [← drop_drop, drop_left]
          rfl
        rw [splitOn_append_cons_self_of_not_mem hs, mem_cons, ← ih rest hrest]
        simp only [getNext, hfind, iseq, hcstr, hdrop, take_left, beq_iff_eq]
        by_cases heq : s = str
        · simp [heq]
        · simp [heq, Ne.symm heq]
    · rw [if_neg hpos, length_eq_zero_iff.mp (Nat.eq_zero_of_not_pos hpos)]
      exact iff_of_false Bool.false_ne_true hempty

theorem contains_iff {str : List Byte} (hne : str ≠ []) (hzero : 0 ∉ str) (list : List Byte) :
    contains list (str ++ [0]) = true ↔ str ∈ list.splitOn 0 :=
  containsFrom_iff hne hzero list.length list le_rfl

end StringList

theorem append_zero_fill {s : List Byte} {n : Nat} (h : s.length + 1 ≤ n) :
    s ++ [0] ++ replicate (n - (s ++ [0]).length) 0 = s ++ replicate (n - s.length) 0 := by
  have hn : n - s.length = n - (s ++ [0]).length + 1 := by
    rw [length_append, length_singleton]
    omega
  rw [hn, replicate_succ, append_assoc, singleton_append]

/-! ## Nodes of the tree -/

theorem DtCursor.findAmong_eq (name : List Byte) (children : List DtNode) :
    Option.Rel (fun t c => ∃ siblings, c = ⟨t.props, t.children, siblings⟩)
      (children.find? fun c => c.name = name) (findAmong name children) := by
  induction children with
  | nil => exact .none
  | cons child children ih =>
    obtain ⟨childName, props, grandchildren⟩ := child
    by_cases hname : childName = name
    · rw [findAmong, if_pos hname, find?_cons_of_pos (by exact decide_eq_true hname)]
      exact .some ⟨children, rfl⟩
    · rw [findAmong, if_neg hname, find?_cons_of_neg (by exact mt of_decide_eq_true hname)]
      exact ih

namespace FdtBlocks

variable {B : FdtBlocks} {offset : List Byte → Nat} {pos : Nat} {t : DtNode} {name : List Byte}

/-- A position stands for a node of the tree. -/
def AtNode (B : FdtBlocks) (offset : List Byte → Nat) (pos : Nat) (t : DtNode) : Prop :=
  ∃ siblings, B.Represents offset pos ⟨t.props, t.children, siblings⟩

variable (hB : B.Ready)
include hB

theorem Represents.findAmong {c : DtCursor} (h : B.Represents offset pos c) (hname : 0 ∉ name) :
    ∃ found, B.findChild (name ++ [0]) pos = .ok found ∧
      Option.Rel (B.AtNode offset) found (c.children.find? fun c => c.name = name) := by
  obtain ⟨found, hfind, hrel⟩ := h.findChild hB (name ++ [0])
  refine ⟨found, hfind, ?_⟩
  rw [DtCursor.findChild, cstr_append_zero hname []] at hrel
  have hamong := DtCursor.findAmong_eq name c.children
  generalize c.children.find? (fun c => c.name = name) = child at hamong
  generalize DtCursor.findAmong name c.children = cursor at hamong hrel
  cases hamong with
  | none =>
    cases hrel with
    | none => exact .none
  | some hcursor =>
    obtain ⟨siblings, rfl⟩ := hcursor
    cases hrel with
    | some hpos => exact .some ⟨siblings, hpos⟩

variable (h : B.AtNode offset pos t) (hname : 0 ∉ name)
include h hname

theorem AtNode.findChild : ∃ found, B.findChild (name ++ [0]) pos = .ok found ∧
      Option.Rel (B.AtNode offset) found (t.child name) := by
  obtain ⟨siblings, hpos⟩ := h
  exact hpos.findAmong hB hname

theorem AtNode.readProperty_eq : B.readProperty (name ++ [0]) pos = .ok (t.property name) := by
  obtain ⟨siblings, hpos⟩ := h
  rw [hpos.readProperty hB, DtCursor.readProperty, cstr_append_zero hname []]
  rfl

theorem AtNode.readValue_iff {data : List Byte} :
    B.readValue (name ++ [0]) pos = .ok data ↔ t.property name = some data := by
  rw [readValue, h.readProperty_eq hB hname]
  cases t.property name with
  | none => exact iff_of_false nofun nofun
  | some value =>
    change (.ok value : Except ManifestStop _) = .ok data ↔ _
    rw [Except.ok.injEq, some.injEq]

theorem AtNode.readString_iff {buffer : List Byte} :
    B.readString (name ++ [0]) pos = .ok buffer ↔ t.StringProperty name buffer := by
  rw [readString, bind_eq_ok]
  simp only [h.readValue_iff hB hname]
  constructor
  · rintro ⟨data, hdata, hcheck⟩
    by_cases hfind : data.findIdx? (· = 0) = some ((data.length + 2 ^ 64 - 1) % 2 ^ 64)
    · rw [if_neg (not_not.mpr hfind)] at hcheck
      by_cases hlength : data.length > manifestMaxStringLength
      · rw [if_pos hlength] at hcheck
        contradiction
      · rw [if_neg hlength] at hcheck
        obtain ⟨s, rest, rfl, hs, hlast⟩ := findIdx_zero_eq_some.mp hfind
        rw [manifestMaxStringLength, length_append, length_cons] at hlength
        rw [length_append, length_cons] at hlast
        obtain rfl : rest = [] := by
          apply length_eq_zero_iff.mp
          omega
        have hs' : s.length + 1 ≤ manifestMaxStringLength := by
          rw [manifestMaxStringLength]
          omega
        refine ⟨s, hdata, hs, hs', ?_⟩
        rw [← append_zero_fill hs']
        exact (Except.ok.inj hcheck).symm
    · rw [if_pos hfind] at hcheck
      contradiction
  · rintro ⟨s, hs, hzero, hlength, rfl⟩
    refine ⟨s ++ [0], hs, ?_⟩
    have hlast : (s ++ [0]).findIdx? (· = 0) =
        some (((s ++ [0]).length + 2 ^ 64 - 1) % 2 ^ 64) := by
      apply findIdx_zero_eq_some.mpr
      refine ⟨s, [], rfl, hzero, ?_⟩
      rw [manifestMaxStringLength] at hlength
      rw [length_append, length_singleton]
      omega
    have hfits : ¬(s ++ [0]).length > manifestMaxStringLength := by
      rw [length_append, length_singleton]
      omega
    rw [if_neg (not_not.mpr hlast), if_neg hfits, append_zero_fill hlength]
    rfl

theorem AtNode.readU64_iff {v : Nat} :
    B.readU64 (name ++ [0]) pos = .ok v ↔ t.NumberProperty name v := by
  rw [readU64, bind_eq_ok]
  simp only [h.readValue_iff hB hname]
  apply exists_congr
  intro data
  apply and_congr_right
  intro hdata
  by_cases hlength : data.length = 4 ∨ data.length = 8
  · rw [fdtParseNumber, if_pos hlength]
    change (.ok (fromBeBytes data) : Except ManifestStop _) = .ok v ↔ _
    rw [Except.ok.injEq, and_iff_right hlength, eq_comm]
  · rw [fdtParseNumber, if_neg hlength]
    exact iff_of_false nofun fun hnumber => hlength hnumber.1

theorem AtNode.readU16_iff {v : Nat} :
    B.readU16 (name ++ [0]) pos = .ok v ↔ t.NumberProperty name v ∧ v < 2 ^ 16 := by
  rw [readU16, bind_eq_ok]
  simp only [h.readU64_iff hB hname]
  constructor
  · rintro ⟨value, hvalue, hcheck⟩
    by_cases hlt : value < 2 ^ 16
    · rw [if_pos hlt] at hcheck
      obtain rfl : value = v := Except.ok.inj hcheck
      exact ⟨hvalue, hlt⟩
    · rw [if_neg hlt] at hcheck
      contradiction
  · rintro ⟨hv, hlt⟩
    refine ⟨v, hv, ?_⟩
    rw [if_pos hlt]
    rfl

theorem AtNode.readStringList_iff {list : List Byte} :
    B.readStringList (name ++ [0]) pos = .ok list ↔ t.property name = some (list ++ [0]) := by
  rw [readStringList, bind_eq_ok]
  simp only [h.readValue_iff hB hname]
  constructor
  · rintro ⟨data, hdata, hcheck⟩
    cases hlast : data.getLast? with
    | none =>
      rw [hlast] at hcheck
      contradiction
    | some last =>
      rw [hlast] at hcheck
      by_cases hzero : last = 0
      · subst hzero
        obtain rfl : data.dropLast = list := Except.ok.inj hcheck
        rw [hdata, dropLast_append_getLast? 0 hlast]
      · simp only [if_pos hzero] at hcheck
        contradiction
  · intro hdata
    refine ⟨_, hdata, ?_⟩
    rw [getLast?_concat]
    change (.ok (list ++ [0]).dropLast : Except ManifestStop _) = .ok list
    rw [dropLast_concat]

end FdtBlocks

/-! ## The VMs -/

theorem zero_notMem_vmName (vmId : Nat) : 0 ∉ DtNode.vmName vmId := by
  intro hmem
  obtain hmem | hmem := mem_append.mp hmem
  · exact absurd hmem (by decide)
  · obtain ⟨c, hc, hzero⟩ := mem_map.mp hmem
    have hdigit := Nat.isDigit_of_mem_toDigits (by decide) (by decide) hc
    rw [Char.isDigit, Bool.and_eq_true, decide_eq_true_eq, decide_eq_true_eq] at hdigit
    have hlower : 48 ≤ c.toNat := UInt32.le_iff_toNat_le.mp hdigit.1
    have hupper : c.toNat ≤ 57 := UInt32.le_iff_toNat_le.mp hdigit.2
    have hnat : c.toNat % 2 ^ 8 = 0 := by
      rw [← BitVec.toNat_ofNat, hzero]
      rfl
    omega

/-- The nodes of the VMs from an index on: each has what the list says, and the next
one does not exist. -/
inductive DtNode.Lists (hypervisor : DtNode) : Nat → List ManifestVm → Prop
  | nil {i : Nat} (h : hypervisor.child (vmName (i + 1)) = none) : Lists hypervisor i []
  | cons {i : Nat} {t : DtNode} {vm : ManifestVm} {vms : List ManifestVm}
      (h : hypervisor.child (vmName (i + 1)) = some t) (hvm : t.IsVm (i = 0) vm)
      (hrest : Lists hypervisor (i + 1) vms) : Lists hypervisor i (vm :: vms)

theorem DtNode.lists_iff {hypervisor : DtNode} {i : Nat} {vms : List ManifestVm} :
    hypervisor.Lists i vms ↔ hypervisor.child (vmName (i + vms.length + 1)) = none ∧
      ∀ j (hj : j < vms.length), ∃ t, hypervisor.child (vmName (i + j + 1)) = some t ∧
        t.IsVm (i + j = 0) vms[j] := by
  constructor
  · intro h
    induction h with
    | nil h => exact ⟨h, fun j hj => absurd hj (Nat.not_lt_zero j)⟩
    | @cons i t vm vms h hvm _ ih =>
      refine ⟨?_, ?_⟩
      · rw [length_cons, ← Nat.add_assoc, Nat.add_right_comm i]
        exact ih.1
      · intro j hj
        cases j with
        | zero => exact ⟨t, h, hvm⟩
        | succ j =>
          obtain ⟨t, ht, hvm⟩ := ih.2 j (Nat.lt_of_succ_lt_succ hj)
          rw [← Nat.add_assoc, Nat.add_right_comm i]
          exact ⟨t, ht, hvm⟩
  · intro h
    induction vms generalizing i with
    | nil => exact .nil h.1
    | cons vm vms ih =>
      obtain ⟨t, ht, hvm⟩ := h.2 0 (Nat.succ_pos _)
      refine .cons ht hvm (ih ⟨?_, ?_⟩)
      · rw [Nat.add_right_comm i, Nat.add_assoc i]
        exact h.1
      · intro j hj
        rw [Nat.add_right_comm i, Nat.add_assoc i]
        exact h.2 (j + 1) (Nat.succ_lt_succ hj)

theorem DtNode.describes_iff {hypervisor : DtNode} {vms : List ManifestVm} :
    hypervisor.Describes vms ↔
      (∃ value, hypervisor.property (ascii "compatible") = some (value ++ [0]) ∧
        ascii "hafnium,hafnium" ∈ value.splitOn 0) ∧
      hypervisor.child (vmName 0) = none ∧ hypervisor.Lists 0 vms ∧ 1 ≤ vms.length ∧
      vms.length ≤ maxVms := by
  simp only [lists_iff, Nat.zero_add]
  constructor
  · rintro ⟨hcompatible, hreserved, hpos, hle, hlast, hvm⟩
    exact ⟨hcompatible, hreserved, ⟨hlast, hvm⟩, hpos, hle⟩
  · rintro ⟨hcompatible, hreserved, ⟨hlast, hvm⟩, hpos, hle⟩
    exact ⟨hcompatible, hreserved, hpos, hle, hlast, hvm⟩

namespace FdtBlocks

variable {B : FdtBlocks} {offset : List Byte → Nat} {pos : Nat} {t : DtNode} (hB : B.Ready)
include hB

theorem AtNode.manifestVm_iff (h : B.AtNode offset pos t) {vmId : Nat} {vm : ManifestVm} :
    B.manifestVm pos vmId = .ok vm ↔ t.IsVm (vmId = hfPrimaryVmId) vm := by
  have hdebugName {b : List Byte} : B.readString (asciz "debug_name") pos = .ok b ↔
      t.StringProperty (ascii "debug_name") b := h.readString_iff hB (by decide)
  have hkernelFilename {b : List Byte} : B.readString (asciz "kernel_filename") pos = .ok b ↔
      t.StringProperty (ascii "kernel_filename") b := h.readString_iff hB (by decide)
  have hmemSize {v : Nat} : B.readU64 (asciz "mem_size") pos = .ok v ↔
      t.NumberProperty (ascii "mem_size") v := h.readU64_iff hB (by decide)
  have hvcpuCount {v : Nat} : B.readU16 (asciz "vcpu_count") pos = .ok v ↔
      t.NumberProperty (ascii "vcpu_count") v ∧ v < 2 ^ 16 := h.readU16_iff hB (by decide)
  by_cases hprimary : vmId = hfPrimaryVmId
  · simp only [manifestVm, if_neg (not_not.mpr hprimary), bind_eq_ok, hdebugName]
    constructor
    · rintro ⟨debugName, hname, hvm⟩
      obtain rfl := Except.ok.inj hvm
      exact ⟨hname, fun _ => ⟨rfl, rfl, rfl⟩, fun hne => absurd hprimary hne⟩
    · intro hvm
      obtain ⟨debugName, kernelFilename, memSize, vcpuCount⟩ := vm
      obtain ⟨rfl, rfl, rfl⟩ := hvm.primaryVm hprimary
      exact ⟨debugName, hvm.debugName, rfl⟩
  · simp only [manifestVm, if_pos hprimary, bind_eq_ok, hdebugName, hkernelFilename, hmemSize,
      hvcpuCount]
    constructor
    · rintro ⟨debugName, hname, kernelFilename, hkernel, memSize, hmem, vcpuCount, hcount, hvm⟩
      obtain rfl := Except.ok.inj hvm
      exact ⟨hname, fun heq => absurd heq hprimary, fun _ => ⟨hkernel, hmem, hcount⟩⟩
    · intro hvm
      obtain ⟨hkernel, hmem, hcount⟩ := hvm.secondaryVm hprimary
      exact ⟨_, hvm.debugName, _, hkernel, _, hmem, _, hcount, rfl⟩

/-- The loop returns the VMs of the nodes that it finds; there is one round more than
there may be VMs. -/
theorem AtNode.manifestVms_iff {hypervisor : DtNode} (h : B.AtNode offset pos hypervisor)
    {vms : List ManifestVm} {foundPrimaryVm : Bool} :
    ∀ {rounds i : Nat} {before : List ManifestVm} {found : Bool}, i + rounds = maxVms + 1 →
      i ≤ maxVms → (i = 0 → found = false) →
      (B.manifestVms pos rounds i before found = .ok (vms, foundPrimaryVm) ↔
        ∃ new, vms = before ++ new ∧ hypervisor.Lists i new ∧ i + new.length ≤ maxVms ∧
          foundPrimaryVm = (found || (i == 0 && !new.isEmpty))) := by
  intro rounds
  induction rounds with
  | zero =>
    intro i before found hrounds hi
    omega
  | succ rounds ih =>
    intro i before found hrounds hi hfound
    obtain ⟨node, hfind, hrel⟩ := h.findChild hB (zero_notMem_vmName (i + 1))
    have hname : generateVmNodeName (hfVmIdOffset + i) = DtNode.vmName (i + 1) ++ [0] := by
      rw [Nat.add_comm]
      rfl
    rw [manifestVms, hname, hfind]
    generalize hchild : hypervisor.child (DtNode.vmName (i + 1)) = child at hrel
    cases hrel with
    | none =>
      change (.ok (before, found) : Except ManifestStop _) = .ok (vms, foundPrimaryVm) ↔ _
      constructor
      · intro heq
        obtain ⟨rfl, rfl⟩ := Prod.mk.inj (Except.ok.inj heq)
        exact ⟨[], (append_nil _).symm, .nil hchild, hi, by simp⟩
      · rintro ⟨new, rfl, hlists, -, rfl⟩
        cases hlists with
        | nil _ => simp
        | cons hsome _ _ => cases hchild.symm.trans hsome
    | @some vmNode t hnode =>
      by_cases hlast : i = maxVms
      · apply iff_of_false
        · simp only [if_pos hlast]
          nofun
        · rintro ⟨new, -, hlists, hlength, -⟩
          cases hlists with
          | nil hnone => cases hchild.symm.trans hnone
          | cons _ _ _ =>
            rw [length_cons] at hlength
            omega
      · have hzero : hfVmIdOffset + i = hfPrimaryVmId ↔ i = 0 := by
          rw [hfPrimaryVmId, Nat.add_eq_left]
        have hbeq : (hfVmIdOffset + i == hfPrimaryVmId) = (i == 0) := by
          rw [Bool.eq_iff_iff, beq_iff_eq, beq_iff_eq, hzero]
        have hprimary : ¬(i = 0 ∧ found = true) := by
          rintro ⟨hi0, htrue⟩
          rw [hfound hi0] at htrue
          cases htrue
        have hnext {vm : ManifestVm} := @ih (i + 1) (before ++ [vm]) (found || i == 0)
          (by omega) (by omega) nofun
        simp only [hzero, hbeq, if_neg hlast, if_neg hprimary]
        change (B.manifestVm vmNode (hfVmIdOffset + i) >>= _) = _ ↔ _
        simp only [bind_eq_ok, hnode.manifestVm_iff hB, hnext, hzero]
        constructor
        · rintro ⟨vm, hvm, new, rfl, hlists, hlength, rfl⟩
          refine ⟨vm :: new, ?_, .cons hchild hvm hlists, ?_, ?_⟩
          · rw [append_assoc, singleton_append]
          · rw [length_cons]
            omega
          · simp
        · rintro ⟨new, rfl, hlists, hlength, rfl⟩
          cases hlists with
          | nil hnone => cases hchild.symm.trans hnone
          | @cons _ t' vm new hsome hvm hlists =>
            obtain rfl := some.inj (hchild.symm.trans hsome)
            rw [length_cons] at hlength
            refine ⟨vm, hvm, new, ?_, hlists, by omega, by simp⟩
            rw [append_assoc, singleton_append]

theorem AtNode.manifestInit_iff (h : B.AtNode offset pos t) {vms : List ManifestVm} :
    B.manifestInit pos = .ok vms ↔ t.Accepts vms := by
  have hname : (0 : Byte) ∉ ascii "hypervisor" := by decide
  obtain ⟨node, hfind, hrel⟩ := h.findChild hB hname
  rw [manifestInit, asciz, hfind, DtNode.Accepts]
  generalize t.child (ascii "hypervisor") = child at hrel
  cases hrel with
  | none =>
    apply iff_of_false
    · nofun
    · rintro ⟨_, hsome, _⟩
      cases hsome
  | @some hypNode hypervisor hnode =>
    have hlist {list : List Byte} : B.readStringList (asciz "compatible") hypNode = .ok list ↔
        hypervisor.property (ascii "compatible") = some (list ++ [0]) :=
      hnode.readStringList_iff hB (by decide)
    have hcontains {list : List Byte} : StringList.contains list (asciz "hafnium,hafnium") = true ↔
        ascii "hafnium,hafnium" ∈ list.splitOn 0 :=
      StringList.contains_iff (by decide) (by decide) list
    have hvms {vms : List ManifestVm} {found : Bool} :=
      @manifestVms_iff _ _ _ hB hypervisor hnode vms found (maxVms + 1) 0 [] false
        (Nat.zero_add _) (Nat.zero_le _) (fun _ => rfl)
    obtain ⟨reserved, hreserved, hrel⟩ := hnode.findChild hB (zero_notMem_vmName 0)
    have hreserved : B.findChild (generateVmNodeName 0) hypNode = .ok reserved := hreserved
    change (B.readStringList (asciz "compatible") hypNode >>= _) = _ ↔ _
    simp only [bind_eq_ok, hlist, hreserved]
    constructor
    · rintro ⟨list, hcompatible, hrest⟩
      cases hc : StringList.contains list (asciz "hafnium,hafnium") with
      | false =>
        simp only [hc] at hrest
        contradiction
      | true =>
        generalize hchild : hypervisor.child (DtNode.vmName 0) = child at hrel
        simp only [hc] at hrest
        cases hrel with
        | some _ => contradiction
        | none =>
          have hrest : (B.manifestVms hypNode (maxVms + 1) 0 [] false >>= _) = _ := hrest
          obtain ⟨⟨new, found⟩, hloop, hrest⟩ := bind_eq_ok.mp hrest
          obtain ⟨_, rfl, hlists, hlength, rfl⟩ := hvms.mp hloop
          rw [Nat.zero_add] at hlength
          cases new with
          | nil => contradiction
          | cons vm new =>
            obtain rfl : vm :: new = vms := Except.ok.inj hrest
            exact ⟨hypervisor, rfl, DtNode.describes_iff.mpr
              ⟨⟨list, hcompatible, hcontains.mp hc⟩, hchild, hlists, Nat.succ_pos _, hlength⟩⟩
    · rintro ⟨_, heq, hdescribes⟩
      obtain rfl := some.inj heq
      obtain ⟨⟨list, hcompatible, hmem⟩, hchild, hlists, hpos, hle⟩ :=
        DtNode.describes_iff.mp hdescribes
      refine ⟨list, hcompatible, ?_⟩
      rw [hchild] at hrel
      cases hrel with
      | none =>
        have hloop : B.manifestVms hypNode (maxVms + 1) 0 [] false = .ok (vms, true) := by
          refine hvms.mpr ⟨vms, rfl, hlists, (Nat.zero_add _).trans_le hle, ?_⟩
          cases vms with
          | nil => exact absurd hpos (Nat.not_succ_le_zero 0)
          | cons vm vms => rfl
        rw [hcontains.mpr hmem]
        change (B.manifestVms hypNode (maxVms + 1) 0 [] false >>= _) = _
        rw [hloop]
        rfl

end FdtBlocks

/-! ## The order of nodes and properties -/

section Keys

variable {α κ : Type} {l l' : List α}

/-- With distinct keys the order of a list does not matter for what is found by key. -/
theorem find?_key_eq_some [DecidableEq κ] {key : α → κ} (h : (l.map key).Nodup) {k : κ} {a : α} :
    (l.find? fun x => key x = k) = some a ↔ a ∈ l ∧ key a = k := by
  induction l with
  | nil => simp
  | cons b l ih =>
    rw [map_cons, nodup_cons] at h
    by_cases hb : key b = k
    · rw [find?_cons_of_pos (by exact decide_eq_true hb), some.injEq]
      constructor
      · rintro rfl
        exact ⟨mem_cons_self, hb⟩
      · rintro ⟨ha, hk⟩
        obtain rfl | ha := mem_cons.mp ha
        · rfl
        · exact absurd (mem_map.mpr ⟨a, ha, hk.trans hb.symm⟩) h.1
    · rw [find?_cons_of_neg (by exact mt of_decide_eq_true hb), ih h.2, mem_cons]
      constructor
      · rintro ⟨ha, hk⟩
        exact ⟨.inr ha, hk⟩
      · rintro ⟨rfl | ha, hk⟩
        · exact absurd hk hb
        · exact ⟨ha, hk⟩

theorem forall₂_exists_of_mem {R : α → α → Prop} (h : List.Forall₂ R l l') {a : α} (ha : a ∈ l) :
    ∃ b ∈ l', R a b := by
  induction h with
  | nil => cases ha
  | cons hab _ ih =>
    obtain rfl | ha := mem_cons.mp ha
    · exact ⟨_, mem_cons_self, hab⟩
    · obtain ⟨b, hb, hR⟩ := ih ha
      exact ⟨b, mem_cons_of_mem _ hb, hR⟩

end Keys

namespace DtNode

/-- No two children of a node and no two of its properties have the same name. -/
inductive Unique : DtNode → Prop
  | node {name : List Byte} {props : List DtProp} {children : List DtNode}
      (hprops : (props.map Prod.fst).Nodup) (hnames : (children.map DtNode.name).Nodup)
      (hchildren : ∀ c ∈ children, Unique c) : Unique (.node name props children)

/-- The same tree with its nodes and properties in another order. -/
inductive Reordered : DtNode → DtNode → Prop
  | node {name : List Byte} {props props' : List DtProp} {children between children' : List DtNode}
      (hprops : props.Perm props') (hchildren : List.Forall₂ Reordered children between)
      (hperm : between.Perm children') : Reordered (.node name props children)
        (.node name props' children')

variable {t t' : DtNode}

theorem Reordered.name_eq (h : Reordered t t') : t'.name = t.name := by
  cases h with
  | node _ _ _ => rfl

theorem Reordered.property_eq (hunique : t.Unique) (h : Reordered t t') (name : List Byte) :
    t'.property name = t.property name := by
  cases h with
  | @node nodeName props props' children between children' hprops hchildren hperm =>
    cases hunique with
    | node hnodup _ _ =>
      have hnodup' : (props'.map Prod.fst).Nodup := (hprops.map _).nodup_iff.mp hnodup
      change (props'.find? _).map _ = (props.find? _).map _
      congr 1
      apply ext
      intro prop
      rw [find?_key_eq_some hnodup, find?_key_eq_some hnodup', hprops.mem_iff]

theorem Reordered.child_rel (hunique : t.Unique) (h : Reordered t t') (name : List Byte) :
    Option.Rel (fun c c' => c.Unique ∧ Reordered c c') (t.child name) (t'.child name) := by
  cases h with
  | @node nodeName props props' children between children' hprops hchildren hperm =>
    cases hunique with
    | node _ hnodup hunique =>
      have hnames : between.map DtNode.name = children.map DtNode.name := by
        clear hperm hnodup hunique
        induction hchildren with
        | nil => rfl
        | cons hab _ ih => rw [map_cons, map_cons, hab.name_eq, ih]
      have hnodup' : (children'.map DtNode.name).Nodup := by
        rw [← (hperm.map _).nodup_iff, hnames]
        exact hnodup
      change Option.Rel _ (children.find? _) (children'.find? _)
      cases hfind : children.find? fun c => c.name = name with
      | some c =>
        obtain ⟨hc, hname⟩ := (find?_key_eq_some hnodup).mp hfind
        obtain ⟨c', hc', hcc'⟩ := forall₂_exists_of_mem hchildren hc
        rw [(find?_key_eq_some hnodup').mpr ⟨hperm.mem_iff.mp hc', hcc'.name_eq.trans hname⟩]
        exact .some ⟨hunique c hc, hcc'⟩
      | none =>
        cases hfind' : children'.find? fun c => c.name = name with
        | none => exact .none
        | some c' =>
          obtain ⟨hc', hname⟩ := (find?_key_eq_some hnodup').mp hfind'
          obtain ⟨c, hc, hcc'⟩ :=
            forall₂_exists_of_mem hchildren.flip (hperm.mem_iff.mpr hc')
          have hfound := (find?_key_eq_some hnodup).mpr ⟨hc, hcc'.name_eq.symm.trans hname⟩
          cases hfind.symm.trans hfound

variable (hunique : t.Unique) (h : Reordered t t') {vms : List ManifestVm}
include hunique h

theorem Reordered.isVm_iff {primary : Prop} {vm : ManifestVm} :
    t'.IsVm primary vm ↔ t.IsVm primary vm := by
  simp only [DtNode.isVm_iff, StringProperty, NumberProperty, h.property_eq hunique]

theorem Reordered.describes_iff : t'.Describes vms ↔ t.Describes vms := by
  have hnone : ∀ name, t'.child name = none ↔ t.child name = none := by
    intro name
    have hrel := h.child_rel hunique name
    generalize t.child name = child, t'.child name = child' at hrel
    cases hrel with
    | some _ => exact iff_of_false nofun nofun
    | none => exact Iff.rfl
  have hvm : ∀ name (primary : Prop) vm, (∃ c, t'.child name = some c ∧ c.IsVm primary vm) ↔
        ∃ c, t.child name = some c ∧ c.IsVm primary vm := by
    intro name primary vm
    have hrel := h.child_rel hunique name
    generalize t.child name = child, t'.child name = child' at hrel
    cases hrel with
    | some hcc' =>
      simp only [some.injEq, exists_eq_left']
      exact hcc'.2.isVm_iff hcc'.1
    | none => exact Iff.rfl
  constructor
  · rintro ⟨hcompatible, hreserved, hpos, hle, hlast, hvms⟩
    rw [h.property_eq hunique] at hcompatible
    exact ⟨hcompatible, (hnone _).mp hreserved, hpos, hle, (hnone _).mp hlast,
      fun i hi => (hvm _ _ _).mp (hvms i hi)⟩
  · rintro ⟨hcompatible, hreserved, hpos, hle, hlast, hvms⟩
    rw [← h.property_eq hunique] at hcompatible
    exact ⟨hcompatible, (hnone _).mpr hreserved, hpos, hle, (hnone _).mpr hlast,
      fun i hi => (hvm _ _ _).mpr (hvms i hi)⟩

theorem Reordered.accepts_iff : t'.Accepts vms ↔ t.Accepts vms := by
  have hrel := h.child_rel hunique (ascii "hypervisor")
  rw [Accepts, Accepts]
  generalize t.child (ascii "hypervisor") = child, t'.child (ascii "hypervisor") = child' at hrel
  cases hrel with
  | some hcc' =>
    simp only [some.injEq, exists_eq_left']
    exact hcc'.2.describes_iff hcc'.1
  | none => exact Iff.rfl

end DtNode

/-! ## Flattened trees -/

theorem IsFdt.findRoot {mem : Memory} {hdr : Nat} {offset : List Byte → Nat} {gap : Nat → Nat}
    {tree : DtNode} (h : IsFdt mem hdr offset gap tree) :
    ∃ B root, fdtNewRoot mem hdr = some B ∧ B.Ready ∧
      B.findChild (tree.name ++ [0]) 0 = .ok (some root) ∧ B.AtNode offset root tree := by
  obtain ⟨B, hroot, hB, htop⟩ := h.newRoot
  have hname : 0 ∉ tree.name := by
    cases tree with
    | node name props children => exact h.names (.beginNode name) mem_cons_self
  obtain ⟨found, hfind, hrel⟩ := htop.findAmong hB hname
  have htree : [tree].find? (fun c => c.name = tree.name) = some tree :=
    find?_cons_of_pos (decide_eq_true rfl)
  change Option.Rel _ found ([tree].find? _) at hrel
  rw [htree] at hrel
  cases hrel with
  | @some root _ hnode => exact ⟨B, root, hroot, hB, hfind, hnode⟩

/-- The manifest of a flattened tree is parsed iff the tree has one, it is then what the
tree says about the VMs, and the order of nodes and properties makes no difference. -/
theorem manifest_accepted_iff {mem : Memory} {hdr : Nat} {offset : List Byte → Nat}
    {gap : Nat → Nat} {tree : DtNode} (h : IsFdt mem hdr offset gap tree) :
    ∃ B root, fdtNewRoot mem hdr = some B ∧ B.findChild (tree.name ++ [0]) 0 = .ok (some root) ∧
      (∀ vms, B.manifestInit root = .ok vms ↔ tree.Accepts vms) ∧
      ∀ tree' : DtNode, tree'.Unique → tree'.Reordered tree →
        ∀ vms, B.manifestInit root = .ok vms ↔ tree'.Accepts vms := by
  obtain ⟨B, root, hroot, hB, hfind, hnode⟩ := h.findRoot
  refine ⟨B, root, hroot, hfind, fun vms => hnode.manifestInit_iff hB, ?_⟩
  intro tree' hunique hreordered vms
  rw [hnode.manifestInit_iff hB]
  exact hreordered.accepts_iff hunique

/-- A tree with a primary and a secondary VM. -/
def pairTree (vcpuCount : Byte) : DtNode :=
  .node [] [] [.node (ascii "hypervisor") [(ascii "compatible", asciz "hafnium,hafnium")]
    [.node (ascii "vm2")
      [(ascii "vcpu_count", [0, 0, 0, vcpuCount]), (ascii "mem_size", [0, 0, 16, 0]),
        (ascii "kernel_filename", asciz "kernel"), (ascii "debug_name", asciz "secondary")] [],
    .node (ascii "vm1") [(ascii "debug_name", asciz "primary")] []]]

def manifestStrings : List Byte :=
  (["compatible", "vcpu_count", "mem_size", "kernel_filename", "debug_name"].map asciz).flatten

def manifestOffset (name : List Byte) : Nat :=
  (range 64).find? (fun i => name ++ [0] <+: manifestStrings.drop i) |>.getD 0

def manifestBlob : List Byte :=
  let block := flatten manifestOffset (fun _ => 0) (pairTree 4)
  let header := [fdtMagic, 40 + block.length + manifestStrings.length, 40, 40 + block.length, 0, 17,
    16, 0, manifestStrings.length, block.length]
  (header.map toBeBytes).flatten ++ block ++ manifestStrings

def manifestFdt : Memory := fun a => manifestBlob.getD a 0

theorem isFdt_manifestFdt : IsFdt manifestFdt 0 manifestOffset (fun _ => 0) (pairTree 4) where
  magic := by decide +kernel
  version := by decide +kernel
  lastCompVersion := by decide +kernel
  aligned := by decide +kernel
  structBlock := by decide +kernel
  names := by decide +kernel

def manifestBuffer (s : String) : List Byte :=
  ascii s ++ replicate (manifestMaxStringLength - (ascii s).length) 0

def primaryVm : ManifestVm := ⟨manifestBuffer "primary", manifestBuffer "", 0, 0⟩

def kernelVm (vcpuCount : Nat) : ManifestVm :=
  ⟨manifestBuffer "secondary", manifestBuffer "kernel", 0x1000, vcpuCount⟩

def pairManifest (vcpuCount : Nat) : List ManifestVm := [primaryVm, kernelVm vcpuCount]

theorem accepts_pairTree (vcpuCount : Byte) :
    (pairTree vcpuCount).Accepts (pairManifest vcpuCount.toNat) := by
  have hlength : (pairManifest vcpuCount.toNat).length = 2 := rfl
  refine ⟨_, rfl, ⟨⟨ascii "hafnium,hafnium", rfl, by decide +kernel⟩, by rfl,
    by rw [hlength]; decide, by rw [hlength]; decide, by rw [hlength]; rfl, ?_⟩⟩
  intro i hi
  match i, hi with
  | 0, _ =>
    refine ⟨_, rfl, ⟨⟨ascii "primary", rfl, by decide, by decide, rfl⟩, ?_, ?_⟩⟩
    · intro _
      exact ⟨rfl, rfl, rfl⟩
    · intro h
      exact absurd rfl h
  | 1, _ =>
    refine ⟨_, rfl, ⟨⟨ascii "secondary", rfl, by decide, by decide, rfl⟩, nofun, ?_⟩⟩
    intro _
    refine ⟨⟨ascii "kernel", rfl, by decide, by decide, rfl⟩, ⟨_, rfl, Or.inl rfl, rfl⟩,
      ⟨_, rfl, Or.inl rfl, ?_⟩, ?_⟩
    · simp [pairManifest, kernelVm, fromBeBytes]
    · exact vcpuCount.isLt.trans (by decide)

theorem manifest_accepted_iff_manifestFdt :
    ∃ B root, fdtNewRoot manifestFdt 0 = some B ∧ B.findChild [0] 0 = .ok (some root) ∧
      B.manifestInit root = .ok (pairManifest 4) := by
  obtain ⟨B, root, hB, hroot, hvms, -⟩ := manifest_accepted_iff isFdt_manifestFdt
  exact ⟨B, root, hB, hroot, (hvms _).mpr (accepts_pairTree 4)⟩

end Hafnium
