import Hafnium.Boot.DeviceTree

/-!
# Navigating a flattened device tree

A node of `fdt.rs` is a position in the struct block.  `Stream` says which items there
are from a position on; it is what the tokenizer functions keep.  A position then
stands for a cursor into the tree: the properties and the children of a node, and the
siblings after it.  Every operation on positions does to the cursor what its name says.
-/

namespace Hafnium

open Support List FdtToken

/-! ## Streams of items -/

/-- The names of an item have no NUL, and the name of a property is in the strings
block. -/
def FdtItem.Ok (strs : List Byte) (offset : List Byte → Nat) : FdtItem → Prop
  | beginNode name => 0 ∉ name
  | prop name _ => 0 ∉ name ∧ HoldsAt strs (offset name) (name ++ [0])
  | endNode => True
  | fdtEnd => True

namespace FdtBlocks

/-- What all functions below rely on: the struct block is aligned, and the sizes of the
blocks are 32-bit numbers. -/
structure Ready (B : FdtBlocks) : Prop where
  addr : B.addr % 4 = 0
  data : B.data.length < 2 ^ 32
  strs : B.strs.length < 2 ^ 32

/-- From a position on the block consists of some items, each after any number of NOPs. -/
inductive Stream (B : FdtBlocks) (offset : List Byte → Nat) : Nat → List FdtItem → Prop
  | nil (pos : Nat) : Stream B offset pos []
  | cons {pos k : Nat} {it : FdtItem} {items : List FdtItem} (hpos : pos % 4 = 0)
      (hok : it.Ok B.strs offset) (h : HoldsAt B.data pos (nops k ++ it.bytes offset))
      (hrest : Stream B offset (pos + (nops k ++ it.bytes offset).length) items) :
      Stream B offset pos (it :: items)

variable {B : FdtBlocks} {offset : List Byte → Nat} {pos : Nat} {it : FdtItem}
  {items : List FdtItem}

/-- There are no more items than rounds that a loop may take. -/
theorem Stream.length_lt (h : Stream B offset pos items) : items.length < B.fuel := by
  have hlength : items.length ≤ B.data.length - pos := by
    induction h with
    | nil => exact Nat.zero_le _
    | @cons pos k it items hpos hok hholds hrest ih =>
      have hle := hholds.length_le
      rw [length_append, it.length_bytes] at hle ih
      rw [length_cons]
      omega
  rw [fuel]
  omega

/-- An encoding of items, at an aligned position, is a stream of them. -/
theorem stream_of_encode (gap : Nat → Nat) (hpos : pos % 4 = 0)
    (hok : ∀ it ∈ items, it.Ok B.strs offset)
    (h : HoldsAt B.data pos (encodeItems offset gap items)) : Stream B offset pos items := by
  induction items generalizing pos gap with
  | nil => exact .nil pos
  | cons it items ih =>
    rw [encodeItems, ← append_assoc, holdsAt_append] at h
    rw [forall_mem_cons] at hok
    refine .cons hpos hok.1 h.1 (ih _ ?_ hok.2 h.2)
    have hpayload := it.length_payload_mod offset
    rw [length_append, length_nops, it.length_bytes]
    omega

/-! ## Tokens -/

/-- What is known after the token of an item was read: its payload and the other items
follow, and going back one token gives the item again. -/
structure AfterToken (B : FdtBlocks) (offset : List Byte → Nat) (it : FdtItem)
    (items : List FdtItem) (pos : Nat) : Prop where
  aligned : pos % 4 = 0
  ok : it.Ok B.strs offset
  payload : HoldsAt B.data pos (it.payload offset)
  rest : Stream B offset (pos + (it.payload offset).length) items
  back : Stream B offset (pos - fdtTokenAlignment) (it :: items)

variable (hB : B.Ready)
include hB

theorem Stream.token (h : Stream B offset pos (it :: items)) :
    ∃ pos', B.token pos = .ok (some it.token, pos') ∧ AfterToken B offset it items pos' := by
  cases h with
  | @cons _ k _ _ hpos hok hholds hrest =>
    have hsplit := hholds
    rw [FdtItem.bytes, ← append_assoc, holdsAt_append] at hsplit
    have htoken := token_eq hB.addr hpos hsplit.1
    refine ⟨_, htoken, ?_⟩
    have hpayload := hsplit.2
    rw [length_append, length_nops, length_toBeBytes, ← Nat.add_assoc] at hpayload
    have hback : HoldsAt B.data (pos + 4 * k) (nops 0 ++ it.bytes offset) := by
      have := (holdsAt_append.mp hholds).2
      rwa [length_nops] at this
    refine ⟨by omega, hok, hpayload, ?_, ?_⟩
    · rw [length_append, length_nops, it.length_bytes] at hrest
      rwa [show pos + 4 * k + 4 + (it.payload offset).length =
        pos + (4 * k + (4 + (it.payload offset).length)) by omega]
    · rw [fdtTokenAlignment, Nat.add_sub_cancel]
      refine .cons (by omega) hok hback ?_
      rw [length_append, length_nops, it.length_bytes] at hrest ⊢
      rwa [show pos + 4 * k + (4 * 0 + (4 + (it.payload offset).length)) =
        pos + (4 * k + (4 + (it.payload offset).length)) by omega]

theorem Stream.tokenExpect_hit (h : Stream B offset pos (it :: items)) :
    ∃ pos', B.tokenExpect it.token pos = .ok (true, pos') ∧ AfterToken B offset it items pos' := by
  obtain ⟨pos', htoken, hafter⟩ := h.token hB
  refine ⟨pos', ?_, hafter⟩
  rw [tokenExpect, htoken]
  simp only [bind, Except.bind, if_true]
  rfl

theorem Stream.tokenExpect_miss {expect : FdtToken} (h : Stream B offset pos (it :: items))
    (hne : it.token ≠ expect) :
    ∃ pos', B.tokenExpect expect pos = .ok (false, pos') ∧ Stream B offset pos' (it :: items) := by
  obtain ⟨pos', htoken, hafter⟩ := h.token hB
  refine ⟨_, ?_, hafter.back⟩
  rw [tokenExpect, htoken]
  simp only [bind, Except.bind, if_neg hne]
  rfl

/-! ## Properties and names -/

theorem Stream.nextProperty_hit {name value : List Byte}
    (h : Stream B offset pos (.prop name value :: items)) :
    ∃ pos', B.nextProperty pos = .ok (some (B.strs.drop (offset name), value), pos') ∧
      Stream B offset pos' items := by
  obtain ⟨p, htoken, hafter⟩ := h.tokenExpect_hit hB
  have hpayload := hafter.payload
  have haligned := hafter.aligned
  have hdata := hB.data
  rw [FdtItem.payload, holdsAt_append, holdsAt_append, length_toBeBytes,
    length_toBeBytes] at hpayload
  obtain ⟨hsize, hoffset, hvalue⟩ := hpayload
  have hvalueLt : value.length < 2 ^ 32 := by
    have hle := (holdsAt_append.mp hvalue).1.length_le
    omega
  have hstrs : HoldsAt B.strs (offset name) (name ++ [0]) := hafter.ok.2
  have hoffsetLt : offset name < B.strs.length := by
    have hle := hstrs.length_le
    rw [length_append, length_singleton] at hle
    omega
  have h₁ := u32_eq hB.addr hvalueLt haligned hsize
  have h₂ := u32_eq hB.addr (hoffsetLt.trans hB.strs) (by omega) hoffset
  have h₃ := bytes_eq hB.addr (by omega) hvalue
  refine ⟨p + 4 + 4 + (padded value).length, ?_, ?_⟩
  · rw [nextProperty, nextPropertyAt, show prop = (FdtItem.prop name value).token from rfl,
      htoken]
    simp only [bind, Except.bind, Bool.not_true, Bool.false_eq_true, if_false, h₁, h₂, h₃,
      if_neg (Nat.not_lt.mpr hoffsetLt.le)]
    exact congrArg (fun v => Except.ok (some (B.strs.drop (offset name), v), _))
      (holdsAt_append.mp hvalue).1.take
  · have hrest := hafter.rest
    rw [FdtItem.payload, length_append, length_append, length_toBeBytes, length_toBeBytes] at hrest
    rwa [show p + 4 + 4 + (padded value).length = p + (4 + (4 + (padded value).length)) by omega]

theorem Stream.nextProperty_miss (h : Stream B offset pos (it :: items)) (hne : it.token ≠ .prop) :
    ∃ pos', B.nextProperty pos = .ok (none, pos') ∧ Stream B offset pos' (it :: items) := by
  obtain ⟨p, htoken, hback⟩ := h.tokenExpect_miss hB hne
  refine ⟨p, ?_, hback⟩
  rw [nextProperty, nextPropertyAt, htoken]
  rfl

omit hB in
theorem findIdx?_append_zero {name rest : List Byte} (h : 0 ∉ name) :
    (name ++ 0 :: rest).findIdx? (· = 0) = some name.length := by
  rw [findIdx?_append, findIdx?_cons]
  have hnone : name.findIdx? (· = 0) = none := by
    rw [findIdx?_eq_none_iff]
    intro x hx
    rw [decide_eq_false_iff_not]
    rintro rfl
    exact h hx
  rw [hnone]
  simp

theorem Stream.nextSubnode_hit {name : List Byte}
    (h : Stream B offset pos (.beginNode name :: items)) :
    ∃ pos', B.nextSubnode pos = .ok (some (name ++ [0]), pos') ∧ Stream B offset pos' items := by
  obtain ⟨p, htoken, hafter⟩ := h.tokenExpect_hit hB
  have hpayload : HoldsAt B.data p (padded (name ++ [0])) := hafter.payload
  have hname : HoldsAt B.data p (name ++ [0]) := (holdsAt_append.mp hpayload).1
  refine ⟨p + (padded (name ++ [0])).length, ?_, hafter.rest⟩
  have hfind : (B.data.drop p).findIdx? (· = 0) = some name.length := by
    rw [hname.drop_eq, append_assoc]
    exact findIdx?_append_zero hafter.ok
  have hlength : (name ++ [0]).length = name.length + 1 := by simp
  have halign := align_padded hB.addr hafter.aligned hpayload
  have htake := hname.take
  rw [hlength] at halign htake
  have hstr : B.str p = .ok (some (name ++ [0]), p + (padded (name ++ [0])).length) := by
    rw [str, hfind]
    simp only [htake, halign, bind, Except.bind]
    rfl
  rw [nextSubnode, show beginNode = (FdtItem.beginNode name).token from rfl, htoken]
  simp only [bind, Except.bind, Bool.not_true, Bool.false_eq_true, if_false, hstr]
  rfl

theorem Stream.nextSubnode_miss (h : Stream B offset pos (it :: items))
    (hne : it.token ≠ .beginNode) :
    ∃ pos', B.nextSubnode pos = .ok (none, pos') ∧ Stream B offset pos' (it :: items) := by
  obtain ⟨p, htoken, hback⟩ := h.tokenExpect_miss hB hne
  refine ⟨p, ?_, hback⟩
  rw [nextSubnode, htoken]
  rfl

/-! ## Skipping -/

theorem Stream.skipProperties {props : List DtProp}
    (h : Stream B offset pos (propItems props ++ it :: items)) (hne : it.token ≠ .prop) :
    ∃ pos', B.skipProperties pos = .ok pos' ∧ Stream B offset pos' (it :: items) := by
  have hloops : ∃ pos', Loops B.skipPropertiesRound props.length pos pos' ∧
      Stream B offset pos' (it :: items) := by
    induction props generalizing pos with
    | nil =>
      obtain ⟨p, hnext, hrest⟩ := Stream.nextProperty_miss hB h hne
      refine ⟨p, .done ?_, hrest⟩
      rw [skipPropertiesRound, hnext]
      rfl
    | cons prop props ih =>
      obtain ⟨p, hnext, hrest⟩ := Stream.nextProperty_hit hB h
      obtain ⟨pos', hloops, hstream⟩ := ih hrest
      refine ⟨pos', .next ?_ hloops, hstream⟩
      rw [skipPropertiesRound, hnext]
      rfl
  obtain ⟨pos', hloops, hstream⟩ := hloops
  refine ⟨pos', loop_eq _ hloops ?_, hstream⟩
  have hlt := h.length_lt
  rw [length_append, propItems, length_map] at hlt
  omega

omit hB in
/-- Children start with their name. -/
theorem childItems_append_cons (children : List DtNode) (it : FdtItem) (items : List FdtItem) :
    ∃ it' items', childItems children ++ it :: items = it' :: items' ∧
      (it'.token = .beginNode ∨ it' = it) := by
  cases children with
  | nil => exact ⟨it, items, rfl, Or.inr rfl⟩
  | cons c cs =>
    obtain ⟨name, props, children⟩ := c
    exact ⟨.beginNode name, _, by rw [childItems, DtNode.items]; rfl, Or.inl rfl⟩

theorem Stream.skipProperties_of_children {props : List DtProp} {children : List DtNode}
    (h : Stream B offset pos (propItems props ++ (childItems children ++ it :: items)))
    (hne : it.token ≠ .prop) :
    ∃ pos', B.skipProperties pos = .ok pos' ∧
      Stream B offset pos' (childItems children ++ it :: items) := by
  obtain ⟨it', items', heq, hit⟩ := childItems_append_cons children it items
  rw [heq] at h ⊢
  apply h.skipProperties hB
  obtain hit | rfl := hit
  · rw [hit]
    exact noConfusion
  · exact hne

theorem Stream.skipNodeRound_end (pending : Nat) (h : Stream B offset pos (.endNode :: items)) :
    ∃ pos', B.skipNodeRound (pending + 1, pos) = .ok (.inl (pending, pos')) ∧
      Stream B offset pos' items := by
  obtain ⟨p, hnext, hback⟩ := h.nextSubnode_miss hB noConfusion
  obtain ⟨p', htoken, hafter⟩ := hback.token hB
  refine ⟨p', ?_, hafter.rest⟩
  rw [skipNodeRound, hnext]
  simp only [bind, Except.bind, htoken]
  rfl

omit hB

mutual

/-- The rounds of `skip_node` over a node. -/
theorem Stream.rounds_node (hB : B.Ready) (t : DtNode) (pending : Nat) {pos : Nat}
    {items : List FdtItem} (h : Stream B offset pos (t.items ++ items)) :
    ∃ n pos', n ≤ t.items.length ∧ Rounds B.skipNodeRound n (pending + 1, pos) (pending + 1, pos') ∧
        Stream B offset pos' items := by
  obtain ⟨name, props, children⟩ := t
  rw [DtNode.items, cons_append, append_assoc, append_assoc] at h
  obtain ⟨p₁, hnext, h₁⟩ := h.nextSubnode_hit hB
  obtain ⟨p₂, hskip, h₂⟩ := h₁.skipProperties_of_children hB noConfusion
  obtain ⟨n, p₃, hn, hrounds, h₃⟩ := Stream.rounds_children hB children (pending + 1) h₂
  obtain ⟨p₄, hend, h₄⟩ := h₃.skipNodeRound_end hB (pending + 1)
  refine ⟨(n + 1) + 1, p₄, ?_, ?_, h₄⟩
  · simp only [DtNode.items, length_cons, length_append, length_nil]
    omega
  · refine .next ?_ (hrounds.trans (.next hend (.refl _)))
    rw [skipNodeRound, hnext]
    simp only [bind, Except.bind, hskip]
    rfl

theorem Stream.rounds_children (hB : B.Ready) (children : List DtNode) (pending : Nat) {pos : Nat}
    {items : List FdtItem} (h : Stream B offset pos (childItems children ++ items)) :
    ∃ n pos', n ≤ (childItems children).length ∧
      Rounds B.skipNodeRound n (pending + 1, pos) (pending + 1, pos') ∧
        Stream B offset pos' items := by
  match children with
  | [] => exact ⟨0, pos, Nat.zero_le _, .refl _, h⟩
  | c :: cs =>
    rw [childItems, append_assoc] at h
    obtain ⟨n, p₁, hn, hrounds, h₁⟩ := Stream.rounds_node hB c pending h
    obtain ⟨m, p₂, hm, hrounds', h₂⟩ := Stream.rounds_children hB cs pending h₁
    refine ⟨n + m, p₂, ?_, hrounds.trans hrounds', h₂⟩
    rw [childItems, length_append]
    omega

end

include hB

theorem Stream.skipNode {props : List DtProp} {children : List DtNode}
    (h : Stream B offset pos (propItems props ++ (childItems children ++ .endNode :: items))) :
    ∃ pos', B.skipNode pos = .ok (true, pos') ∧ Stream B offset pos' items := by
  obtain ⟨p₁, hskip, h₁⟩ := h.skipProperties_of_children hB noConfusion
  obtain ⟨n, p₂, hn, hrounds, h₂⟩ := Stream.rounds_children hB children 0 h₁
  obtain ⟨p₃, hend, h₃⟩ := h₂.skipNodeRound_end hB 0
  refine ⟨p₃, ?_, h₃⟩
  have hlt := h₁.length_lt
  rw [length_append, length_cons] at hlt
  have hloop : loop .loop B.skipNodeRound B.fuel (1, p₁) = .ok (true, p₃) :=
    loop_eq _ (hrounds.loops (.next hend (.done rfl))) (by omega)
  rw [FdtBlocks.skipNode, hskip]
  exact hloop

theorem Stream.skipNode_top {props : List DtProp} {children : List DtNode}
    (h : Stream B offset pos (propItems props ++ (childItems children ++ [.fdtEnd]))) :
    ∃ pos', B.skipNode pos = .ok (false, pos') := by
  obtain ⟨p₁, hskip, h₁⟩ := h.skipProperties_of_children hB noConfusion
  obtain ⟨n, p₂, hn, hrounds, h₂⟩ := Stream.rounds_children hB children 0 h₁
  obtain ⟨p₃, hnext, h₃⟩ := h₂.nextSubnode_miss hB noConfusion
  obtain ⟨p₄, htoken, -⟩ := h₃.token hB
  have hround : B.skipNodeRound (0 + 1, p₂) = .ok (.inr (false, B.collapse)) := by
    rw [skipNodeRound, hnext]
    simp only [bind, Except.bind, htoken]
    rfl
  have hlt := h₁.length_lt
  rw [length_append, length_cons] at hlt
  refine ⟨B.collapse, ?_⟩
  have hloop : loop .loop B.skipNodeRound B.fuel (1, p₁) = .ok (false, B.collapse) :=
    loop_eq _ (hrounds.loops (.done hround)) (by omega)
  rw [FdtBlocks.skipNode, hskip]
  exact hloop

end FdtBlocks

/-! ## Cursors -/

/-- A node of a tree and where it is among its siblings. -/
structure DtCursor where
  props : List DtProp
  children : List DtNode
  /-- The siblings after the node. -/
  siblings : List DtNode

namespace DtCursor

/-- Where `new_root` starts: before the root of the tree. -/
def top (tree : DtNode) : DtCursor := ⟨[], [tree], []⟩

/-- The first of some siblings, with its name as it is reported. -/
def enter : List DtNode → Option (List Byte × DtCursor)
  | [] => none
  | .node name props children :: siblings => some (name ++ [0], ⟨props, children, siblings⟩)

def firstChild (c : DtCursor) : Option (List Byte × DtCursor) := enter c.children

def nextSibling (c : DtCursor) : Option (List Byte × DtCursor) := enter c.siblings

/-- The first of some siblings that has a name. -/
def findAmong (name : List Byte) : List DtNode → Option DtCursor
  | [] => none
  | .node childName props children :: siblings =>
    if childName = name then some ⟨props, children, siblings⟩ else findAmong name siblings

def findChild (name : List Byte) (c : DtCursor) : Option DtCursor :=
  findAmong (cstr name) c.children

/-- The value of the first property of a name. -/
def readProperty (name : List Byte) (c : DtCursor) : Option (List Byte) :=
  (c.props.find? fun prop => prop.1 = cstr name).map Prod.snd

end DtCursor

theorem cstr_append_zero {name : List Byte} (h : 0 ∉ name) (rest : List Byte) :
    cstr (name ++ 0 :: rest) = name := by
  have hname : ∀ x ∈ name, decide (x ≠ 0) = true := by
    intro x hx
    rw [decide_eq_true_eq]
    rintro rfl
    exact h hx
  rw [cstr, takeWhile_append_of_pos hname, takeWhile_cons]
  simp

theorem zero_notMem_cstr (bytes : List Byte) : 0 ∉ cstr bytes := by
  intro h
  have hall := all_eq_true.mp all_takeWhile 0 h
  exact of_decide_eq_true hall rfl

theorem strcmp_append_zero {a b : List Byte} (ha : 0 ∉ a) (hb : 0 ∉ b) (rest : List Byte) :
    ∃ v, strcmp (a ++ 0 :: rest) (b ++ [0]) = some v ∧ (v = 0 ↔ a = b) := by
  have hne : ∀ {x : Byte} {l : List Byte}, 0 ∉ x :: l → x ≠ 0 ∧ x.toNat ≠ 0 := by
    intro x l h
    have hx : x ≠ 0 := fun h0 => h (h0 ▸ mem_cons_self)
    exact ⟨hx, fun h0 => hx (BitVec.eq_of_toNat_eq h0)⟩
  have hzero : (0 : Byte).toNat = 0 := rfl
  induction a generalizing b with
  | nil =>
    cases b with
    | nil => exact ⟨0, rfl, by simp⟩
    | cons y b =>
      have hy := (hne hb).2
      refine ⟨_, rfl, iff_of_false ?_ nofun⟩
      omega
  | cons x a ih =>
    obtain ⟨hx, hx'⟩ := hne ha
    cases b with
    | nil =>
      refine ⟨_, if_neg fun h => h.2 rfl, iff_of_false ?_ nofun⟩
      omega
    | cons y b =>
      obtain ⟨hy, hy'⟩ := hne hb
      simp only [cons_append, strcmp, if_pos (And.intro hx hy)]
      by_cases hxy : x = y
      · subst hxy
        obtain ⟨v, hv, hiff⟩ := ih (not_mem_of_not_mem_cons ha)
          (not_mem_of_not_mem_cons hb)
        refine ⟨v, ?_, ?_⟩
        · rw [if_neg (not_not.mpr rfl), hv]
        · rw [hiff, cons.injEq, and_iff_right rfl]
      · have hxy' : x.toNat ≠ y.toNat := fun h => hxy (BitVec.eq_of_toNat_eq h)
        refine ⟨_, if_pos hxy, iff_of_false ?_ ?_⟩
        · omega
        · intro h
          exact hxy (cons.inj h).1

theorem strcmp_eq_zero {l name : List Byte} (hname : 0 ∉ name)
    (h : strcmp l (name ++ [0]) = some 0) : ∃ rest, l = name ++ 0 :: rest := by
  have hzero : (0 : Byte).toNat = 0 := rfl
  induction name generalizing l with
  | nil =>
    cases l with
    | nil => contradiction
    | cons x l =>
      rw [nil_append, strcmp, if_neg fun hxy => hxy.2 rfl] at h
      have hsub : (x.toNat : Int) - (0 : Byte).toNat = 0 := Option.some.inj h
      have hx : x = 0 := BitVec.eq_of_toNat_eq (by omega)
      exact ⟨l, by rw [hx, nil_append]⟩
  | cons y name ih =>
    cases l with
    | nil => contradiction
    | cons x l =>
      have hy : y ≠ 0 := fun h0 => hname (h0 ▸ mem_cons_self)
      rw [cons_append, strcmp] at h
      by_cases hxy : x = y
      · subst hxy
        rw [if_pos ⟨hy, hy⟩, if_neg (not_not.mpr rfl)] at h
        obtain ⟨rest, rfl⟩ := ih (not_mem_of_not_mem_cons hname) h
        exact ⟨rest, rfl⟩
      · rw [if_pos hxy, ite_self] at h
        have hsub : (x.toNat : Int) - y.toNat = 0 := Option.some.inj h
        exact absurd (BitVec.eq_of_toNat_eq (by omega)) hxy

theorem length_le_childItems (cs : List DtNode) : cs.length ≤ (childItems cs).length := by
  induction cs with
  | nil => exact le_rfl
  | cons c cs ih =>
    obtain ⟨name, props, children⟩ := c
    simp only [childItems, DtNode.items, length_append, length_cons]
    omega

namespace FdtBlocks

/-- What follows the children of a node: its end and its siblings, or the end of the
block. -/
inductive Closes : List DtNode → List FdtItem → Prop
  | node {siblings : List DtNode} {it : FdtItem} {items : List FdtItem}
      (h : it.token ≠ .beginNode) :
      Closes siblings (.endNode :: (childItems siblings ++ it :: items))
  | top : Closes [] [.fdtEnd]

/-- A position stands for a cursor. -/
def Represents (B : FdtBlocks) (offset : List Byte → Nat) (pos : Nat) (c : DtCursor) : Prop :=
  ∃ it items, Closes c.siblings (it :: items) ∧
    Stream B offset pos (propItems c.props ++ (childItems c.children ++ it :: items))

variable {B : FdtBlocks} {offset : List Byte → Nat} {pos : Nat} {it : FdtItem}
  {items : List FdtItem} {c : DtCursor}

theorem Closes.token_ne {siblings : List DtNode} (h : Closes siblings (it :: items)) :
    it.token ≠ .prop ∧ it.token ≠ .beginNode := by
  cases h with
  | node _ => exact ⟨noConfusion, noConfusion⟩
  | top => exact ⟨noConfusion, noConfusion⟩

theorem Stream.ok (h : Stream B offset pos (it :: items)) : it.Ok B.strs offset := by
  cases h with
  | cons _ hok _ _ => exact hok

/-- What is returned about a node: its name, and a position that stands for it. -/
def Found (B : FdtBlocks) (offset : List Byte → Nat) :
    Option (List Byte × Nat) → Option (List Byte × DtCursor) → Prop :=
  Option.Rel fun found expected => found.1 = expected.1 ∧ Represents B offset found.2 expected.2

variable (hB : B.Ready)
include hB

theorem Stream.nextSubnode {siblings : List DtNode}
    (h : Stream B offset pos (childItems siblings ++ it :: items)) (hit : it.token ≠ .beginNode) :
    ∃ name pos', B.nextSubnode pos = .ok (name, pos') ∧
      Found B offset (name.map fun name => (name, pos')) (DtCursor.enter siblings) := by
  match siblings with
  | [] =>
    obtain ⟨p, hnext, -⟩ := h.nextSubnode_miss hB hit
    exact ⟨none, p, hnext, .none⟩
  | .node name props children :: siblings =>
    simp only [childItems, DtNode.items, cons_append, append_assoc] at h
    obtain ⟨p, hnext, hrest⟩ := h.nextSubnode_hit hB
    exact ⟨_, p, hnext, .some ⟨rfl, .endNode, _, .node hit, hrest⟩⟩

theorem Represents.firstChild (h : Represents B offset pos c) :
    ∃ found, B.firstChild pos = .ok found ∧ Found B offset found c.firstChild := by
  obtain ⟨it, items, hcloses, hstream⟩ := h
  obtain ⟨p, hskip, hstream⟩ := hstream.skipProperties_of_children hB hcloses.token_ne.1
  obtain ⟨name, p', hnext, hfound⟩ := hstream.nextSubnode hB hcloses.token_ne.2
  refine ⟨_, ?_, hfound⟩
  rw [FdtBlocks.firstChild, hskip]
  simp only [bind, Except.bind, hnext]
  rfl

theorem Represents.nextSibling (h : Represents B offset pos c) :
    ∃ found, B.nextSibling pos = .ok found ∧ Found B offset found c.nextSibling := by
  obtain ⟨it, items, hcloses, hstream⟩ := h
  obtain ⟨props, children, siblings⟩ := c
  cases hcloses with
  | node hit =>
    obtain ⟨p, hskip, hstream⟩ := hstream.skipNode hB
    obtain ⟨name, p', hnext, hfound⟩ := hstream.nextSubnode hB hit
    refine ⟨_, ?_, hfound⟩
    rw [FdtBlocks.nextSibling, hskip]
    simp only [bind, Except.bind, Bool.not_true, Bool.false_eq_true, if_false, hnext]
    rfl
  | top =>
    obtain ⟨p, hskip⟩ := hstream.skipNode_top hB
    refine ⟨none, ?_, .none⟩
    rw [FdtBlocks.nextSibling, hskip]
    rfl

theorem Represents.readProperty (h : Represents B offset pos c) (name : List Byte) :
    B.readProperty name pos = .ok (c.readProperty name) := by
  obtain ⟨it, items, hcloses, hstream⟩ := h
  obtain ⟨it', items', heq, hit⟩ := childItems_append_cons c.children it items
  have hne : it'.token ≠ .prop := by
    obtain hit | rfl := hit
    · rw [hit]
      exact noConfusion
    · exact hcloses.token_ne.1
  rw [heq] at hstream
  have hloops : ∀ (props : List DtProp) (pos : Nat),
      Stream B offset pos (propItems props ++ it' :: items') →
        ∃ n ≤ props.length, Loops (B.readPropertyRound name) n pos
          ((props.find? fun prop => prop.1 = cstr name).map Prod.snd) := by
    intro props
    induction props with
    | nil =>
      intro pos h
      obtain ⟨p, hnext, -⟩ := Stream.nextProperty_miss hB h hne
      refine ⟨0, le_rfl, .done ?_⟩
      rw [readPropertyRound, hnext]
      rfl
    | cons prop props ih =>
      intro pos h
      obtain ⟨propName, value⟩ := prop
      obtain ⟨p, hnext, hrest⟩ := Stream.nextProperty_hit hB h
      have hok : 0 ∉ propName ∧ HoldsAt B.strs (offset propName) (propName ++ [0]) := h.ok
      obtain ⟨v, hstrcmp, hv⟩ := strcmp_append_zero hok.1 (zero_notMem_cstr name)
        (B.strs.drop (offset propName + (propName ++ [0]).length))
      rw [← singleton_append, ← append_assoc, ← hok.2.drop_eq] at hstrcmp
      by_cases hname : propName = cstr name
      · refine ⟨0, Nat.zero_le _, .done ?_⟩
        rw [readPropertyRound, hnext, find?_cons_of_pos (by simpa using hname)]
        simp only [bind, Except.bind, hstrcmp, if_pos (hv.mpr hname)]
        rfl
      · obtain ⟨n, hn, hloops⟩ := ih p hrest
        refine ⟨n + 1, Nat.succ_le_succ hn, ?_⟩
        rw [find?_cons_of_neg (by simpa using hname)]
        refine .next ?_ hloops
        rw [readPropertyRound, hnext]
        simp only [bind, Except.bind, hstrcmp, if_neg (mt hv.mp hname)]
        rfl
  obtain ⟨n, hn, hloops⟩ := hloops c.props pos hstream
  have hlt := hstream.length_lt
  rw [length_append, propItems, length_map] at hlt
  exact loop_eq _ hloops (by omega)

theorem Represents.findChild (h : Represents B offset pos c) (name : List Byte) :
    ∃ found, B.findChild name pos = .ok found ∧
      Option.Rel (Represents B offset) found (c.findChild name) := by
  obtain ⟨it, items, hcloses, hstream⟩ := h
  obtain ⟨p, hskip, hstream⟩ := hstream.skipProperties_of_children hB hcloses.token_ne.1
  have hloops : ∀ (children : List DtNode) (pos : Nat),
      Stream B offset pos (childItems children ++ it :: items) →
        ∃ n ≤ children.length, ∃ found, Loops (B.findChildRound name) n pos found ∧
          Option.Rel (Represents B offset) found (DtCursor.findAmong (cstr name) children) := by
    intro children
    induction children with
    | nil =>
      intro pos h
      obtain ⟨p, hnext, -⟩ := Stream.nextSubnode_miss hB h hcloses.token_ne.2
      refine ⟨0, le_rfl, none, .done ?_, .none⟩
      rw [findChildRound, hnext]
      rfl
    | cons child children ih =>
      intro pos h
      obtain ⟨childName, props, grandchildren⟩ := child
      simp only [childItems, DtNode.items, cons_append, append_assoc] at h
      obtain ⟨p, hnext, hrest⟩ := h.nextSubnode_hit hB
      have hcstr : cstr (childName ++ [0]) = childName := cstr_append_zero h.ok []
      by_cases hname : childName = cstr name
      · refine ⟨0, Nat.zero_le _, some p, .done ?_, ?_⟩
        · rw [findChildRound, hnext]
          simp only [bind, Except.bind, hcstr, if_pos hname]
          rfl
        · rw [DtCursor.findAmong, if_pos hname]
          exact .some ⟨.endNode, _, .node hcloses.token_ne.2, hrest⟩
      · obtain ⟨p', hskip, hrest'⟩ := hrest.skipNode hB
        obtain ⟨n, hn, found, hloops, hfound⟩ := ih p' hrest'
        refine ⟨n + 1, Nat.succ_le_succ hn, found, .next ?_ hloops, ?_⟩
        · rw [findChildRound, hnext]
          simp only [bind, Except.bind, hcstr, if_neg hname, hskip]
          rfl
        · rwa [DtCursor.findAmong, if_neg hname]
  obtain ⟨n, hn, found, hloops, hfound⟩ := hloops c.children p hstream
  refine ⟨found, ?_, hfound⟩
  have hlt := hstream.length_lt
  have hle := length_le_childItems c.children
  rw [length_append] at hlt
  rw [FdtBlocks.findChild, hskip]
  exact loop_eq _ hloops (by omega)

end FdtBlocks

/-! ## Sequences of operations -/

/-- The operations that move a node. -/
inductive FdtOp
  | findChild (name : List Byte)
  | firstChild
  | nextSibling
  deriving DecidableEq, Repr

/-- What an operation returns, if it succeeds (`find_child` returns no name), and the
node after it. -/
def FdtBlocks.visit (B : FdtBlocks) (pos : Nat) : FdtOp → Except FdtPanic (Option (List Byte) × Nat)
  | .findChild name => do
      match ← B.findChild name pos with
      | some pos => return (some [], pos)
      | none => return (none, pos)
  | .firstChild => do
      match ← B.firstChild pos with
      | some (name, pos) => return (some name, pos)
      | none => return (none, pos)
  | .nextSibling => do
      match ← B.nextSibling pos with
      | some (name, pos) => return (some name, pos)
      | none => return (none, pos)

def FdtBlocks.visitAll (B : FdtBlocks) : List FdtOp → Nat →
    Except FdtPanic (List (Option (List Byte)) × Nat)
  | [], pos => .ok ([], pos)
  | op :: ops, pos => do
      let (result, pos) ← B.visit pos op
      let (results, pos) ← B.visitAll ops pos
      return (result :: results, pos)

namespace DtCursor

/-- What an operation returns, and the cursor after it: it only moves if there is a
node to move to. -/
def visit (c : DtCursor) : FdtOp → Option (List Byte) × DtCursor
  | .findChild name =>
    match c.findChild name with
    | some child => (some [], child)
    | none => (none, c)
  | .firstChild =>
    match c.firstChild with
    | some (name, child) => (some name, child)
    | none => (none, c)
  | .nextSibling =>
    match c.nextSibling with
    | some (name, sibling) => (some name, sibling)
    | none => (none, c)

def visitAll : List FdtOp → DtCursor → List (Option (List Byte)) × DtCursor
  | [], c => ([], c)
  | op :: ops, c =>
    let (result, c) := c.visit op
    let (results, c) := visitAll ops c
    (result :: results, c)

end DtCursor

namespace FdtBlocks

variable {B : FdtBlocks} {offset : List Byte → Nat} {pos : Nat} {c : DtCursor}

theorem Represents.visit (hB : B.Ready) (h : Represents B offset pos c) (op : FdtOp) :
    ∃ pos', B.visit pos op = .ok ((c.visit op).1, pos') ∧
      Represents B offset pos' (c.visit op).2 := by
  cases op with
  | findChild name =>
    obtain ⟨found, hfind, hrel⟩ := h.findChild hB name
    rw [FdtBlocks.visit, DtCursor.visit, hfind]
    generalize c.findChild name = expected at hrel
    cases hrel with
    | some hchild => exact ⟨_, rfl, hchild⟩
    | none => exact ⟨_, rfl, h⟩
  | firstChild =>
    obtain ⟨found, hfirst, hrel⟩ := h.firstChild hB
    rw [FdtBlocks.visit, DtCursor.visit, hfirst]
    generalize c.firstChild = expected at hrel
    cases hrel with
    | @some x y hchild =>
      obtain ⟨name, p⟩ := x
      obtain ⟨_, child⟩ := y
      obtain ⟨rfl, hchild⟩ := hchild
      exact ⟨p, rfl, hchild⟩
    | none => exact ⟨_, rfl, h⟩
  | nextSibling =>
    obtain ⟨found, hnext, hrel⟩ := h.nextSibling hB
    rw [FdtBlocks.visit, DtCursor.visit, hnext]
    generalize c.nextSibling = expected at hrel
    cases hrel with
    | @some x y hsibling =>
      obtain ⟨name, p⟩ := x
      obtain ⟨_, sibling⟩ := y
      obtain ⟨rfl, hsibling⟩ := hsibling
      exact ⟨p, rfl, hsibling⟩
    | none => exact ⟨_, rfl, h⟩

theorem Represents.visitAll (hB : B.Ready) (h : Represents B offset pos c) (ops : List FdtOp) :
    ∃ pos', B.visitAll ops pos = .ok ((c.visitAll ops).1, pos') ∧
      Represents B offset pos' (c.visitAll ops).2 := by
  induction ops generalizing pos c with
  | nil => exact ⟨pos, rfl, h⟩
  | cons op ops ih =>
    obtain ⟨p, hvisit, h₁⟩ := h.visit hB op
    obtain ⟨p', hvisitAll, h₂⟩ := ih h₁
    refine ⟨p', ?_, h₂⟩
    rw [FdtBlocks.visitAll, hvisit]
    simp only [bind, Except.bind, hvisitAll]
    rfl

end FdtBlocks

/-! ## Flattened trees in memory -/

/-- A tree in its flattened form, version 17, at an aligned address.  Its names have no
NUL, and the strings block has the names of its properties. -/
structure IsFdt (mem : Memory) (hdr : Nat) (offset : List Byte → Nat) (gap : Nat → Nat)
    (tree : DtNode) : Prop where
  magic : fdtField mem hdr 0 = fdtMagic
  version : fdtVersion ≤ fdtField mem hdr 5
  lastCompVersion : fdtField mem hdr 6 ≤ fdtVersion
  aligned : (hdr + fdtOffDtStruct mem hdr) % 4 = 0
  structBlock : mem.bytes (hdr + fdtOffDtStruct mem hdr) (fdtSizeDtStruct mem hdr) =
    flatten offset gap tree
  names : ∀ it ∈ tree.items,
    it.Ok (mem.bytes (hdr + fdtOffDtStrings mem hdr) (fdtSizeDtStrings mem hdr)) offset

theorem Memory.length_bytes (mem : Memory) (addr n : Nat) : (mem.bytes addr n).length = n := by
  simp [Memory.bytes]

theorem fdtField_lt (mem : Memory) (hdr k : Nat) : fdtField mem hdr k < 2 ^ 32 := by
  have hlt : ∀ bytes : List Byte, ∀ v, bytes.foldl (fun v b => 256 * v + b.toNat) v <
      256 ^ bytes.length * (v + 1) := by
    intro bytes
    induction bytes with
    | nil =>
      intro v
      simp
    | cons b bytes ih =>
      intro v
      have hb := b.isLt
      calc (b :: bytes).foldl (fun v b => 256 * v + b.toNat) v
          < 256 ^ bytes.length * (256 * v + b.toNat + 1) := ih _
        _ ≤ 256 ^ bytes.length * (256 * (v + 1)) := by
            apply Nat.mul_le_mul_left
            omega
        _ = 256 ^ (b :: bytes).length * (v + 1) := by
            rw [length_cons, pow_succ]
            ring
  have hbytes := hlt (mem.bytes (hdr + 4 * k) 4) 0
  rw [Memory.length_bytes] at hbytes
  exact hbytes.trans_eq (by norm_num)

variable {mem : Memory} {hdr : Nat} {offset : List Byte → Nat} {gap : Nat → Nat} {tree : DtNode}

/-- The blocks of a flattened tree: their start stands for the top of the tree. -/
theorem IsFdt.newRoot (h : IsFdt mem hdr offset gap tree) :
    ∃ B, fdtNewRoot mem hdr = some B ∧ B.Ready ∧ B.Represents offset 0 (.top tree) := by
  have hversion : ¬(fdtVersion < fdtField mem hdr 6 ∨ fdtVersion > fdtField mem hdr 5) := by
    have h₁ := h.version
    have h₂ := h.lastCompVersion
    omega
  refine ⟨⟨hdr + fdtOffDtStruct mem hdr, mem.bytes (hdr + fdtOffDtStruct mem hdr)
    (fdtSizeDtStruct mem hdr), mem.bytes (hdr + fdtOffDtStrings mem hdr)
    (fdtSizeDtStrings mem hdr)⟩, ?_, ⟨h.aligned, ?_, ?_⟩, ?_⟩
  · rw [fdtNewRoot, if_neg (not_not.mpr h.magic)]
    exact if_neg hversion
  · rw [Memory.length_bytes]
    exact fdtField_lt mem hdr 9
  · rw [Memory.length_bytes]
    exact fdtField_lt mem hdr 8
  · refine ⟨.fdtEnd, [], .top, ?_⟩
    change FdtBlocks.Stream _ offset 0 (childItems [tree] ++ [.fdtEnd])
    rw [childItems, childItems, append_nil]
    refine FdtBlocks.stream_of_encode gap rfl ?_ ?_
    · intro it hit
      obtain hit | hit := mem_append.mp hit
      · exact h.names it hit
      · rw [mem_singleton.mp hit]
        exact trivial
    · dsimp only
      rw [h.structBlock]
      exact prefix_refl _

/-- A flattened tree is navigated like the tree: from its top every sequence of
operations returns what it returns on the tree, without a panic, and the properties of
the node that it leads to are those of the node of the tree. -/
theorem navigates_as_tree (h : IsFdt mem hdr offset gap tree) (ops : List FdtOp) :
    ∃ B pos, fdtNewRoot mem hdr = some B ∧
      B.visitAll ops 0 = .ok (((DtCursor.top tree).visitAll ops).1, pos) ∧
      ∀ name, B.readProperty name pos =
        .ok (((DtCursor.top tree).visitAll ops).2.readProperty name) := by
  obtain ⟨B, hroot, hB, htop⟩ := h.newRoot
  obtain ⟨pos, hvisit, hnode⟩ := htop.visitAll hB ops
  exact ⟨B, pos, hroot, hvisit, hnode.readProperty hB⟩

/-- A root with the property `a` and a child `b`, with a NOP before the property. -/
def exampleTree : DtNode := .node [] [([97], [1, 2, 3])] [.node [98] [] []]

def exampleBlob : List Byte :=
  let block := flatten (fun _ => 0) (fun i => if i = 1 then 1 else 0) exampleTree
  let header := [fdtMagic, 42 + block.length, 40, 40 + block.length, 0, 17, 16, 0, 2, block.length]
  (header.map toBeBytes).flatten ++ block ++ [97, 0]

def exampleFdt : Memory := fun a => exampleBlob.getD a 0

instance (strs : List Byte) (offset : List Byte → Nat) :
    (it : FdtItem) → Decidable (it.Ok strs offset)
  | .beginNode name => inferInstanceAs (Decidable (0 ∉ name))
  | .prop name _ =>
    inferInstanceAs (Decidable (0 ∉ name ∧ name ++ [0] <+: strs.drop (offset name)))
  | .endNode => inferInstanceAs (Decidable True)
  | .fdtEnd => inferInstanceAs (Decidable True)

theorem isFdt_exampleFdt :
    IsFdt exampleFdt 0 (fun _ => 0) (fun i => if i = 1 then 1 else 0) exampleTree where
  magic := by decide +kernel
  version := by decide +kernel
  lastCompVersion := by decide +kernel
  aligned := by decide +kernel
  structBlock := by decide +kernel
  names := by decide +kernel

theorem navigates_as_tree_example :
    ∃ B pos, fdtNewRoot exampleFdt 0 = some B ∧
      B.visitAll [.findChild [0]] 0 = .ok ([some []], pos) ∧
      B.readProperty [97, 0] pos = .ok (some [1, 2, 3]) := by
  obtain ⟨B, pos, hroot, hvisit, hread⟩ := navigates_as_tree isFdt_exampleFdt [.findChild [0]]
  exact ⟨B, pos, hroot, hvisit, hread [97, 0]⟩

end Hafnium
