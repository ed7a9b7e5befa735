import Hafnium.Boot.Navigation

/-!
# The two views of a device tree node

Rust has a node as two slices, C as the begin and the end of one of them and the begin
of the other.  A slice is its address and its length.  The conversion to Rust does not
look at the end but takes the length of the whole block from the header, so the two
views agree only as long as the node has not moved.
-/

namespace Hafnium

open Support

/-! ## Reading goes forward -/

namespace FdtBlocks

variable (B : FdtBlocks)

/-- Reading from `pos` ended at `p`, inside the block, after `n` bytes at least. -/
def Reads (n pos p : Nat) : Prop := pos + n ≤ p ∧ p ≤ B.data.length

variable {B}

theorem Reads.trans {n m pos p q : Nat} (h : B.Reads n pos p) (h' : B.Reads m p q) :
    B.Reads (n + m) pos q := by
  obtain ⟨h₁, -⟩ := h
  obtain ⟨h₂, h₃⟩ := h'
  exact ⟨by omega, h₃⟩

theorem Reads.mono {n m pos p : Nat} (h : B.Reads n pos p) (hle : m ≤ n) : B.Reads m pos p :=
  ⟨by have := h.1; omega, h.2⟩

variable {pos : Nat} (hpos : pos ≤ B.data.length)
include hpos

theorem Reads.refl : B.Reads 0 pos pos := ⟨le_rfl, hpos⟩

theorem align_post : Post (B.align pos) (fun _ => True) fun p => B.Reads 0 pos p := by
  rw [align]
  split
  · exact trivial
  · constructor
    · omega
    · omega

theorem bytes_post (size : Nat) : Post (B.bytes size pos) (fun _ => True) fun r =>
      B.Reads (if r.1.isSome then size else 0) pos r.2 := by
  rw [FdtBlocks.bytes]
  split
  · exact .refl hpos
  · have hend : pos + size ≤ B.data.length := by omega
    refine Post.bind (align_post hend) fun p hp => ?_
    exact ⟨hp.1, hp.2⟩

theorem u32_post :
    Post (B.u32 pos) (fun _ => True) fun r => B.Reads (if r.1.isSome then 4 else 0) pos r.2 := by
  refine Post.bind (bytes_post hpos 4) fun r hr => ?_
  rw [Post.pure_iff, Option.isSome_map]
  exact hr

theorem token_post :
    Post (B.token pos) (fun _ => True) fun r => B.Reads (if r.1.isSome then 4 else 0) pos r.2 := by
  refine loop_post (I := fun p => B.Reads 0 pos p) _ trivial ?_ _ (.refl hpos)
  intro p hp
  refine Post.bind (u32_post hp.2) ?_
  rintro ⟨_ | v, q⟩ hq
  · simpa using hp.trans hq
  · have hread : B.Reads 4 pos q := by simpa using hp.trans hq
    dsimp only
    split
    · exact trivial
    · split
      · exact hread.mono (Nat.zero_le _)
      · exact hread

theorem tokenExpect_post (expect : FdtToken) :
    Post (B.tokenExpect expect pos) (fun _ => True) fun r =>
      B.Reads (if r.1 then 4 else 0) pos r.2 := by
  refine Post.bind (token_post hpos) ?_
  rintro ⟨_ | t, p⟩ hp
  · exact hp
  · dsimp only
    split
    · exact hp
    · obtain ⟨h₁, h₂⟩ := hp
      rw [Option.isSome_some, if_pos rfl] at h₁
      have hback : B.Reads 0 pos (p - 4) := ⟨by omega, by omega⟩
      exact hback

theorem str_post : Post (B.str pos) (fun _ => True) fun r => B.Reads 0 pos r.2 := by
  rw [str]
  split
  · exact .refl hpos
  · next i hi =>
      have hlt := (List.findIdx?_eq_some_iff_findIdx_eq.mp hi).1
      rw [List.length_drop] at hlt
      have hend : pos + (i + 1) ≤ B.data.length := by omega
      refine Post.bind (align_post hend) fun p hp => ?_
      exact ⟨by have := hp.1; omega, hp.2⟩

theorem nextPropertyAt_post :
    Post (B.nextPropertyAt pos) (fun _ => True) fun r => B.Reads 0 pos r.2 := by
  have hcollapse : B.Reads 0 pos B.collapse := ⟨hpos, le_rfl⟩
  refine Post.bind (tokenExpect_post hpos .prop) ?_
  rintro ⟨_ | _, p⟩ hp
  · exact hp
  · refine Post.bind (u32_post hp.2) ?_
    rintro ⟨_ | size, q⟩ hq
    · exact hcollapse
    · refine Post.bind (u32_post hq.2) ?_
      rintro ⟨_ | nameoff, q'⟩ hq'
      · exact hcollapse
      · refine Post.bind (bytes_post hq'.2 size) ?_
        rintro ⟨_ | buf, p'⟩ hp'
        · exact hcollapse
        · dsimp only
          split
          · exact trivial
          · exact (((hp.trans hq).trans hq').trans hp').mono (Nat.zero_le _)

theorem nextProperty_post :
    Post (B.nextProperty pos) (fun _ => True) fun r => B.Reads 0 pos r.2 := by
  rw [nextProperty]
  cases hnext : B.nextPropertyAt pos with
  | error e => trivial
  | ok r => exact (nextPropertyAt_post hpos).of_ok hnext

theorem nextSubnode_post : Post (B.nextSubnode pos) (fun _ => True) fun r =>
      B.Reads (if r.1.isSome then 4 else 0) pos r.2 := by
  refine Post.bind (tokenExpect_post hpos .beginNode) ?_
  rintro ⟨_ | _, p⟩ hp
  · exact hp
  · refine Post.bind (str_post hp.2) ?_
    rintro ⟨_ | name, q⟩ hq
    · exact ⟨hpos, le_rfl⟩
    · exact hp.trans hq

theorem skipProperties_post :
    Post (B.skipProperties pos) (fun _ => True) fun p => B.Reads 0 pos p := by
  refine loop_post (I := fun p => B.Reads 0 pos p) _ trivial ?_ _ (.refl hpos)
  intro p hp
  refine Post.bind (nextProperty_post hp.2) fun r hr => ?_
  rw [Post.pure_iff]
  split
  · exact hp.trans hr
  · exact hp.trans hr

theorem skipNode_post : Post (B.skipNode pos) (fun _ => True) fun r => B.Reads 0 pos r.2 := by
  refine Post.bind (skipProperties_post hpos) fun p hp => ?_
  refine loop_post (I := fun s => B.Reads 0 pos s.2) _ trivial ?_ _ hp
  rintro ⟨_ | pending, p⟩ hp
  · exact hp
  · refine Post.bind (nextSubnode_post hp.2) ?_
    rintro ⟨_ | name, q⟩ hq
    · have hq := hp.trans hq
      refine Post.bind (token_post hq.2) ?_
      rintro ⟨_ | t, q'⟩ hq'
      · exact hq.trans hq'
      · rw [Post.pure_iff]
        split
        · exact (hq.trans hq').mono (Nat.zero_le _)
        · exact ⟨hpos, le_rfl⟩
    · refine Post.bind (skipProperties_post hq.2) fun q' hq' => ?_
      exact ((hp.trans hq).trans hq').mono (Nat.zero_le _)

/-- A step either finds no node and stays, or reads on. -/
theorem visit_post (op : FdtOp) : Post (B.visit pos op) (fun _ => True) fun r =>
      (r.1 = none ∧ r.2 = pos) ∨ (r.1 ≠ none ∧ B.Reads 1 pos r.2) := by
  have hchild : ∀ p, B.Reads 0 pos p → Post (B.nextSubnode p) (fun _ => True) fun r =>
      r.1 ≠ none → B.Reads 1 pos r.2 := by
    intro p hp
    refine (nextSubnode_post hp.2).mono (fun _ h => h) ?_
    rintro ⟨_ | name, q⟩ hq hne
    · exact absurd rfl hne
    · exact (hp.trans hq).mono (by simp)
  cases op with
  | findChild name =>
    have hfind : Post (B.findChild name pos) (fun _ => True) fun r =>
        ∀ p, r = some p → B.Reads 1 pos p := by
      refine Post.bind (skipProperties_post hpos) fun p hp => ?_
      refine loop_post (I := fun p => B.Reads 0 pos p) _ trivial ?_ _ hp
      intro p hp
      refine Post.bind (hchild p hp) ?_
      rintro ⟨_ | found, q⟩ hq
      · exact nofun
      · have hq : B.Reads 1 pos q := hq nofun
        dsimp only
        split
        · rintro _ ⟨⟩
          exact hq
        · refine Post.bind (skipNode_post hq.2) fun r hr => ?_
          exact (hq.trans hr).mono (Nat.zero_le _)
    refine Post.bind hfind ?_
    rintro (_ | p) hp
    · exact Or.inl ⟨rfl, rfl⟩
    · exact Or.inr ⟨nofun, hp p rfl⟩
  | firstChild =>
    have hfirst : Post (B.firstChild pos) (fun _ => True) fun r =>
        ∀ x, r = some x → B.Reads 1 pos x.2 := by
      refine Post.bind (skipProperties_post hpos) fun p hp => ?_
      refine Post.bind (hchild p hp) ?_
      rintro ⟨_ | name, q⟩ hq
      · exact nofun
      · rintro _ ⟨⟩
        exact hq nofun
    refine Post.bind hfirst ?_
    rintro (_ | x) hx
    · exact Or.inl ⟨rfl, rfl⟩
    · exact Or.inr ⟨nofun, hx x rfl⟩
  | nextSibling =>
    have hnext : Post (B.nextSibling pos) (fun _ => True) fun r =>
        ∀ x, r = some x → B.Reads 1 pos x.2 := by
      refine Post.bind (skipNode_post hpos) ?_
      rintro ⟨_ | _, p⟩ hp
      · exact nofun
      · refine Post.bind (hchild p hp) ?_
        rintro ⟨_ | name, q⟩ hq
        · exact nofun
        · rintro _ ⟨⟩
          exact hq nofun
    refine Post.bind hnext ?_
    rintro (_ | x) hx
    · exact Or.inl ⟨rfl, rfl⟩
    · exact Or.inr ⟨nofun, hx x rfl⟩

/-- A sequence of steps stays exactly if none of them finds a node. -/
theorem visitAll_post (ops : List FdtOp) : Post (B.visitAll ops pos) (fun _ => True) fun r =>
      B.Reads 0 pos r.2 ∧ (r.2 = pos ↔ ∀ result ∈ r.1, result = none) := by
  induction ops generalizing pos with
  | nil => exact ⟨.refl hpos, by simp⟩
  | cons op ops ih =>
    refine Post.bind (visit_post hpos op) ?_
    rintro ⟨result, p⟩ (⟨hnone, rfl⟩ | ⟨hsome, hp⟩)
    · refine Post.bind (ih hpos) ?_
      rintro ⟨results, q⟩ ⟨hq, hiff⟩
      obtain rfl : result = none := hnone
      refine ⟨hq, ?_⟩
      simpa using hiff
    · refine Post.bind (ih hp.2) ?_
      rintro ⟨results, q⟩ ⟨hq, -⟩
      have hread := hp.trans hq
      refine ⟨hread.mono (Nat.zero_le _), iff_of_false ?_ ?_⟩
      · have := hread.1
        omega
      · intro h
        exact hsome (h result (List.mem_cons_self ..))

end FdtBlocks

/-! ## Nodes -/

/-- `fdt_node`, the node of C. -/
structure CFdtNode where
  hdr : Nat
  dataBegin : Nat
  dataEnd : Nat
  strs : Nat
  deriving DecidableEq, Repr

/-- `FdtNode`, the node of Rust: the header, and the address and length of each slice. -/
structure FdtNode where
  hdr : Nat
  dataPtr : Nat
  dataLen : Nat
  strsPtr : Nat
  strsLen : Nat
  deriving DecidableEq, Repr

namespace FdtNode

/-- `From<fdt_node> for FdtNode`. -/
def ofC (mem : Memory) (n : CFdtNode) : FdtNode where
  hdr := n.hdr
  dataPtr := n.dataBegin
  dataLen := fdtSizeDtStruct mem n.hdr
  strsPtr := n.strs
  strsLen := fdtSizeDtStrings mem n.hdr

/-- `From<FdtNode> for fdt_node`. -/
def toC (n : FdtNode) : CFdtNode where
  hdr := n.hdr
  dataBegin := n.dataPtr
  dataEnd := n.dataPtr + n.dataLen
  strs := n.strsPtr

/-- `FdtNode::new_root`. -/
def newRoot (mem : Memory) (hdr : Nat) : Option FdtNode :=
  if fdtField mem hdr 0 ≠ fdtMagic then none
  else if fdtVersion < fdtField mem hdr 6 ∨ fdtVersion > fdtField mem hdr 5 then none
  else
    some ⟨hdr, hdr + fdtOffDtStruct mem hdr, fdtSizeDtStruct mem hdr,
      hdr + fdtOffDtStrings mem hdr, fdtSizeDtStrings mem hdr⟩

/-- The bytes of the slices. -/
def blocks (mem : Memory) (n : FdtNode) : FdtBlocks :=
  ⟨n.dataPtr, mem.bytes n.dataPtr n.dataLen, mem.bytes n.strsPtr n.strsLen⟩

/-- The node whose data begins at a position of the data of `n`. -/
def advance (n : FdtNode) (pos : Nat) : FdtNode :=
  { n with dataPtr := n.dataPtr + pos, dataLen := n.dataLen - pos }

end FdtNode

/-- `fdt_find_child`, the interface for C. -/
def fdtFindChild (mem : Memory) (cNode : CFdtNode) (child : List Byte) :
    Except FdtPanic (Bool × CFdtNode) := do
  let node := FdtNode.ofC mem cNode
  match ← (node.blocks mem).findChild child 0 with
  | some pos => return (true, (node.advance pos).toC)
  | none => return (false, node.toC)

namespace FdtNode

variable {mem : Memory} {hdr pos : Nat} {root : FdtNode} {ops : List FdtOp}
  {results : List (Option (List Byte))}

/-- The two views of a node of a struct block that ends at `limit` agree. -/
structure ViewsAgree (mem : Memory) (limit : Nat) (n : FdtNode) : Prop where
  roundTrip : ofC mem n.toC = n
  inside : (ofC mem n.toC).dataPtr + (ofC mem n.toC).dataLen ≤ limit
  notFound : ∀ child cNode, fdtFindChild mem n.toC child = .ok (false, cNode) → cNode = n.toC

theorem newRoot_sizes (h : newRoot mem hdr = some root) :
    root.hdr = hdr ∧ root.dataLen = fdtSizeDtStruct mem hdr ∧
      root.strsLen = fdtSizeDtStrings mem hdr := by
  rw [newRoot] at h
  split at h
  · cases h
  · split at h
    · cases h
    · cases h
      exact ⟨rfl, rfl, rfl⟩

theorem fdtFindChild_false {cNode cNode' : CFdtNode} {child : List Byte}
    (h : fdtFindChild mem cNode child = .ok (false, cNode')) :
    cNode' = (ofC mem cNode).toC := by
  obtain ⟨found, -, h⟩ := bind_eq_ok.mp h
  cases found with
  | some pos => cases h
  | none =>
    cases h
    rfl

/-- A round trip gives the slices the sizes of the blocks. -/
theorem ofC_toC_advance (h : newRoot mem hdr = some root) (pos : Nat) :
    ofC mem (root.advance pos).toC = { root.advance pos with dataLen := root.dataLen } := by
  obtain ⟨hhdr, hdata, hstrs⟩ := newRoot_sizes h
  rw [ofC, toC, advance, hdata, hstrs, hhdr]

/-- For every device tree and every node that a sequence of steps leads to, the two
views agree exactly if the node is still the root, that is, if no step has found a
node. -/
theorem viewsAgree_iff (hroot : newRoot mem hdr = some root)
    (hvisit : (root.blocks mem).visitAll ops 0 = .ok (results, pos)) :
    (ViewsAgree mem (root.dataPtr + root.dataLen) (root.advance pos) ↔ pos = 0) ∧
      (pos = 0 ↔ ∀ result ∈ results, result = none) := by
  have hlength : (root.blocks mem).data.length = root.dataLen := Memory.length_bytes ..
  obtain ⟨⟨-, hpos⟩, hresults⟩ :=
    (FdtBlocks.visitAll_post (Nat.zero_le _) ops).of_ok hvisit
  rw [hlength] at hpos
  have htrip := ofC_toC_advance hroot pos
  refine ⟨⟨fun h => ?_, fun h => ?_⟩, hresults⟩
  · have hinside := h.inside
    rw [htrip, advance] at hinside
    dsimp only at hinside
    omega
  · subst h
    have hsame : ofC mem (root.advance 0).toC = root.advance 0 := htrip
    refine ⟨hsame, ?_, fun child cNode hchild => ?_⟩
    · rw [hsame]
      exact le_rfl
    · rw [fdtFindChild_false hchild, hsame]

/-- The root of the example, as a pair of slices. -/
def exampleRoot : FdtNode := ⟨0, 40, 48, 88, 2⟩

theorem newRoot_exampleFdt : newRoot exampleFdt 0 = some exampleRoot := by
  decide +kernel

/-- Looking for a node that the tree does not have moves nothing. -/
theorem viewsAgree_exampleRoot :
    ViewsAgree exampleFdt 88 (exampleRoot.advance 0) ∧
      (exampleRoot.blocks exampleFdt).visitAll [.findChild [99, 0]] 0 = .ok ([none], 0) := by
  have hvisit : (exampleRoot.blocks exampleFdt).visitAll [.findChild [99, 0]] 0 =
      .ok ([none], 0) := by
    decide +kernel
  exact ⟨(viewsAgree_iff newRoot_exampleFdt hvisit).1.mpr rfl, hvisit⟩

/-- The node of the root is found, and through C its slice is 8 bytes too long; a search
that finds nothing then moves the end of the node. -/
theorem views_drift :
    (exampleRoot.blocks exampleFdt).visitAll [.findChild [0]] 0 = .ok ([some []], 8) ∧
    ofC exampleFdt (exampleRoot.advance 8).toC ≠ exampleRoot.advance 8 ∧
    (ofC exampleFdt (exampleRoot.advance 8).toC).dataPtr +
      (ofC exampleFdt (exampleRoot.advance 8).toC).dataLen = 96 ∧
    (exampleRoot.advance 8).toC = ⟨0, 48, 88, 88⟩ ∧
    fdtFindChild exampleFdt (exampleRoot.advance 8).toC [99, 0] =
      .ok (false, ⟨0, 48, 96, 88⟩) := by
  decide +kernel

end FdtNode
end Hafnium
