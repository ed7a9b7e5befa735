import Hafnium.Boot.FdtHandler

/-!
# Struct blocks that may be malformed

What the tokenizer makes of the bytes of a struct block, which need not be the flattened
form of a tree.  `Scan` follows the tokens from the start of the block to where the
tokenizer stops, and says what it found on the way.  There is no scan of a block with an
unknown token, with a missing padding, or with the name of a property past the end of
the strings block.

On the items of a scan, a `Walk`, the operations on nodes are functions of lists.
-/

namespace Hafnium

open Support List Option FdtBlocks

/-! ## Walks -/

/-- What is read from a struct block; the name of a property is an offset. -/
inductive WalkItem
  | prop (nameoff : Nat) (value : List Byte)
  | beginNode (name : List Byte)
  | endNode
  deriving DecidableEq

/-- The items after the beginning of a node stand for the node. -/
abbrev Walk := List WalkItem

namespace Walk

/-- The properties of the node. -/
def props : Walk → List (Nat × List Byte)
  | .prop nameoff value :: w => (nameoff, value) :: props w
  | _ => []

/-- What follows the properties. -/
def afterProps : Walk → Walk
  | .prop _ _ :: w => afterProps w
  | w => w

/-- What follows the end of a number of open nodes, if they all end. -/
def skip : Nat → Walk → Option Walk
  | 0, w => some w
  | _ + 1, [] => none
  | d + 1, .prop _ _ :: w => skip (d + 1) w
  | d + 1, .beginNode _ :: w => skip (d + 2) w
  | d + 1, .endNode :: w => skip d w

/-- The node that begins here. -/
def enter : Walk → Option (List Byte × Walk)
  | .beginNode name :: w => some (name, w)
  | _ => none

def firstChild (w : Walk) : Option (List Byte × Walk) := enter w.afterProps

def nextSibling (w : Walk) : Option (List Byte × Walk) := (skip 1 w).bind enter

/-- The first node of a name among a node and its siblings. -/
def findFrom (name : List Byte) : Nat → Option (List Byte × Walk) → Option Walk
  | fuel + 1, some (n, w) => if n = name then some w else findFrom name fuel w.nextSibling
  | _, _ => none

def findChild (name : List Byte) (w : Walk) : Option Walk := findFrom name w.length w.firstChild

/-- The value of the first property of a name. -/
def property (strs name : List Byte) (w : Walk) : Option (List Byte) :=
  (w.props.find? fun p => cstr (strs.drop p.1) = name).map Prod.snd

/-- A node and the siblings after it. -/
inductive Sibling : Walk → Walk → Prop
  | refl (w : Walk) : Sibling w w
  | next {w v u : Walk} {name : List Byte} (hnext : w.nextSibling = some (name, v))
      (h : Sibling v u) : Sibling w u

/-- The nodes that first children and next siblings lead to. -/
inductive Reaches (w : Walk) : Walk → Prop
  | refl : Reaches w w
  | firstChild {v u : Walk} {name : List Byte} (h : Reaches w v)
      (hchild : v.firstChild = some (name, u)) : Reaches w u
  | nextSibling {v u : Walk} {name : List Byte} (h : Reaches w v)
      (hnext : v.nextSibling = some (name, u)) : Reaches w u

theorem length_afterProps (w : Walk) : w.props.length + w.afterProps.length = w.length := by
  induction w with
  | nil => rfl
  | cons it w ih =>
    cases it with
    | prop nameoff value =>
      rw [props, afterProps, length_cons, length_cons]
      omega
    | beginNode name => simp [props, afterProps]
    | endNode => simp [props, afterProps]

theorem skip_afterProps (d : Nat) (w : Walk) : skip (d + 1) w.afterProps = skip (d + 1) w := by
  induction w with
  | nil => rfl
  | cons it w ih =>
    cases it with
    | prop nameoff value => exact ih
    | beginNode name => rfl
    | endNode => rfl

theorem length_skip {d : Nat} {w v : Walk} (h : skip d w = some v) : v.length ≤ w.length := by
  induction w generalizing d with
  | nil =>
    cases d with
    | zero =>
      obtain rfl := some.inj h
      exact le_rfl
    | succ d => cases h
  | cons it w ih =>
    cases d with
    | zero =>
      obtain rfl := some.inj h
      exact le_rfl
    | succ d =>
      cases it with
      | prop nameoff value => exact (ih h).trans (Nat.le_succ _)
      | beginNode name => exact (ih h).trans (Nat.le_succ _)
      | endNode => exact (ih h).trans (Nat.le_succ _)

theorem enter_eq_some {w v : Walk} {name : List Byte} (h : enter w = some (name, v)) :
    w = .beginNode name :: v := by
  cases w with
  | nil => cases h
  | cons it w =>
    cases it with
    | prop nameoff value => cases h
    | beginNode name =>
      obtain ⟨rfl, rfl⟩ := Prod.mk.inj (some.inj h)
      rfl
    | endNode => cases h

theorem length_nextSibling {w v : Walk} {name : List Byte} (h : w.nextSibling = some (name, v)) :
    v.length < w.length := by
  obtain ⟨u, hskip, henter⟩ := bind_eq_some_iff.mp h
  have hlength := length_skip hskip
  rw [enter_eq_some henter, length_cons] at hlength
  omega

end Walk

/-! ## Bytes -/

/-- A position rounded up to the alignment of tokens. -/
def roundUp4 (pos : Nat) : Nat := (pos + 3) / 4 * 4

namespace FdtBlocks

/-- The number in the four bytes at a position. -/
def word (B : FdtBlocks) (pos : Nat) : Nat := fromBeBytes ((B.data.drop pos).take 4)

/-- The next token and where it is, after any NOPs; there is none if the block ends
before. -/
inductive TokenAt (B : FdtBlocks) : Nat → Option FdtToken → Nat → Prop
  | stop {pos : Nat} (h : B.data.length < pos + 4) : TokenAt B pos none pos
  | nop {pos p : Nat} {t : Option FdtToken} (h : pos + 4 ≤ B.data.length)
      (hnop : FdtToken.tryFrom (B.word pos) = some .nop) (hrest : TokenAt B (pos + 4) t p) :
      TokenAt B pos t p
  | token {pos : Nat} {t : FdtToken} (h : pos + 4 ≤ B.data.length)
      (htoken : FdtToken.tryFrom (B.word pos) = some t) (hne : t ≠ .nop) :
      TokenAt B pos (some t) pos

/-- The next property, if there is one, and where the tokenizer is after it: past a
property with its padding, at the end of the block if the property is cut off, or
before another token. -/
inductive PropStep (B : FdtBlocks) (pos : Nat) : Option (Nat × List Byte) → Nat → Prop
  | hit {p : Nat} (ht : TokenAt B pos (some .prop) p) (h : p + 12 ≤ B.data.length)
      (hsize : p + 12 + B.word (p + 4) ≤ B.data.length)
      (hpad : roundUp4 (p + 12 + B.word (p + 4)) ≤ B.data.length)
      (hname : B.word (p + 8) ≤ B.strs.length) :
      PropStep B pos (some (B.word (p + 8), (B.data.drop (p + 12)).take (B.word (p + 4))))
        (roundUp4 (p + 12 + B.word (p + 4)))
  | cut {p : Nat} (ht : TokenAt B pos (some .prop) p)
      (h : B.data.length < p + 12 ∨ B.data.length < p + 12 + B.word (p + 4)) :
      PropStep B pos none B.data.length
  | miss {t : Option FdtToken} {p : Nat} (ht : TokenAt B pos t p) (hne : t ≠ some .prop) :
      PropStep B pos none p

/-- The next node, if there is one, and where the tokenizer is after its name. -/
inductive NodeStep (B : FdtBlocks) (pos : Nat) : Option (List Byte) → Nat → Prop
  | hit {p : Nat} {name rest : List Byte} (ht : TokenAt B pos (some .beginNode) p)
      (hname : B.data.drop (p + 4) = name ++ 0 :: rest) (hzero : 0 ∉ name)
      (hpad : roundUp4 (p + 4 + (name.length + 1)) ≤ B.data.length) :
      NodeStep B pos (some name) (roundUp4 (p + 4 + (name.length + 1)))
  | cut {p : Nat} (ht : TokenAt B pos (some .beginNode) p) (h : 0 ∉ B.data.drop (p + 4)) :
      NodeStep B pos none B.data.length
  | miss {t : Option FdtToken} {p : Nat} (ht : TokenAt B pos t p) (hne : t ≠ some .beginNode) :
      NodeStep B pos none p

/-- Whether the properties of a node are being read, or what follows them. -/
inductive Phase
  | props
  | nodes

/-- What the tokenizer reads from a position on, with a number of open nodes. -/
inductive Scan (B : FdtBlocks) : Phase → Nat → Nat → Walk → Prop
  | prop {d pos p nameoff : Nat} {value : List Byte} {w : Walk}
      (h : PropStep B pos (some (nameoff, value)) p) (hrest : Scan B .props d p w) :
      Scan B .props d pos (.prop nameoff value :: w)
  | noProp {d pos p : Nat} {w : Walk} (h : PropStep B pos none p) (hrest : Scan B .nodes d p w) :
      Scan B .props d pos w
  | beginNode {d pos p : Nat} {name : List Byte} {w : Walk} (h : NodeStep B pos (some name) p)
      (hrest : Scan B .props (d + 1) p w) : Scan B .nodes d pos (.beginNode name :: w)
  | endNode {d pos p p' : Nat} {w : Walk} (h : NodeStep B pos none p)
      (ht : TokenAt B p (some .endNode) p') (hrest : Scan B .nodes d (p' + 4) w) :
      Scan B .nodes (d + 1) pos (.endNode :: w)
  | stop {d pos p p' : Nat} {t : Option FdtToken} (h : NodeStep B pos none p)
      (ht : TokenAt B p t p') (hend : t = some .endNode → d = 0) : Scan B .nodes d pos []

/-! ## The tokenizer -/

/-- Positions at which the tokenizer is. -/
def Aligned (B : FdtBlocks) (pos : Nat) : Prop := pos % 4 = 0 ∨ B.data.length ≤ pos

variable {B : FdtBlocks} {pos p d : Nat} {t : Option FdtToken} {w : Walk}

theorem TokenAt.le (h : TokenAt B pos t p) : pos ≤ p := by
  induction h with
  | stop _ => exact le_rfl
  | nop _ _ _ ih => omega
  | token _ _ _ => exact le_rfl

theorem TokenAt.aligned (h : TokenAt B pos t p) (hpos : B.Aligned pos) : B.Aligned p := by
  induction h with
  | stop _ => exact hpos
  | @nop pos p t h _ _ ih =>
    apply ih
    rw [Aligned] at hpos ⊢
    omega
  | token _ _ _ => exact hpos

theorem TokenAt.some_le {t : FdtToken} (h : TokenAt B pos (some t) p) : p + 4 ≤ B.data.length := by
  generalize ht : some t = t' at h
  induction h with
  | stop _ => cases ht
  | nop _ _ _ ih => exact ih ht
  | token h _ _ => exact h

theorem TokenAt.none_lt (h : TokenAt B pos none p) : B.data.length < p + 4 := by
  generalize ht : none = t at h
  induction h with
  | stop h => exact h
  | nop _ _ _ ih => exact ih ht
  | token _ _ _ => cases ht

/-- A token that was not consumed is read again. -/
theorem TokenAt.again (h : TokenAt B pos t p) : TokenAt B p t p := by
  induction h with
  | stop h => exact .stop h
  | nop _ _ _ ih => exact ih
  | token h htoken hne => exact .token h htoken hne

variable (hB : B.addr % 4 = 0)
include hB

theorem align_eq_ite (hpos : pos ≤ B.data.length) :
    B.align pos = if B.data.length < roundUp4 pos then .error .align else .ok (roundUp4 pos) := by
  have hround : pos + (4 - (B.addr + pos) % 4) % 4 = roundUp4 pos := by
    rw [roundUp4]
    omega
  simp only [align, fdtTokenAlignment, hround]
  congr 1
  rw [eq_iff_iff]
  omega

omit hB in
theorem u32_short (h : B.data.length < pos + 4) : B.u32 pos = .ok (none, pos) := by
  rw [u32, bytes, if_pos (by omega)]
  rfl

theorem u32_word (hpos : pos % 4 = 0) (h : pos + 4 ≤ B.data.length) :
    B.u32 pos = .ok (some (B.word pos), pos + 4) := by
  have hround : roundUp4 (pos + 4) = pos + 4 := by
    rw [roundUp4]
    omega
  rw [u32, bytes, if_neg (by omega), align_eq_ite hB h, hround, if_neg (by omega)]
  rfl

/-- Where reading a token ends. -/
theorem TokenAt.loops (h : TokenAt B pos t p) (hpos : B.Aligned pos) : ∃ n ≤ B.data.length - pos,
      Loops B.tokenRound n pos (t, p + if t.isSome then 4 else 0) := by
  induction h with
  | @stop pos h =>
    refine ⟨0, Nat.zero_le _, .done ?_⟩
    rw [tokenRound, u32_short h]
    rfl
  | @nop pos p t h hnop _ ih =>
    have hpos4 : pos % 4 = 0 := by
      rw [Aligned] at hpos
      omega
    obtain ⟨n, hn, hloops⟩ := ih (.inl (by omega))
    refine ⟨n + 1, by omega, .next ?_ hloops⟩
    rw [tokenRound, u32_word hB hpos4 h]
    simp only [bind, Except.bind, hnop]
    rfl
  | @token pos t h htoken hne =>
    have hpos4 : pos % 4 = 0 := by
      rw [Aligned] at hpos
      omega
    refine ⟨0, Nat.zero_le _, .done ?_⟩
    rw [tokenRound, u32_word hB hpos4 h]
    simp only [bind, Except.bind, htoken, if_neg hne]
    rfl

theorem TokenAt.token_eq (h : TokenAt B pos t p) (hpos : B.Aligned pos) :
    B.token pos = .ok (t, p + if t.isSome then 4 else 0) := by
  obtain ⟨n, hn, hloops⟩ := h.loops hB hpos
  refine loop_eq _ hloops ?_
  rw [fuel]
  omega

/-- A token is read only if there is none that is unknown. -/
theorem tokenAt_of_token (hpos : B.Aligned pos) {r : Option FdtToken × Nat}
    (h : B.token pos = .ok r) : ∃ t p, TokenAt B pos t p := by
  have hloop : ∀ (fuel pos : Nat), B.Aligned pos → loop .loop B.tokenRound fuel pos = .ok r →
      ∃ t p, TokenAt B pos t p := by
    intro fuel
    induction fuel with
    | zero =>
      intro pos _ h
      cases h
    | succ fuel ih =>
      intro pos hpos h
      by_cases hshort : B.data.length < pos + 4
      · exact ⟨none, pos, .stop hshort⟩
      have hpos4 : pos % 4 = 0 := by
        rw [Aligned] at hpos
        omega
      cases htoken : FdtToken.tryFrom (B.word pos) with
      | none =>
        have hround : B.tokenRound pos = .error .token := by
          rw [tokenRound, u32_word hB hpos4 (by omega)]
          simp only [bind, Except.bind, htoken]
          rfl
        rw [loop, hround] at h
        cases h
      | some t =>
        by_cases hnop : t = .nop
        · subst hnop
          have hround : B.tokenRound pos = .ok (.inl (pos + 4)) := by
            rw [tokenRound, u32_word hB hpos4 (by omega)]
            simp only [bind, Except.bind, htoken]
            rfl
          rw [loop, hround] at h
          obtain ⟨t, p, hrest⟩ := ih (pos + 4) (.inl (by omega)) h
          exact ⟨t, p, .nop (by omega) htoken hrest⟩
        · exact ⟨some t, pos, .token (by omega) htoken hnop⟩
  exact hloop _ pos hpos h

theorem TokenAt.tokenExpect_eq (h : TokenAt B pos t p) (hpos : B.Aligned pos) (expect : FdtToken) :
    B.tokenExpect expect pos = .ok (if t = some expect then (true, p + 4) else (false, p)) := by
  rw [tokenExpect, h.token_eq hB hpos]
  cases t with
  | none => rfl
  | some t =>
    simp only [bind, Except.bind, isSome_some, if_true, some.injEq,
      fdtTokenAlignment, Nat.add_sub_cancel]
    rfl

theorem nextPropertyAt_of_prop (h : TokenAt B pos (some .prop) p) (hpos : B.Aligned pos) :
    B.nextPropertyAt pos =
      if B.data.length < p + 12 ∨ B.data.length < p + 12 + B.word (p + 4) then
        .ok (none, B.data.length)
      else if B.data.length < roundUp4 (p + 12 + B.word (p + 4)) then .error .align
      else if B.word (p + 8) > B.strs.length then .error .strings
      else .ok (some (B.strs.drop (B.word (p + 8)), p + 12, B.word (p + 4)),
        roundUp4 (p + 12 + B.word (p + 4))) := by
  have hle := h.some_le
  have hp : p % 4 = 0 := by
    have := h.aligned hpos
    rw [Aligned] at this
    omega
  rw [nextPropertyAt, h.tokenExpect_eq hB hpos, if_pos rfl]
  simp only [bind, Except.bind, Bool.not_true, Bool.false_eq_true, if_false]
  by_cases h₁ : B.data.length < p + 8
  · have hsize : B.u32 (p + 4) = .ok (none, p + 4) := u32_short h₁
    rw [hsize, if_pos (by omega)]
    rfl
  have hsize : B.u32 (p + 4) = .ok (some (B.word (p + 4)), p + 8) :=
    u32_word hB (by omega) (by omega)
  by_cases h₂ : B.data.length < p + 12
  · have hoffset : B.u32 (p + 8) = .ok (none, p + 8) := u32_short h₂
    simp only [hsize, hoffset, if_pos (Or.inl h₂)]
    rfl
  have hoffset : B.u32 (p + 8) = .ok (some (B.word (p + 8)), p + 12) :=
    u32_word hB (by omega) (by omega)
  simp only [hsize, hoffset, bytes]
  by_cases h₃ : B.data.length < p + 12 + B.word (p + 4)
  · rw [if_pos (by omega), if_pos (Or.inr h₃)]
    rfl
  rw [if_neg (by omega), if_neg (by omega), align_eq_ite hB (by omega)]
  by_cases h₄ : B.data.length < roundUp4 (p + 12 + B.word (p + 4))
  · rw [if_pos h₄, if_pos h₄]
    rfl
  rw [if_neg h₄, if_neg h₄]
  by_cases h₅ : B.word (p + 8) > B.strs.length
  · simp only [bind, Except.bind, if_pos h₅]
    rfl
  · simp only [bind, Except.bind, if_neg h₅]
    rfl

theorem nextProperty_of_prop (h : TokenAt B pos (some .prop) p) (hpos : B.Aligned pos) :
    B.nextProperty pos =
      if B.data.length < p + 12 ∨ B.data.length < p + 12 + B.word (p + 4) then
        .ok (none, B.data.length)
      else if B.data.length < roundUp4 (p + 12 + B.word (p + 4)) then .error .align
      else if B.word (p + 8) > B.strs.length then .error .strings
      else .ok (some (B.strs.drop (B.word (p + 8)), (B.data.drop (p + 12)).take (B.word (p + 4))),
        roundUp4 (p + 12 + B.word (p + 4))) := by
  rw [nextProperty, nextPropertyAt_of_prop hB h hpos]
  split_ifs <;> rfl

theorem nextSubnode_of_beginNode (h : TokenAt B pos (some .beginNode) p) (hpos : B.Aligned pos) :
    B.nextSubnode pos =
      match (B.data.drop (p + 4)).findIdx? (· = 0) with
      | none => .ok (none, B.data.length)
      | some i =>
        if B.data.length < roundUp4 (p + 4 + (i + 1)) then .error .align
        else .ok (some ((B.data.drop (p + 4)).take (i + 1)), roundUp4 (p + 4 + (i + 1))) := by
  rw [nextSubnode, h.tokenExpect_eq hB hpos, if_pos rfl]
  simp only [bind, Except.bind, Bool.not_true, Bool.false_eq_true, if_false, str]
  cases hfind : (B.data.drop (p + 4)).findIdx? (· = 0) with
  | none => rfl
  | some i =>
    have hi : p + 4 + (i + 1) ≤ B.data.length := by
      have hlt := (findIdx?_eq_some_iff_getElem.mp hfind).1
      rw [length_drop] at hlt
      omega
    simp only [align_eq_ite hB hi]
    by_cases hpad : B.data.length < roundUp4 (p + 4 + (i + 1))
    · simp only [if_pos hpad]
    · simp only [if_neg hpad]
      rfl

theorem nextProperty_of_other (h : TokenAt B pos t p) (hne : t ≠ some .prop)
    (hpos : B.Aligned pos) : B.nextProperty pos = .ok (none, p) := by
  rw [nextProperty, nextPropertyAt, h.tokenExpect_eq hB hpos, if_neg hne]
  rfl

theorem nextSubnode_of_other (h : TokenAt B pos t p) (hne : t ≠ some .beginNode)
    (hpos : B.Aligned pos) : B.nextSubnode pos = .ok (none, p) := by
  rw [nextSubnode, h.tokenExpect_eq hB hpos, if_neg hne]
  rfl

omit hB in
theorem tokenExpect_eq_ok {expect : FdtToken} {r : Bool × Nat}
    (h : B.tokenExpect expect pos = .ok r) : ∃ r, B.token pos = .ok r := by
  obtain ⟨r, hr, -⟩ := bind_eq_ok.mp h
  exact ⟨r, hr⟩

/-- `next_property` takes a step, or it panics. -/
theorem nextProperty_eq_ok_iff (hpos : B.Aligned pos) {x : Option (List Byte × List Byte)} :
    B.nextProperty pos = .ok (x, p) ↔
      ∃ r, PropStep B pos r p ∧ x = r.map fun r => (B.strs.drop r.1, r.2) := by
  constructor
  · intro h
    obtain ⟨r, hat, -⟩ := bind_eq_ok.mp h
    obtain ⟨r, hr, -⟩ := bind_eq_ok.mp hat
    obtain ⟨_, htoken⟩ := tokenExpect_eq_ok hr
    obtain ⟨t, q, ht⟩ := tokenAt_of_token hB hpos htoken
    by_cases hprop : t = some .prop
    · subst hprop
      rw [nextProperty_of_prop hB ht hpos] at h
      split at h
      · obtain ⟨rfl, rfl⟩ := Prod.mk.inj (Except.ok.inj h)
        exact ⟨none, .cut ht ‹_›, rfl⟩
      split at h
      · cases h
      split at h
      · cases h
      · obtain ⟨rfl, rfl⟩ := Prod.mk.inj (Except.ok.inj h)
        exact ⟨_, .hit ht (by omega) (by omega) (by omega) (by omega), rfl⟩
    · rw [nextProperty_of_other hB ht hprop hpos] at h
      obtain ⟨rfl, rfl⟩ := Prod.mk.inj (Except.ok.inj h)
      exact ⟨none, .miss ht hprop, rfl⟩
  · rintro ⟨r, hstep, rfl⟩
    cases hstep with
    | hit ht h hsize hpad hname =>
      rw [nextProperty_of_prop hB ht hpos, if_neg (by omega), if_neg (by omega), if_neg (by omega)]
      rfl
    | cut ht h =>
      rw [nextProperty_of_prop hB ht hpos, if_pos h]
      rfl
    | miss ht hne => exact nextProperty_of_other hB ht hne hpos

omit hB in
theorem take_terminated (name rest : List Byte) :
    (name ++ 0 :: rest).take (name.length + 1) = name ++ [0] := by
  rw [← singleton_append, ← append_assoc]
  exact take_left' (length_append ..)

/-- `next_subnode` takes a step, or it panics. -/
theorem nextSubnode_eq_ok_iff (hpos : B.Aligned pos) {x : Option (List Byte)} :
    B.nextSubnode pos = .ok (x, p) ↔ ∃ r, NodeStep B pos r p ∧ x = r.map (· ++ [0]) := by
  constructor
  · intro h
    obtain ⟨r, hr, -⟩ := bind_eq_ok.mp h
    obtain ⟨_, htoken⟩ := tokenExpect_eq_ok hr
    obtain ⟨t, q, ht⟩ := tokenAt_of_token hB hpos htoken
    by_cases hbegin : t = some .beginNode
    · subst hbegin
      rw [nextSubnode_of_beginNode hB ht hpos] at h
      cases hfind : (B.data.drop (q + 4)).findIdx? (· = 0) with
      | none =>
        rw [hfind] at h
        obtain ⟨rfl, rfl⟩ := Prod.mk.inj (Except.ok.inj h)
        exact ⟨none, .cut ht (findIdx_zero_eq_none.mp hfind), rfl⟩
      | some i =>
        simp only [hfind] at h
        obtain ⟨name, rest, hname, hzero, rfl⟩ := findIdx_zero_eq_some.mp hfind
        split at h
        · cases h
        · obtain ⟨rfl, rfl⟩ := Prod.mk.inj (Except.ok.inj h)
          refine ⟨some name, .hit ht hname hzero (by omega), ?_⟩
          rw [hname, take_terminated]
          rfl
    · rw [nextSubnode_of_other hB ht hbegin hpos] at h
      obtain ⟨rfl, rfl⟩ := Prod.mk.inj (Except.ok.inj h)
      exact ⟨none, .miss ht hbegin, rfl⟩
  · rintro ⟨r, hstep, rfl⟩
    cases hstep with
    | hit ht hname hzero hpad =>
      rw [nextSubnode_of_beginNode hB ht hpos, findIdx_zero_eq_some.mpr ⟨_, _, hname, hzero, rfl⟩]
      simp only [if_neg (Nat.not_lt.mpr hpad), hname, take_terminated]
      rfl
    | cut ht h =>
      rw [nextSubnode_of_beginNode hB ht hpos, findIdx_zero_eq_none.mpr h]
      rfl
    | miss ht hne => exact nextSubnode_of_other hB ht hne hpos

/-! ## Scans -/

omit hB in
theorem PropStep.bounds {r : Option (Nat × List Byte)} (h : PropStep B pos r p)
    (hpos : B.Aligned pos) :
    B.Aligned p ∧ pos ≤ p ∧ (r.isSome = true → pos + 4 ≤ p ∧ p ≤ B.data.length) := by
  cases h with
  | hit ht _ _ hpad _ =>
    have hle := ht.le
    rw [roundUp4] at hpad ⊢
    exact ⟨.inl (by omega), by omega, fun _ => ⟨by omega, hpad⟩⟩
  | cut ht _ =>
    have hle := ht.le
    have hlt := ht.some_le
    exact ⟨.inr le_rfl, by omega, nofun⟩
  | miss ht _ => exact ⟨ht.aligned hpos, ht.le, nofun⟩

omit hB in
theorem NodeStep.bounds {r : Option (List Byte)} (h : NodeStep B pos r p) (hpos : B.Aligned pos) :
    B.Aligned p ∧ pos ≤ p ∧ (r.isSome = true → pos + 4 ≤ p ∧ p ≤ B.data.length) := by
  cases h with
  | hit ht _ _ hpad =>
    have hle := ht.le
    rw [roundUp4] at hpad ⊢
    exact ⟨.inl (by omega), by omega, fun _ => ⟨by omega, hpad⟩⟩
  | cut ht _ =>
    have hle := ht.le
    have hlt := ht.some_le
    exact ⟨.inr le_rfl, by omega, nofun⟩
  | miss ht _ => exact ⟨ht.aligned hpos, ht.le, nofun⟩

omit hB in
/-- Every item takes some bytes. -/
theorem Scan.length_le {ph : Phase} (h : Scan B ph d pos w) (hpos : B.Aligned pos) :
    w.length ≤ B.data.length - pos := by
  induction h with
  | prop h _ ih =>
    obtain ⟨hp, _, hprogress⟩ := h.bounds hpos
    have hlt := hprogress rfl
    have hle := ih hp
    rw [length_cons]
    omega
  | noProp h _ ih =>
    obtain ⟨hp, hle, -⟩ := h.bounds hpos
    have hle' := ih hp
    omega
  | beginNode h _ ih =>
    obtain ⟨hp, _, hprogress⟩ := h.bounds hpos
    have hlt := hprogress rfl
    have hle := ih hp
    rw [length_cons]
    omega
  | endNode h ht _ ih =>
    obtain ⟨hp, hle, -⟩ := h.bounds hpos
    have hle' := ht.le
    have hlt := ht.some_le
    have hp' := ht.aligned hp
    rw [Aligned] at hp'
    have hle'' := ih (.inl (by omega))
    rw [length_cons]
    omega
  | stop _ _ _ => exact Nat.zero_le _

omit hB in
theorem Scan.length_lt_fuel {ph : Phase} (h : Scan B ph d pos w) (hpos : B.Aligned pos) :
    w.length < B.fuel := by
  have hle := h.length_le hpos
  rw [fuel]
  omega

omit hB in
/-- There are no properties after the properties. -/
theorem Scan.nodes_props (h : Scan B .nodes d pos w) : w.props = [] ∧ w.afterProps = w := by
  cases h with
  | beginNode _ _ => exact ⟨rfl, rfl⟩
  | endNode _ _ _ => exact ⟨rfl, rfl⟩
  | stop _ _ _ => exact ⟨rfl, rfl⟩

theorem Scan.skipProperties_eq (h : Scan B .props d pos w) (hpos : B.Aligned pos) :
    ∃ p, B.skipProperties pos = .ok p ∧ B.Aligned p ∧ Scan B .nodes d p w.afterProps := by
  have hloops : ∃ n ≤ w.length, ∃ p, Loops B.skipPropertiesRound n pos p ∧ B.Aligned p ∧
      Scan B .nodes d p w.afterProps := by
    generalize hph : Phase.props = ph at h
    induction h with
    | prop h _ ih =>
      obtain ⟨n, hn, p, hloops, hp, hscan⟩ := ih (h.bounds hpos).1 rfl
      refine ⟨n + 1, Nat.succ_le_succ hn, p, .next ?_ hloops, hp, hscan⟩
      rw [skipPropertiesRound, (nextProperty_eq_ok_iff hB hpos).mpr ⟨_, h, rfl⟩]
      rfl
    | noProp h hscan _ =>
      refine ⟨0, Nat.zero_le _, _, .done ?_, (h.bounds hpos).1, ?_⟩
      · rw [skipPropertiesRound, (nextProperty_eq_ok_iff hB hpos).mpr ⟨_, h, rfl⟩]
        rfl
      · rw [hscan.nodes_props.2]
        exact hscan
    | beginNode _ _ _ => cases hph
    | endNode _ _ _ _ => cases hph
    | stop _ _ _ => cases hph
  obtain ⟨n, hn, p, hloops, hp, hscan⟩ := hloops
  exact ⟨p, loop_eq _ hloops (hn.trans_lt (h.length_lt_fuel hpos)), hp, hscan⟩

/-- `skip_node` skips a number of open nodes, or it comes to where the scan ends. -/
theorem Scan.skipNode_loops {k : Nat} (h : Scan B .nodes d pos w) (hpos : B.Aligned pos)
    (hk : k ≤ d) :
    ∃ n ≤ w.length, (∃ v p, Walk.skip k w = some v ∧ Loops B.skipNodeRound n (k, pos) (true, p) ∧
        B.Aligned p ∧ Scan B .nodes (d - k) p v) ∨
      ∃ p, Walk.skip k w = none ∧ Loops B.skipNodeRound n (k, pos) (false, p) ∧
        B.Aligned p ∧ B.data.length < p + 4 := by
  induction hN : w.length using Nat.strong_induction_on generalizing w d pos k with
  | _ N ih =>
    cases k with
    | zero => exact ⟨0, Nat.zero_le _, .inl ⟨w, pos, by cases w <;> rfl, .done rfl, hpos, h⟩⟩
    | succ k =>
      cases h with
      | @beginNode _ _ p name v hstep hrest =>
        obtain ⟨q, hskip, hq, hscan⟩ := hrest.skipProperties_eq hB (hstep.bounds hpos).1
        have hlength := v.length_afterProps
        rw [length_cons] at hN
        have hround : B.skipNodeRound (k + 1, pos) = .ok (.inl (k + 2, q)) := by
          rw [skipNodeRound, (nextSubnode_eq_ok_iff hB hpos).mpr ⟨_, hstep, rfl⟩]
          simp only [bind, Except.bind, map_some, hskip]
          rfl
        obtain ⟨n, hn, hout⟩ := ih _ (by omega) hscan hq (Nat.succ_le_succ hk) rfl
        rw [Walk.skip_afterProps, Nat.add_sub_add_right] at hout
        refine ⟨n + 1, by omega, ?_⟩
        obtain ⟨u, q', hu, hloops, hrest⟩ | ⟨q', hu, hloops, hshort⟩ := hout
        · exact .inl ⟨u, q', hu, .next hround hloops, hrest⟩
        · exact .inr ⟨q', hu, .next hround hloops, hshort⟩
      | @endNode d _ p p' v hstep ht hrest =>
        obtain ⟨hp, -, -⟩ := hstep.bounds hpos
        have hp' := ht.aligned hp
        have hle := ht.some_le
        rw [Aligned] at hp'
        rw [length_cons] at hN
        have hround : B.skipNodeRound (k + 1, pos) = .ok (.inl (k, p' + 4)) := by
          rw [skipNodeRound, (nextSubnode_eq_ok_iff hB hpos).mpr ⟨_, hstep, rfl⟩]
          simp only [bind, Except.bind, map_none, ht.token_eq hB hp]
          rfl
        obtain ⟨n, hn, hout⟩ :=
          ih _ (by omega) hrest (.inl (by omega)) (Nat.le_of_succ_le_succ hk) rfl
        rw [Nat.add_sub_add_right]
        refine ⟨n + 1, by omega, ?_⟩
        obtain ⟨u, q', hu, hloops, hrest⟩ | ⟨q', hu, hloops, hshort⟩ := hout
        · exact .inl ⟨u, q', hu, .next hround hloops, hrest⟩
        · exact .inr ⟨q', hu, .next hround hloops, hshort⟩
      | @stop _ _ p p' t hstep ht hend =>
        obtain ⟨hp, -, -⟩ := hstep.bounds hpos
        refine ⟨0, Nat.zero_le _, .inr ?_⟩
        cases t with
        | none =>
          refine ⟨p', rfl, .done ?_, ht.aligned hp, ht.none_lt⟩
          rw [skipNodeRound, (nextSubnode_eq_ok_iff hB hpos).mpr ⟨_, hstep, rfl⟩]
          simp only [bind, Except.bind, map_none, ht.token_eq hB hp]
          rfl
        | some t =>
          have hne : t ≠ .endNode := by
            rintro rfl
            have hd := hend rfl
            omega
          refine ⟨B.data.length, rfl, .done ?_, .inr le_rfl, by omega⟩
          rw [skipNodeRound, (nextSubnode_eq_ok_iff hB hpos).mpr ⟨_, hstep, rfl⟩]
          simp only [bind, Except.bind, map_none, ht.token_eq hB hp, if_neg hne]
          rfl

theorem Scan.skipNode_eq (h : Scan B .props (d + 1) pos w) (hpos : B.Aligned pos) :
    (∃ v p, Walk.skip 1 w = some v ∧ B.skipNode pos = .ok (true, p) ∧ B.Aligned p ∧
      Scan B .nodes d p v) ∨
    ∃ p, Walk.skip 1 w = none ∧ B.skipNode pos = .ok (false, p) ∧ B.Aligned p ∧
      B.data.length < p + 4 := by
  obtain ⟨q, hskip, hq, hscan⟩ := h.skipProperties_eq hB hpos
  obtain ⟨n, hn, hout⟩ := hscan.skipNode_loops hB hq (Nat.succ_le_succ (Nat.zero_le d))
  have hfuel : n < B.fuel := hn.trans_lt (hscan.length_lt_fuel hq)
  rw [Walk.skip_afterProps] at hout
  obtain ⟨v, p, hv, hloops, hp, hrest⟩ | ⟨p, hv, hloops, hshort⟩ := hout
  · refine .inl ⟨v, p, hv, ?_, hp, hrest⟩
    rw [skipNode, hskip]
    exact loop_eq _ hloops hfuel
  · refine .inr ⟨p, hv, ?_, hshort⟩
    rw [skipNode, hskip]
    exact loop_eq _ hloops hfuel

omit hB in
/-- What `next_subnode` finds is the node that the scan enters. -/
theorem Scan.enter_eq (h : Scan B .nodes d pos w) :
    (∃ name v p, Walk.enter w = some (name, v) ∧ NodeStep B pos (some name) p ∧
      Scan B .props (d + 1) p v) ∨
    ∃ p, Walk.enter w = none ∧ NodeStep B pos none p := by
  cases h with
  | beginNode hstep hrest => exact .inl ⟨_, _, _, rfl, hstep, hrest⟩
  | endNode hstep _ _ => exact .inr ⟨_, rfl, hstep⟩
  | stop hstep _ _ => exact .inr ⟨_, rfl, hstep⟩

/-- A position stands for a node of a walk. -/
def AtWalk (B : FdtBlocks) (pos : Nat) (w : Walk) : Prop :=
  B.Aligned pos ∧ ∃ d, Scan B .props (d + 1) pos w

/-- What is returned about a node: its name, and a position that stands for it. -/
def FoundAt (B : FdtBlocks) : Option (List Byte × Nat) → Option (List Byte × Walk) → Prop :=
  Option.Rel fun found expected => found.1 = expected.1 ++ [0] ∧ B.AtWalk found.2 expected.2

theorem Scan.nextSubnode_eq (h : Scan B .nodes d pos w) (hpos : B.Aligned pos) :
    ∃ name p, B.nextSubnode pos = .ok (name, p) ∧
      B.FoundAt (name.map fun name => (name, p)) (Walk.enter w) := by
  obtain ⟨name, v, p, henter, hstep, hrest⟩ | ⟨p, henter, hstep⟩ := h.enter_eq
  · refine ⟨_, p, (nextSubnode_eq_ok_iff hB hpos).mpr ⟨_, hstep, rfl⟩, ?_⟩
    rw [henter]
    exact .some ⟨rfl, (hstep.bounds hpos).1, d, hrest⟩
  · refine ⟨_, p, (nextSubnode_eq_ok_iff hB hpos).mpr ⟨_, hstep, rfl⟩, ?_⟩
    rw [henter]
    exact .none

theorem AtWalk.firstChild_eq (h : B.AtWalk pos w) :
    ∃ found, B.firstChild pos = .ok found ∧ B.FoundAt found w.firstChild := by
  obtain ⟨hpos, d, hscan⟩ := h
  obtain ⟨q, hskip, hq, hscan⟩ := hscan.skipProperties_eq hB hpos
  obtain ⟨name, p, hnext, hfound⟩ := hscan.nextSubnode_eq hB hq
  refine ⟨_, ?_, hfound⟩
  rw [firstChild, hskip]
  simp only [bind, Except.bind, hnext]
  rfl

theorem AtWalk.nextSibling_eq (h : B.AtWalk pos w) :
    ∃ found, B.nextSibling pos = .ok found ∧ B.FoundAt found w.nextSibling := by
  obtain ⟨hpos, d, hscan⟩ := h
  obtain ⟨v, q, hv, hskip, hq, hrest⟩ | ⟨q, hv, hskip, -⟩ := hscan.skipNode_eq hB hpos
  · obtain ⟨name, p, hnext, hfound⟩ := hrest.nextSubnode_eq hB hq
    refine ⟨name.map fun name => (name, p), ?_, ?_⟩
    · rw [nextSibling, hskip]
      simp only [bind, Except.bind, Bool.not_true, Bool.false_eq_true, if_false, hnext]
      rfl
    · rw [Walk.nextSibling, hv]
      exact hfound
  · refine ⟨none, ?_, ?_⟩
    · rw [nextSibling, hskip]
      rfl
    · rw [Walk.nextSibling, hv]
      exact .none

/-- The loop of `find_child`, among siblings. -/
theorem Scan.findChild_loops {name : List Byte} (h : Scan B .nodes (d + 1) pos w)
    (hpos : B.Aligned pos) {fuel : Nat} (hfuel : w.length ≤ fuel) :
    ∃ n ≤ w.length, ∃ found, Loops (B.findChildRound name) n pos found ∧
      Option.Rel B.AtWalk found (Walk.findFrom (cstr name) fuel (Walk.enter w)) := by
  induction hN : w.length using Nat.strong_induction_on generalizing w pos fuel with
  | _ N ih =>
    obtain ⟨childName, v, p, henter, hstep, hrest⟩ | ⟨p, henter, hstep⟩ := h.enter_eq
    · have hw := Walk.enter_eq_some henter
      rw [hw, length_cons] at hN hfuel
      obtain ⟨fuel, rfl⟩ : ∃ f, fuel = f + 1 := ⟨fuel - 1, by omega⟩
      have hp := (hstep.bounds hpos).1
      have hzero : 0 ∉ childName := by
        cases hstep with
        | hit _ _ hzero _ => exact hzero
      have hnext := (nextSubnode_eq_ok_iff hB hpos).mpr ⟨_, hstep, rfl⟩
      have hcstr : cstr (childName ++ [0]) = childName := cstr_append_zero hzero []
      rw [henter, Walk.findFrom]
      by_cases hname : childName = cstr name
      · refine ⟨0, Nat.zero_le _, some p, .done ?_, ?_⟩
        · rw [findChildRound, hnext]
          simp only [bind, Except.bind, map_some, hcstr, if_pos hname]
          rfl
        · rw [if_pos hname]
          exact .some ⟨hp, d + 1, hrest⟩
      rw [if_neg hname]
      obtain ⟨u, q, hu, hskip, hq, hscan⟩ | ⟨q, hu, hskip, hq, hshort⟩ := hrest.skipNode_eq hB hp
      · have hround : B.findChildRound name pos = .ok (.inl q) := by
          rw [findChildRound, hnext]
          simp only [bind, Except.bind, map_some, hcstr, if_neg hname, hskip]
          rfl
        have hlength := Walk.length_skip hu
        obtain ⟨n, hn, found, hloops, hfound⟩ :=
          ih _ (by omega) hscan hq (show u.length ≤ fuel by omega) rfl
        refine ⟨n + 1, by omega, found, .next hround hloops, ?_⟩
        rw [Walk.nextSibling, hu]
        exact hfound
      · have hround : B.findChildRound name pos = .ok (.inl q) := by
          rw [findChildRound, hnext]
          simp only [bind, Except.bind, map_some, hcstr, if_neg hname, hskip]
          rfl
        have hend : B.findChildRound name q = .ok (.inr none) := by
          rw [findChildRound, nextSubnode_of_other hB (.stop hshort) (by simp) hq]
          rfl
        refine ⟨1, by omega, none, .next hround (.done hend), ?_⟩
        rw [Walk.nextSibling, hu]
        cases fuel <;> exact .none
    · rw [henter]
      refine ⟨0, Nat.zero_le _, none, .done ?_, ?_⟩
      · rw [findChildRound, (nextSubnode_eq_ok_iff hB hpos).mpr ⟨_, hstep, rfl⟩]
        rfl
      · cases fuel <;> exact .none

theorem AtWalk.findChild_eq (h : B.AtWalk pos w) (name : List Byte) :
    ∃ found, B.findChild name pos = .ok found ∧
      Option.Rel B.AtWalk found (w.findChild (cstr name)) := by
  obtain ⟨hpos, d, hscan⟩ := h
  obtain ⟨q, hskip, hq, hscan⟩ := hscan.skipProperties_eq hB hpos
  have hlength := w.length_afterProps
  obtain ⟨n, hn, found, hloops, hfound⟩ :=
    hscan.findChild_loops hB hq (show w.afterProps.length ≤ w.length by omega)
  refine ⟨found, ?_, hfound⟩
  rw [findChild, hskip]
  exact loop_eq _ hloops (hn.trans_lt (hscan.length_lt_fuel hq))

/-! ## Properties -/

omit hB in
theorem exists_terminated {l : List Byte} (h : 0 ∈ l) :
    ∃ a rest, l = a ++ 0 :: rest ∧ 0 ∉ a ∧ cstr l = a := by
  cases hfind : l.findIdx? (· = 0) with
  | none => exact absurd h (findIdx_zero_eq_none.mp hfind)
  | some i =>
    obtain ⟨a, rest, rfl, ha, -⟩ := findIdx_zero_eq_some.mp hfind
    exact ⟨a, rest, rfl, ha, cstr_append_zero ha rest⟩

theorem AtWalk.readProperty_eq (h : B.AtWalk pos w)
    (hnames : ∀ p ∈ w.props, 0 ∈ B.strs.drop p.1) (name : List Byte) :
    B.readProperty name pos = .ok (w.property B.strs (cstr name)) := by
  obtain ⟨hpos, d, hscan⟩ := h
  have hloops : ∃ n ≤ w.length,
      Loops (B.readPropertyRound name) n pos (w.property B.strs (cstr name)) := by
    generalize hph : Phase.props = ph at hscan
    generalize d + 1 = d' at hscan
    induction hscan with
    | @prop d pos p nameoff value v hstep _ ih =>
      rw [Walk.props, forall_mem_cons] at hnames
      obtain ⟨a, rest, ha, hzero, hcstr⟩ := exists_terminated hnames.1
      have hnext := (nextProperty_eq_ok_iff hB hpos).mpr ⟨_, hstep, rfl⟩
      obtain ⟨c, hstrcmp, hc⟩ := strcmp_append_zero hzero (zero_notMem_cstr name) rest
      rw [← ha] at hstrcmp
      by_cases hname : a = cstr name
      · refine ⟨0, Nat.zero_le _, .done ?_⟩
        rw [Walk.property, Walk.props, find?_cons_of_pos (by simp [hcstr, hname])]
        rw [readPropertyRound, hnext]
        simp only [bind, Except.bind, map_some, hstrcmp, if_pos (hc.mpr hname)]
        rfl
      · obtain ⟨n, hn, hloops⟩ := ih hnames.2 (hstep.bounds hpos).1 rfl
        refine ⟨n + 1, Nat.succ_le_succ hn, ?_⟩
        rw [Walk.property, Walk.props, find?_cons_of_neg (by simp [hcstr, hname])]
        refine .next ?_ hloops
        rw [readPropertyRound, hnext]
        simp only [bind, Except.bind, map_some, hstrcmp, if_neg (mt hc.mp hname)]
        rfl
    | noProp hstep hrest _ =>
      refine ⟨0, Nat.zero_le _, .done ?_⟩
      rw [Walk.property, hrest.nodes_props.1, readPropertyRound,
        (nextProperty_eq_ok_iff hB hpos).mpr ⟨_, hstep, rfl⟩]
      rfl
    | beginNode _ _ _ => cases hph
    | endNode _ _ _ _ => cases hph
    | stop _ _ _ => cases hph
  obtain ⟨n, hn, hloops⟩ := hloops
  exact loop_eq _ hloops (hn.trans_lt (hscan.length_lt_fuel hpos))

omit hB in
/-- A string without terminator is compared past its end with one that it begins. -/
theorem strcmp_unterminated {l : List Byte} (h : 0 ∉ l) (rest : List Byte) :
    strcmp l (l ++ rest) = none := by
  induction l with
  | nil => cases rest <;> rfl
  | cons x l ih =>
    have hx : x ≠ 0 := fun h0 => h (h0 ▸ mem_cons_self)
    rw [cons_append, strcmp, if_pos ⟨hx, hx⟩, if_neg (not_not.mpr rfl)]
    exact ih (not_mem_of_not_mem_cons h)

/-- The names of the properties of a node are read past the end of the strings block
unless they are terminated. -/
theorem AtWalk.names_of_readProperty (h : B.AtWalk pos w)
    (hread : ∀ name, ∃ v, B.readProperty name pos = .ok v) :
    ∀ p ∈ w.props, 0 ∈ B.strs.drop p.1 := by
  intro p hp
  by_contra hzero
  -- a name that the unterminated one begins, and that is longer than all others
  let name := B.strs.drop p.1 ++ replicate (B.strs.length + 1) 1
  have hname : 0 ∉ name := by
    intro hmem
    obtain hmem | hmem := mem_append.mp hmem
    · exact hzero hmem
    · exact absurd (eq_of_mem_replicate hmem) (by decide)
  have hcstr : cstr (name ++ [0]) = name := cstr_append_zero hname []
  have hloop : ∀ (fuel d pos : Nat) (w : Walk) (v : Option (List Byte)),
      Scan B .props d pos w → B.Aligned pos → p ∈ w.props →
        loop .loop (B.readPropertyRound (name ++ [0])) fuel pos ≠ .ok v := by
    intro fuel
    induction fuel with
    | zero =>
      intro d pos w v _ _ _ hok
      cases hok
    | succ fuel ih =>
      intro d pos w v hscan hpos hp hok
      cases hscan with
      | @prop _ _ q nameoff value u hstep hrest =>
        have hnext := (nextProperty_eq_ok_iff hB hpos).mpr ⟨_, hstep, rfl⟩
        rw [loop, readPropertyRound, hnext, hcstr] at hok
        dsimp only [bind, Except.bind, map_some] at hok
        cases hcmp : strcmp (B.strs.drop nameoff) (name ++ [0]) with
        | none =>
          rw [hcmp] at hok
          cases hok
        | some c =>
          have hne : c ≠ 0 := by
            rintro rfl
            obtain ⟨rest, hrest⟩ := strcmp_eq_zero hname hcmp
            have hlen := congrArg length hrest
            simp only [length_drop, length_append, length_replicate, length_cons, name] at hlen
            omega
          simp only [hcmp, if_neg hne] at hok
          obtain hp | hp := mem_cons.mp hp
          · have hnone : strcmp (B.strs.drop nameoff) (name ++ [0]) = none := by
              have hpname : B.strs.drop nameoff = B.strs.drop p.1 := by rw [hp]
              rw [hpname, append_assoc]
              exact strcmp_unterminated hzero _
            cases hcmp.symm.trans hnone
          · exact ih d q u v hrest (hstep.bounds hpos).1 hp hok
      | noProp _ hrest =>
        rw [hrest.nodes_props.1] at hp
        cases hp
  obtain ⟨hpos, d, hscan⟩ := h
  obtain ⟨v, hv⟩ := hread (name ++ [0])
  exact hloop _ _ pos w v hscan hpos hp hv

end FdtBlocks

end Hafnium
