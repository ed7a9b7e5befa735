import Hafnium.Boot.Reservation
import Hafnium.Boot.Totality

/-!
# Rewriting the values of properties

The tokenizer goes through a struct block item by item, and skips the values of properties.
So what it finds, and where, does not depend on them: after `write_number` every node and
every property is found where it was, and all other properties have their values.
-/

namespace Hafnium

open Support Except FdtToken List

namespace Support

section Loop

variable {ε σ ρ ρ' : Type} {out : ε} {body : σ → Except ε (σ ⊕ ρ)} {I : σ → Prop}

/-- Loops whose bodies agree on all states that they get to, up to a function on results. -/
theorem loop_map {body' : σ → Except ε (σ ⊕ ρ')} (g : ρ → ρ')
    (hround : ∀ s, I s → body' s = (body s).map (Sum.map id g))
    (hnext : ∀ s s', I s → body s = .ok (.inl s') → I s') (fuel : Nat) {s : σ} (hs : I s) :
    loop out body' fuel s = (loop out body fuel s).map g := by
  induction fuel generalizing s with
  | zero => rfl
  | succ fuel ih =>
    rw [loop, loop, hround s hs]
    cases hbody : body s with
    | error e => rfl
    | ok r =>
      cases r with
      | inl s' => exact ih (hnext s s' hs hbody)
      | inr r => rfl

theorem loop_congr {body' : σ → Except ε (σ ⊕ ρ)} (hround : ∀ s, I s → body' s = body s)
    (hnext : ∀ s s', I s → body s = .ok (.inl s') → I s') (fuel : Nat) {s : σ} (hs : I s) :
    loop out body' fuel s = loop out body fuel s := by
  have hid : ∀ {α : Type} (x : Except ε α), x.map id = x := by
    intro α x
    cases x <;> rfl
  have hround' : ∀ s, I s → body' s = (body s).map (Sum.map id id) := by
    intro s hs
    rw [hround s hs, Sum.map_id_id, hid]
  rw [loop_map id hround' hnext fuel hs, hid]

/-- What holds of the result of the last round holds of the result of the loop. -/
theorem of_loop_eq_ok {Q : ρ → Prop} (hnext : ∀ s s', I s → body s = .ok (.inl s') → I s')
    (hresult : ∀ s r, I s → body s = .ok (.inr r) → Q r) {fuel : Nat} {s : σ} (hs : I s) {r : ρ}
    (h : loop out body fuel s = .ok r) : Q r := by
  induction fuel generalizing s with
  | zero => contradiction
  | succ fuel ih =>
    obtain hdone | ⟨s', hbody, hrest⟩ := loop_eq_ok out h
    · exact hresult s r hs hdone
    · exact ih (hnext s s' hs hbody) hrest

end Loop

end Support

/-! ## Items of a struct block -/

namespace FdtBlocks

/-- An item of a struct block, from its token to the next one. -/
inductive Lexeme (B : FdtBlocks) : Nat → Nat → Prop
  | single {pos : Nat} {t : FdtToken} (h : pos + 4 ≤ B.data.length)
      (ht : tryFrom (B.word pos) = some t) (hsingle : t = .nop ∨ t = .endNode) :
      Lexeme B pos (pos + 4)
  | beginNode {pos : Nat} {name rest : List Byte}
      (ht : tryFrom (B.word pos) = some .beginNode)
      (hname : B.data.drop (pos + 4) = name ++ 0 :: rest) (hzero : 0 ∉ name)
      (hpad : roundUp4 (pos + 4 + (name.length + 1)) ≤ B.data.length) :
      Lexeme B pos (roundUp4 (pos + 4 + (name.length + 1)))
  | prop {pos : Nat} (ht : tryFrom (B.word pos) = some .prop)
      (hpad : roundUp4 (pos + 12 + B.word (pos + 4)) ≤ B.data.length) :
      Lexeme B pos (roundUp4 (pos + 12 + B.word (pos + 4)))

/-- The positions of the tokens. -/
def Reached (B : FdtBlocks) (pos : Nat) : Prop := Relation.ReflTransGen B.Lexeme 0 pos

/-- Where the tokenizer can be: before a token, or at the end of the block. -/
def Clean (B : FdtBlocks) (pos : Nat) : Prop := B.Reached pos ∨ pos = B.data.length

variable {B B' : FdtBlocks} {pos p q : Nat}

theorem Lexeme.bounds (h : B.Lexeme pos p) : pos + 4 ≤ p ∧ p ≤ B.data.length := by
  cases h with
  | single h _ _ => exact ⟨le_rfl, h⟩
  | beginNode _ _ _ hpad =>
    refine ⟨?_, hpad⟩
    rw [roundUp4]
    omega
  | prop _ hpad =>
    refine ⟨?_, hpad⟩
    rw [roundUp4]
    omega

theorem Lexeme.mod (h : B.Lexeme pos p) (hpos : pos % 4 = 0) : p % 4 = 0 := by
  cases h with
  | single _ _ _ => omega
  | beginNode _ _ _ _ => exact Nat.mul_mod_left _ 4
  | prop _ _ => exact Nat.mul_mod_left _ 4

theorem Lexeme.unique (h : B.Lexeme pos p) (h' : B.Lexeme pos q) : p = q := by
  cases h with
  | single _ ht hsingle =>
    cases h' with
    | single _ _ _ => rfl
    | beginNode ht' _ _ _ =>
      cases ht.symm.trans ht'
      exact absurd hsingle (by decide)
    | prop ht' _ =>
      cases ht.symm.trans ht'
      exact absurd hsingle (by decide)
  | @beginNode name rest ht hname hzero _ =>
    cases h' with
    | single _ ht' hsingle =>
      cases ht.symm.trans ht'
      exact absurd hsingle (by decide)
    | @beginNode name' rest' _ hname' hzero' _ =>
      have hfind := findIdx_zero_eq_some.mpr ⟨name, rest, hname, hzero, rfl⟩
      have hfind' := findIdx_zero_eq_some.mpr ⟨name', rest', hname', hzero', rfl⟩
      rw [Option.some.inj (hfind.symm.trans hfind')]
    | prop ht' _ => nomatch ht.symm.trans ht'
  | prop ht _ =>
    cases h' with
    | single _ ht' hsingle =>
      cases ht.symm.trans ht'
      exact absurd hsingle (by decide)
    | beginNode ht' _ _ _ => nomatch ht.symm.trans ht'
    | prop _ _ => rfl

theorem Lexeme.of_prop (h : B.Lexeme pos p) (ht : tryFrom (B.word pos) = some .prop) :
    pos + 12 + B.word (pos + 4) ≤ p := by
  cases h with
  | single _ ht' hsingle =>
    cases ht.symm.trans ht'
    exact absurd hsingle (by decide)
  | beginNode ht' _ _ _ => nomatch ht.symm.trans ht'
  | prop _ _ =>
    rw [roundUp4]
    omega

theorem Lexeme.of_beginNode (h : B.Lexeme pos p)
    (ht : tryFrom (B.word pos) = some .beginNode) :
    ∃ name rest, B.data.drop (pos + 4) = name ++ 0 :: rest ∧ 0 ∉ name ∧
      pos + 4 + (name.length + 1) ≤ p := by
  cases h with
  | single _ ht' hsingle =>
    cases ht.symm.trans ht'
    exact absurd hsingle (by decide)
  | @beginNode name rest _ hname hzero _ =>
    refine ⟨name, rest, hname, hzero, ?_⟩
    rw [roundUp4]
    omega
  | prop ht' _ => cases ht.symm.trans ht'

theorem le_of_lexemes (h : Relation.ReflTransGen B.Lexeme pos p) : pos ≤ p := by
  induction h with
  | refl => exact le_rfl
  | tail _ h ih => exact ih.trans ((Nat.le_add_right _ 4).trans h.bounds.1)

theorem Reached.mod (h : B.Reached pos) : pos % 4 = 0 := by
  induction h with
  | refl => rfl
  | tail _ h ih => exact h.mod ih

/-- The item at a token ends before the next token. -/
theorem Reached.next (hp : B.Reached p) (hq : B.Reached q) (hlt : p < q) :
    ∃ next, B.Lexeme p next ∧ next ≤ q := by
  have hunique : Relator.RightUnique B.Lexeme := fun _ _ _ h h' => h.unique h'
  obtain hpq | hqp := Relation.ReflTransGen.total_of_right_unique hunique hp hq
  · obtain rfl | ⟨next, hnext, hrest⟩ := hpq.cases_head
    · exact absurd hlt (Nat.lt_irrefl _)
    · exact ⟨next, hnext, le_of_lexemes hrest⟩
  · exact absurd (le_of_lexemes hqp) (Nat.not_le.mpr hlt)

theorem Clean.aligned (h : B.Clean pos) : B.Aligned pos := by
  obtain h | rfl := h
  · exact .inl h.mod
  · exact .inr le_rfl

/-! ### What the tokenizer gets to -/

theorem TokenAt.clean {t : Option FdtToken} (h : TokenAt B pos t p) (hpos : B.Clean pos) :
    B.Clean p := by
  induction h with
  | stop _ => exact hpos
  | @nop pos p t h hnop _ ih =>
    apply ih
    obtain hpos | rfl := hpos
    · exact .inl (hpos.tail (.single h hnop (.inl rfl)))
    · omega
  | token _ _ _ => exact hpos

theorem TokenAt.reached {t : FdtToken} (h : TokenAt B pos (some t) p) (hpos : B.Clean pos) :
    B.Reached p := by
  obtain hp | rfl := h.clean hpos
  · exact hp
  · have hle := h.some_le
    omega

theorem TokenAt.tryFrom {t : FdtToken} (h : TokenAt B pos (some t) p) :
    tryFrom (B.word p) = some t := by
  generalize ht : some t = t' at h
  induction h with
  | stop _ => contradiction
  | nop _ _ _ ih => exact ih ht
  | token _ htoken _ => exact htoken

theorem PropStep.clean {r : Option (Nat × List Byte)} (h : PropStep B pos r p)
    (hpos : B.Clean pos) : B.Clean p := by
  cases h with
  | hit ht _ _ hpad _ => exact .inl ((ht.reached hpos).tail (.prop ht.tryFrom hpad))
  | cut _ _ => exact .inr rfl
  | miss ht _ => exact ht.clean hpos

theorem NodeStep.clean {r : Option (List Byte)} (h : NodeStep B pos r p) (hpos : B.Clean pos) :
    B.Clean p := by
  cases h with
  | hit ht hname hzero hpad =>
    exact .inl ((ht.reached hpos).tail (.beginNode ht.tryFrom hname hzero hpad))
  | cut _ _ => exact .inr rfl
  | miss ht _ => exact ht.clean hpos

section Clean

variable (hB : B.addr % 4 = 0)
include hB

theorem clean_of_nextProperty {x : Option (List Byte × List Byte)} (hpos : B.Clean pos)
    (h : B.nextProperty pos = .ok (x, p)) : B.Clean p := by
  obtain ⟨r, hstep, -⟩ := (nextProperty_eq_ok_iff hB hpos.aligned).mp h
  exact hstep.clean hpos

theorem clean_of_nextSubnode {x : Option (List Byte)} (hpos : B.Clean pos)
    (h : B.nextSubnode pos = .ok (x, p)) : B.Clean p := by
  obtain ⟨r, hstep, -⟩ := (nextSubnode_eq_ok_iff hB hpos.aligned).mp h
  exact hstep.clean hpos

theorem clean_of_skipProperties (hpos : B.Clean pos) (h : B.skipProperties pos = .ok p) :
    B.Clean p := by
  have hround : ∀ s x, B.Clean s → B.skipPropertiesRound s = .ok x → B.Clean (x.elim id id) := by
    intro s x hs h
    obtain ⟨⟨property, p⟩, hnext, hx⟩ := bind_eq_ok.mp h
    have hp := clean_of_nextProperty hB hs hnext
    obtain rfl := ok.inj hx
    split
    · exact hp
    · exact hp
  exact of_loop_eq_ok (I := B.Clean) (Q := B.Clean) (fun s s' hs h => hround s _ hs h)
    (fun s r hs h => hround s _ hs h) hpos h

theorem clean_of_skipNodeRound_eq_ok {s : Nat × Nat} {x : (Nat × Nat) ⊕ (Bool × Nat)}
    (hs : B.Clean s.2) (h : B.skipNodeRound s = .ok x) : B.Clean (x.elim Prod.snd Prod.snd) := by
  obtain ⟨_ | pending, pos⟩ := s
  · obtain rfl := ok.inj h
    exact hs
  · obtain ⟨⟨name, p⟩, hnext, hx⟩ := bind_eq_ok.mp h
    have hp := clean_of_nextSubnode hB hs hnext
    cases name with
    | some name =>
      obtain ⟨p', hskip, hx⟩ := bind_eq_ok.mp hx
      obtain rfl := ok.inj hx
      exact clean_of_skipProperties hB hp hskip
    | none =>
      obtain ⟨⟨token, p'⟩, htoken, hx⟩ := bind_eq_ok.mp hx
      obtain ⟨t, q, ht⟩ := tokenAt_of_token hB hp.aligned htoken
      obtain ⟨htoken', hp'⟩ :=
        Prod.mk.inj (ok.inj ((ht.token_eq hB hp.aligned).symm.trans htoken))
      subst htoken' hp'
      cases t with
      | none =>
        obtain rfl := ok.inj hx
        exact ht.clean hp
      | some t =>
        obtain rfl := ok.inj hx
        by_cases hend : t = .endNode
        · subst hend
          exact .inl ((ht.reached hp).tail (.single ht.some_le ht.tryFrom (.inr rfl)))
        · rw [if_neg hend]
          exact .inr rfl

theorem clean_of_skipNodeRound {s s' : Nat × Nat} (hs : B.Clean s.2)
    (h : B.skipNodeRound s = .ok (.inl s')) : B.Clean s'.2 :=
  clean_of_skipNodeRound_eq_ok hB hs h

theorem clean_of_skipNode {found : Bool} (hpos : B.Clean pos)
    (h : B.skipNode pos = .ok (found, p)) : B.Clean p := by
  obtain ⟨first, hfirst, hloop⟩ := bind_eq_ok.mp h
  exact of_loop_eq_ok (I := fun s => B.Clean s.2) (Q := fun r => B.Clean r.2)
    (fun s s' hs h => clean_of_skipNodeRound hB hs h)
    (fun s r hs h => clean_of_skipNodeRound_eq_ok hB hs h)
    (clean_of_skipProperties hB hpos hfirst) hloop

theorem clean_of_findChildRound_eq_ok {name : List Byte} {x : Nat ⊕ Option Nat}
    (hpos : B.Clean pos) (h : B.findChildRound name pos = .ok x) :
    ∀ p ∈ x.elim some id, B.Clean p := by
  obtain ⟨⟨_ | name', p⟩, hnext, hx⟩ := bind_eq_ok.mp h
  · obtain rfl := ok.inj hx
    exact nofun
  · have hp := clean_of_nextSubnode hB hpos hnext
    dsimp only at hx
    split at hx
    · obtain rfl := ok.inj hx
      rintro _ ⟨⟩
      exact hp
    · obtain ⟨⟨found, p'⟩, hskip, hx⟩ := bind_eq_ok.mp hx
      obtain rfl := ok.inj hx
      rintro _ ⟨⟩
      exact clean_of_skipNode hB hp hskip

theorem clean_of_findChildRound {name : List Byte} (hpos : B.Clean pos)
    (h : B.findChildRound name pos = .ok (.inl p)) : B.Clean p :=
  clean_of_findChildRound_eq_ok hB hpos h p rfl

theorem clean_of_findChild {name : List Byte} (hpos : B.Clean pos)
    (h : B.findChild name pos = .ok (some p)) : B.Clean p := by
  obtain ⟨first, hfirst, hloop⟩ := bind_eq_ok.mp h
  exact of_loop_eq_ok (I := B.Clean) (Q := fun r => ∀ p ∈ r, B.Clean p)
    (fun s s' hs h => clean_of_findChildRound hB hs h)
    (fun s r hs h => clean_of_findChildRound_eq_ok hB hs h)
    (clean_of_skipProperties hB hpos hfirst) hloop p rfl

theorem clean_of_visit {op : FdtOp} {r : Option (List Byte)} (hpos : B.Clean pos)
    (h : B.visit pos op = .ok (r, p)) : B.Clean p := by
  cases op with
  | findChild name =>
    obtain ⟨found, hfind, hx⟩ := bind_eq_ok.mp h
    cases found with
    | none =>
      cases hx
      exact hpos
    | some node =>
      cases hx
      exact clean_of_findChild hB hpos hfind
  | firstChild =>
    obtain ⟨found, hfirst, hx⟩ := bind_eq_ok.mp h
    obtain ⟨p', hskip, hfirst⟩ := bind_eq_ok.mp hfirst
    obtain ⟨⟨name, node⟩, hnext, hfirst⟩ := bind_eq_ok.mp hfirst
    have hnode := clean_of_nextSubnode hB (clean_of_skipProperties hB hpos hskip) hnext
    obtain rfl := ok.inj hfirst
    cases name with
    | none =>
      cases hx
      exact hpos
    | some name =>
      cases hx
      exact hnode
  | nextSibling =>
    obtain ⟨found, hsibling, hx⟩ := bind_eq_ok.mp h
    obtain ⟨⟨skipped, p'⟩, hskip, hsibling⟩ := bind_eq_ok.mp hsibling
    have hp' := clean_of_skipNode hB hpos hskip
    cases skipped with
    | false =>
      cases hsibling
      cases hx
      exact hpos
    | true =>
      obtain ⟨⟨name, node⟩, hnext, hsibling⟩ := bind_eq_ok.mp hsibling
      have hnode := clean_of_nextSubnode hB hp' hnext
      obtain rfl := ok.inj hsibling
      cases name with
      | none =>
        cases hx
        exact hpos
      | some name =>
        cases hx
        exact hnode

/-- Operations lead to positions before tokens. -/
theorem Visited.clean (h : B.Visited pos) : B.Clean pos := by
  induction h with
  | top => exact .inl .refl
  | visit _ hvisit ih => exact clean_of_visit hB ih hvisit

end Clean

/-! ### Where properties are -/

section Property

variable (hB : B.addr % 4 = 0)
include hB

theorem nextPropertyAt_of_other {t : Option FdtToken} (h : TokenAt B pos t p)
    (hne : t ≠ some .prop) (hpos : B.Aligned pos) : B.nextPropertyAt pos = .ok (none, p) := by
  rw [nextPropertyAt, h.tokenExpect_eq hB hpos, if_neg hne]
  rfl

theorem clean_of_nextPropertyAt {x : Option (List Byte × Nat × Nat)} (hpos : B.Clean pos)
    (h : B.nextPropertyAt pos = .ok (x, p)) : B.Clean p :=
  clean_of_nextProperty hB hpos (congrArg (Except.map _) h)

theorem clean_of_readPropertyAtRound {name : List Byte} (hpos : B.Clean pos)
    (h : B.readPropertyAtRound name pos = .ok (.inl p)) : B.Clean p := by
  obtain ⟨⟨_ | ⟨name', d, n⟩, p'⟩, hnext, hx⟩ := bind_eq_ok.mp h
  · cases hx
  · have hp := clean_of_nextPropertyAt hB hpos hnext
    dsimp only at hx
    split at hx
    · contradiction
    · split at hx
      · cases hx
      · obtain rfl := Sum.inl.inj (ok.inj hx)
        exact hp

theorem readProperty_eq_map (name : List Byte) (hpos : B.Clean pos) :
    B.readProperty name pos = (B.readPropertyAt name pos).map
      (Option.map fun x => (B.data.drop x.1).take x.2) := by
  refine loop_map (I := B.Clean) _ ?_ ?_ B.fuel hpos
  · intro s hs
    rw [readPropertyRound, readPropertyAtRound, nextProperty]
    cases B.nextPropertyAt s with
    | error e => rfl
    | ok r =>
      obtain ⟨_ | ⟨name', d, n⟩, p⟩ := r
      · rfl
      · dsimp only [bind, Except.bind, Except.map, Option.map_some]
        cases strcmp name' (cstr name ++ [0]) with
        | none => rfl
        | some v =>
          dsimp only
          split <;> rfl
  · intro s s' hs h
    exact clean_of_readPropertyAtRound hB hs h

end Property

/-! ## Another value -/

/-- There is a property at a position; its value is 12 bytes behind. -/
structure PropertyAt (B : FdtBlocks) (q : Nat) : Prop where
  reached : B.Reached q
  token : tryFrom (B.word q) = some .prop
  pad : roundUp4 (q + 12 + B.word (q + 4)) ≤ B.data.length

/-- `B'` differs from `B` in the value of a property at most. -/
structure Rewrites (B B' : FdtBlocks) (q : Nat) : Prop where
  property : B.PropertyAt q
  addr : B'.addr = B.addr
  strs : B'.strs = B.strs
  length : B'.data.length = B.data.length
  same : ∀ i, i < q + 12 ∨ q + 12 + B.word (q + 4) ≤ i → B'.data[i]? = B.data[i]?

theorem le_roundUp4 (n : Nat) : n ≤ roundUp4 n := by
  rw [roundUp4]
  omega

theorem property_of_nextPropertyAt (hB : B.addr % 4 = 0) {name : List Byte} {d n : Nat}
    (hpos : B.Clean pos) (h : B.nextPropertyAt pos = .ok (some (name, d, n), p)) :
    ∃ q, B.PropertyAt q ∧ name = B.strs.drop (B.word (q + 8)) ∧ d = q + 12 ∧
      n = B.word (q + 4) := by
  have htoken : ∃ r, B.token pos = .ok r := by
    obtain ⟨r, hr, -⟩ := bind_eq_ok.mp h
    exact tokenExpect_eq_ok hr
  obtain ⟨r, hr⟩ := htoken
  obtain ⟨t, q, ht⟩ := tokenAt_of_token hB hpos.aligned hr
  by_cases hprop : t = some .prop
  · subst hprop
    rw [nextPropertyAt_of_prop hB ht hpos.aligned] at h
    split at h
    · cases h
    split at h
    · contradiction
    split at h
    · contradiction
    · cases h
      exact ⟨q, ⟨ht.reached hpos, ht.tryFrom, by omega⟩, rfl, rfl, rfl⟩
  · rw [nextPropertyAt_of_other hB ht hprop hpos.aligned] at h
    cases h

/-- What `read_property` finds is a property of the name. -/
theorem property_of_readPropertyAt (hB : B.addr % 4 = 0) {name : List Byte} {d n : Nat}
    (hpos : B.Clean pos) (h : B.readPropertyAt name pos = .ok (some (d, n))) :
    ∃ q, B.PropertyAt q ∧ strcmp (B.strs.drop (B.word (q + 8))) (cstr name ++ [0]) = some 0 ∧
      d = q + 12 ∧ n = B.word (q + 4) := by
  refine of_loop_eq_ok (I := B.Clean) (Q := fun r => ∀ x ∈ r, ∃ q, B.PropertyAt q ∧
    strcmp (B.strs.drop (B.word (q + 8))) (cstr name ++ [0]) = some 0 ∧ x.1 = q + 12 ∧
      x.2 = B.word (q + 4)) (fun s s' hs h => clean_of_readPropertyAtRound hB hs h) ?_ hpos h
    (d, n) rfl
  rintro s r hs hround x hx
  obtain ⟨⟨_ | ⟨name', d, n⟩, p⟩, hnext, hround⟩ := bind_eq_ok.mp hround
  · cases hround
    contradiction
  · obtain ⟨q, hq, rfl, rfl, rfl⟩ := property_of_nextPropertyAt hB hs hnext
    dsimp only at hround
    cases hcmp : strcmp (B.strs.drop (B.word (q + 8))) (cstr name ++ [0]) with
    | none =>
      rw [hcmp] at hround
      contradiction
    | some v =>
      rw [hcmp] at hround
      dsimp only at hround
      split at hround
      · rename_i hv
        cases hround
        cases hx
        exact ⟨q, hq, by rw [hcmp, hv], rfl, rfl⟩
      · cases hround

/-- The items before and behind a property. -/
theorem PropertyAt.cases (h : B.PropertyAt q) (hp : B.Reached p) :
    (∃ next, B.Lexeme p next ∧ next ≤ q) ∨ p = q ∨ q + 12 + B.word (q + 4) ≤ p := by
  obtain hlt | rfl | hgt := Nat.lt_trichotomy p q
  · exact .inl (hp.next h.reached hlt)
  · exact .inr (.inl rfl)
  · obtain ⟨next, hnext, hle⟩ := h.reached.next hp hgt
    obtain rfl := hnext.unique (.prop h.token h.pad)
    exact .inr (.inr ((le_roundUp4 _).trans hle))

/-- The values of two properties do not overlap. -/
theorem PropertyAt.apart (hp : B.PropertyAt p) (hq : B.PropertyAt q) (hne : p ≠ q) :
    p + 12 + B.word (p + 4) ≤ q ∨ q + 12 + B.word (q + 4) ≤ p := by
  obtain ⟨next, hnext, hle⟩ | heq | hge := hq.cases hp.reached
  · exact .inl ((hnext.of_prop hp.token).trans hle)
  · exact absurd heq hne
  · exact .inr hge

/-- A comparison that succeeds finds the name. -/
theorem cstr_of_strcmp {l name : List Byte} (hname : 0 ∉ name)
    (h : strcmp l (name ++ [0]) = some 0) : cstr l = name := by
  obtain ⟨rest, rfl⟩ := strcmp_eq_zero hname h
  exact cstr_append_zero hname rest

namespace Rewrites

variable (h : Rewrites B B' q)
include h

theorem slice_eq {n : Nat} (hpos : pos + n ≤ q + 12 ∨ q + 12 + B.word (q + 4) ≤ pos) :
    (B'.data.drop pos).take n = (B.data.drop pos).take n := by
  apply ext_getElem?
  intro i
  rw [getElem?_take, getElem?_take, getElem?_drop, getElem?_drop]
  by_cases hi : i < n
  · rw [if_pos hi, if_pos hi, h.same (pos + i) (by omega)]
  · rw [if_neg hi, if_neg hi]

theorem word_eq (hpos : pos + 4 ≤ q + 12 ∨ q + 12 + B.word (q + 4) ≤ pos) :
    B'.word pos = B.word pos := by
  rw [word, word, h.slice_eq hpos]

theorem drop_eq (hpos : q + 12 + B.word (q + 4) ≤ pos) : B'.data.drop pos = B.data.drop pos := by
  apply ext_getElem?
  intro i
  rw [getElem?_drop, getElem?_drop, h.same (pos + i) (by omega)]

theorem word_of_reached (hp : B.Reached p) : B'.word p = B.word p := by
  apply h.word_eq
  obtain ⟨next, hnext, hle⟩ | rfl | hge := h.property.cases hp
  · have hbounds := hnext.bounds
    omega
  · omega
  · exact .inr hge

theorem tokenAt {t : Option FdtToken} (ht : TokenAt B pos t p) (hpos : B.Clean pos) :
    TokenAt B' pos t p := by
  induction ht with
  | stop hstop => exact .stop (by rwa [h.length])
  | @nop pos p t hle hnop _ ih =>
    obtain hpos | rfl := hpos
    · refine .nop (by rwa [h.length]) ?_ (ih (.inl (hpos.tail (.single hle hnop (.inl rfl)))))
      rwa [h.word_of_reached hpos]
    · omega
  | token hle htoken hne =>
    obtain hpos | rfl := hpos
    · refine .token (by rwa [h.length]) ?_ hne
      rwa [h.word_of_reached hpos]
    · omega

theorem name_eq (hp : B.Reached p) (ht : tryFrom (B.word p) = some .beginNode) :
    (B'.data.drop (p + 4)).findIdx? (· = 0) = (B.data.drop (p + 4)).findIdx? (· = 0) ∧
      ∀ i, (B.data.drop (p + 4)).findIdx? (· = 0) = some i →
        (B'.data.drop (p + 4)).take (i + 1) = (B.data.drop (p + 4)).take (i + 1) := by
  obtain ⟨next, hnext, hle⟩ | rfl | hge := h.property.cases hp
  · obtain ⟨name, rest, hname, hzero, hend⟩ := hnext.of_beginNode ht
    have hfind := findIdx_zero_eq_some.mpr ⟨name, rest, hname, hzero, rfl⟩
    have htake : (B'.data.drop (p + 4)).take (name.length + 1) = name ++ [0] := by
      rw [h.slice_eq (by omega), hname, take_terminated]
    have hname' : B'.data.drop (p + 4) =
        name ++ 0 :: (B'.data.drop (p + 4)).drop (name.length + 1) := by
      have hsplit := take_append_drop (name.length + 1) (B'.data.drop (p + 4))
      rw [htake, append_assoc, singleton_append] at hsplit
      exact hsplit.symm
    constructor
    · rw [hfind]
      exact findIdx_zero_eq_some.mpr ⟨name, _, hname', hzero, rfl⟩
    · intro i hi
      obtain rfl := Option.some.inj (hfind.symm.trans hi)
      exact h.slice_eq (by omega)
  · nomatch h.property.token.symm.trans ht
  · rw [h.drop_eq (by omega)]
    exact ⟨rfl, fun _ _ => rfl⟩

theorem lexeme {next : Nat} (hp : B.Reached p) (hnext : B.Lexeme p next) : B'.Lexeme p next := by
  have hword := h.word_of_reached hp
  cases hnext with
  | single hle ht hsingle => exact .single (by rwa [h.length]) (by rwa [hword]) hsingle
  | @beginNode name rest ht hname hzero hpad =>
    obtain ⟨hfind, -⟩ := h.name_eq hp ht
    rw [findIdx_zero_eq_some.mpr ⟨name, rest, hname, hzero, rfl⟩] at hfind
    obtain ⟨name', rest', hname', hzero', hlength⟩ := findIdx_zero_eq_some.mp hfind
    rw [← hlength] at hpad ⊢
    exact .beginNode (by rwa [hword]) hname' hzero' (by rwa [h.length])
  | prop ht hpad =>
    have hsize : B'.word (p + 4) = B.word (p + 4) := by
      apply h.word_eq
      obtain ⟨next, hnext, hle⟩ | rfl | hge := h.property.cases hp
      · have := hnext.of_prop ht
        omega
      · omega
      · omega
    rw [← hsize] at hpad ⊢
    exact .prop (by rwa [hword]) (by rwa [h.length])

theorem reached (hp : B.Reached p) : B'.Reached p := by
  induction hp with
  | refl => exact .refl
  | tail hp hnext ih => exact ih.tail (h.lexeme hp hnext)

theorem clean (hpos : B.Clean pos) : B'.Clean pos := by
  obtain hpos | rfl := hpos
  · exact .inl (h.reached hpos)
  · exact .inr h.length.symm

theorem size_eq (hp : B.PropertyAt p) : B'.word (p + 4) = B.word (p + 4) := by
  apply h.word_eq
  by_cases hpq : p = q
  · omega
  · obtain hle | hle := hp.apart h.property hpq
    · omega
    · omega

theorem propertyAt (hp : B.PropertyAt p) : B'.PropertyAt p where
  reached := h.reached hp.reached
  token := by
    rw [h.word_of_reached hp.reached]
    exact hp.token
  pad := by
    rw [h.size_eq hp, h.length]
    exact hp.pad

theorem value_eq (hp : B.PropertyAt p) (hne : p ≠ q) :
    (B'.data.drop (p + 12)).take (B.word (p + 4)) =
      (B.data.drop (p + 12)).take (B.word (p + 4)) := by
  apply h.slice_eq
  obtain hle | hle := hp.apart h.property hne
  · omega
  · omega

section Equations

variable (hB : B.addr % 4 = 0)
include hB

theorem token_eq (hpos : B.Clean pos) : B'.token pos = B.token pos := by
  have haddr : B'.addr % 4 = 0 := by rwa [h.addr]
  rw [token, fuel, h.length]
  refine loop_congr (I := B.Clean) ?_ ?_ _ hpos
  · intro s hs
    by_cases hshort : B.data.length < s + 4
    · rw [tokenRound, tokenRound, u32_short hshort, u32_short (by rwa [h.length])]
    · obtain hs | rfl := hs
      · rw [tokenRound, tokenRound, u32_word hB hs.mod (by omega),
          u32_word haddr hs.mod (by rw [h.length]; omega), h.word_of_reached hs]
      · omega
  · intro s s' hs hround
    by_cases hshort : B.data.length < s + 4
    · rw [tokenRound, u32_short hshort] at hround
      cases hround
    · obtain hs | rfl := hs
      · rw [tokenRound, u32_word hB hs.mod (by omega)] at hround
        simp only [bind, Except.bind] at hround
        split at hround
        · contradiction
        · rename_i t ht
          by_cases hnop : t = .nop
          · subst hnop
            obtain rfl := Sum.inl.inj (Except.ok.inj hround)
            exact .inl (hs.tail (.single (by omega) ht (.inl rfl)))
          · rw [if_neg hnop] at hround
            cases hround
      · omega

theorem nextPropertyAt_eq (hpos : B.Clean pos) : B'.nextPropertyAt pos = B.nextPropertyAt pos := by
  have haddr : B'.addr % 4 = 0 := by rwa [h.addr]
  have haligned : B'.Aligned pos := by
    rw [Aligned, h.length]
    exact hpos.aligned
  have htoken := h.token_eq hB hpos
  cases hok : B.token pos with
  | error e => rw [nextPropertyAt, nextPropertyAt, tokenExpect, tokenExpect, htoken, hok]; rfl
  | ok r =>
    obtain ⟨t, p, ht⟩ := tokenAt_of_token hB hpos.aligned hok
    have ht' := h.tokenAt ht hpos
    by_cases hprop : t = some .prop
    · subst hprop
      have hwords : p + 12 ≤ q + 12 ∨ q + 12 + B.word (q + 4) ≤ p := by
        obtain ⟨next, hnext, hle⟩ | rfl | hge := h.property.cases (ht.reached hpos)
        · have := hnext.of_prop ht.tryFrom
          omega
        · exact .inl le_rfl
        · exact .inr hge
      have hsize : B'.word (p + 4) = B.word (p + 4) := h.word_eq (by omega)
      have hname : B'.word (p + 8) = B.word (p + 8) := h.word_eq (by omega)
      rw [nextPropertyAt_of_prop hB ht hpos.aligned, nextPropertyAt_of_prop haddr ht' haligned,
        h.length, h.strs, hsize, hname]
    · rw [nextPropertyAt_of_other hB ht hprop hpos.aligned,
        nextPropertyAt_of_other haddr ht' hprop haligned]

theorem nextSubnode_eq (hpos : B.Clean pos) : B'.nextSubnode pos = B.nextSubnode pos := by
  have haddr : B'.addr % 4 = 0 := by rwa [h.addr]
  have haligned : B'.Aligned pos := by
    rw [Aligned, h.length]
    exact hpos.aligned
  have htoken := h.token_eq hB hpos
  cases hok : B.token pos with
  | error e => rw [nextSubnode, nextSubnode, tokenExpect, tokenExpect, htoken, hok]; rfl
  | ok r =>
    obtain ⟨t, p, ht⟩ := tokenAt_of_token hB hpos.aligned hok
    have ht' := h.tokenAt ht hpos
    by_cases hbegin : t = some .beginNode
    · subst hbegin
      obtain ⟨hfind, htake⟩ := h.name_eq (ht.reached hpos) ht.tryFrom
      rw [nextSubnode_of_beginNode hB ht hpos.aligned, nextSubnode_of_beginNode haddr ht' haligned,
        hfind, h.length]
      cases hi : (B.data.drop (p + 4)).findIdx? (· = 0) with
      | none => rfl
      | some i => simp only [htake i hi]
    · rw [nextSubnode_of_other hB ht hbegin hpos.aligned,
        nextSubnode_of_other haddr ht' hbegin haligned]

theorem skipProperties_eq (hpos : B.Clean pos) : B'.skipProperties pos = B.skipProperties pos := by
  have haddr : B'.addr % 4 = 0 := by rwa [h.addr]
  rw [skipProperties, fuel, h.length]
  refine loop_congr (I := B.Clean) ?_ ?_ _ hpos
  · intro s hs
    have haligned : B'.Aligned s := by
      rw [Aligned, h.length]
      exact hs.aligned
    rw [skipPropertiesRound, skipPropertiesRound, nextProperty,
      nextProperty, h.nextPropertyAt_eq hB hs]
    cases B.nextPropertyAt s with
    | error e => rfl
    | ok r =>
      obtain ⟨_ | x, p⟩ := r
      · rfl
      · rfl
  · intro s s' hs hround
    obtain ⟨⟨property, p⟩, hnext, hx⟩ := bind_eq_ok.mp hround
    have hp := clean_of_nextProperty hB hs hnext
    dsimp only at hx
    split at hx
    · obtain rfl := Sum.inl.inj (ok.inj hx)
      exact hp
    · cases hx

theorem skipNodeRound_eq {s : Nat × Nat} (hs : B.Clean s.2) :
    B'.skipNodeRound s = B.skipNodeRound s := by
  obtain ⟨_ | pending, pos⟩ := s
  · rfl
  · rw [skipNodeRound, skipNodeRound, h.nextSubnode_eq hB hs]
    cases hnext : B.nextSubnode pos with
    | error e => rfl
    | ok r =>
      obtain ⟨_ | name, p⟩ := r
      · have hp := clean_of_nextSubnode hB hs hnext
        simp only [bind, Except.bind, h.token_eq hB hp, collapse, h.length]
      · have hp := clean_of_nextSubnode hB hs hnext
        simp only [bind, Except.bind, h.skipProperties_eq hB hp]

theorem skipNode_eq (hpos : B.Clean pos) : B'.skipNode pos = B.skipNode pos := by
  rw [skipNode, skipNode, h.skipProperties_eq hB hpos]
  cases hfirst : B.skipProperties pos with
  | error e => rfl
  | ok p =>
    change loop _ _ _ _ = loop _ _ _ _
    rw [fuel, h.length]
    exact loop_congr (I := fun s => B.Clean s.2) (fun s hs => h.skipNodeRound_eq hB hs)
      (fun s s' hs hround => clean_of_skipNodeRound hB hs hround) _
      (clean_of_skipProperties hB hpos hfirst)

theorem findChild_eq (name : List Byte) (hpos : B.Clean pos) :
    B'.findChild name pos = B.findChild name pos := by
  rw [findChild, findChild, h.skipProperties_eq hB hpos]
  cases hfirst : B.skipProperties pos with
  | error e => rfl
  | ok p =>
    change loop _ _ _ _ = loop _ _ _ _
    rw [fuel, h.length]
    refine loop_congr (I := B.Clean) (fun s hs => ?_)
      (fun s s' hs hround => clean_of_findChildRound hB hs hround) _
      (clean_of_skipProperties hB hpos hfirst)
    rw [findChildRound, findChildRound, h.nextSubnode_eq hB hs]
    cases hnext : B.nextSubnode s with
    | error e => rfl
    | ok r =>
      obtain ⟨_ | name', p⟩ := r
      · rfl
      · have hp := clean_of_nextSubnode hB hs hnext
        simp only [bind, Except.bind, h.skipNode_eq hB hp]

/-- Every operation leads to the same node. -/
theorem visit_eq (hpos : B.Clean pos) (op : FdtOp) : B'.visit pos op = B.visit pos op := by
  cases op with
  | findChild name => rw [visit, visit, h.findChild_eq hB name hpos]
  | firstChild =>
    rw [visit, visit, firstChild, firstChild, h.skipProperties_eq hB hpos]
    cases hskip : B.skipProperties pos with
    | error e => rfl
    | ok p =>
      have hp := clean_of_skipProperties hB hpos hskip
      simp only [bind, Except.bind, h.nextSubnode_eq hB hp]
  | nextSibling =>
    rw [visit, visit, nextSibling, nextSibling, h.skipNode_eq hB hpos]
    cases hskip : B.skipNode pos with
    | error e => rfl
    | ok r =>
      obtain ⟨found, p⟩ := r
      have hp := clean_of_skipNode hB hpos hskip
      simp only [bind, Except.bind, h.nextSubnode_eq hB hp]

theorem readPropertyAt_eq (name : List Byte) (hpos : B.Clean pos) :
    B'.readPropertyAt name pos = B.readPropertyAt name pos := by
  rw [readPropertyAt, fuel, h.length]
  refine loop_congr (I := B.Clean) (fun s hs => ?_)
    (fun s s' hs hround => clean_of_readPropertyAtRound hB hs hround) _ hpos
  rw [readPropertyAtRound, readPropertyAtRound, h.nextPropertyAt_eq hB hs]

end Equations

end Rewrites

end FdtBlocks

end Hafnium
