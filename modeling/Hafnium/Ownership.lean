import Hafnium.Mm.Attributes
import Hafnium.Sharing

/-!
# Ownership of pages

The states of a page in all VMs, and the moves that transfers and mailbox
configuration make on them.  At any time a page belongs to nobody, to one VM, to
one VM that lends it to or shares it with another, or to the hypervisor as the
mailbox page of a VM; every move leads from one of these situations to another.
The checks of the source functions only let such moves through.
-/

namespace Hafnium

namespace PageState

/-- Valid, owned and exclusive. -/
def exclusiveOwner : PageState := ⟨true, true, true⟩

/-- The owner of lent memory. -/
def lender : PageState := ⟨false, true, true⟩

/-- The VM that memory is lent to. -/
def borrower : PageState := ⟨true, false, true⟩

/-- The owner of shared memory. -/
def sharer : PageState := ⟨true, true, false⟩

/-- The VM that memory is shared with; also a VM in relation to its mailbox. -/
def sharee : PageState := ⟨true, false, false⟩

end PageState

open PageState Function Option PageTable SpciMemoryShare List

/-! ## Situations of a page -/

section Situations

variable {V : Type}

/-- The situations that a page can be in, by its state in every VM. -/
inductive Owned (st : V → PageState) : Prop
  | nobody (rest : ∀ k, st k = .none)
  | exclusive (i : V) (owner : st i = exclusiveOwner) (rest : ∀ k, k ≠ i → st k = .none)
  | lent (i j : V) (ne : i ≠ j) (owner : st i = lender) (other : st j = borrower)
      (rest : ∀ k, k ≠ i → k ≠ j → st k = .none)
  | shared (i j : V) (ne : i ≠ j) (owner : st i = sharer) (other : st j = sharee)
      (rest : ∀ k, k ≠ i → k ≠ j → st k = .none)
  /-- A page that a VM has given up for its mailbox. -/
  | mailbox (i : V) (owner : st i = sharee) (rest : ∀ k, k ≠ i → st k = .none)

/-- The states of sender and recipient before and after a transfer. -/
inductive Exchange : PageState → PageState → PageState → PageState → Prop
  | give (t : PageState) : Exchange exclusiveOwner t .none exclusiveOwner
  | lend (t : PageState) : Exchange exclusiveOwner t lender borrower
  | share (t : PageState) : Exchange exclusiveOwner t sharer sharee
  /-- Memory goes back to its owner. -/
  | giveBack {s t : PageState} (valid : s.valid = true) (unowned : s.owned = false)
      (owned : t.owned = true) : Exchange s t .none exclusiveOwner
  /-- The owner of lent memory donates it to the VM that has it. -/
  | donateLent : Exchange lender borrower .none exclusiveOwner
  | donateShared : Exchange sharer sharee .none exclusiveOwner

variable {st : V → PageState} {i j : V}

namespace Owned

/-- Nobody else has anything to do with exclusive memory. -/
theorem alone (h : Owned st) (hi : st i = exclusiveOwner) : ∀ k, k ≠ i → st k = .none := by
  have hne : st i ≠ .none := by rw [hi]; decide
  cases h with
  | nobody rest => exact absurd (rest i) hne
  | exclusive i' _ rest =>
    by_cases h' : i = i'
    · exact h' ▸ rest
    · exact absurd (rest i h') hne
  | lent i' j' _ owner other rest | shared i' j' _ owner other rest =>
    by_cases h₁ : i = i'
    · rw [h₁, owner] at hi
      exact absurd hi (by decide)
    by_cases h₂ : i = j'
    · rw [h₂, other] at hi
      exact absurd hi (by decide)
    exact absurd (rest i h₁ h₂) hne
  | mailbox i' owner rest =>
    by_cases h' : i = i'
    · rw [h', owner] at hi
      exact absurd hi (by decide)
    · exact absurd (rest i h') hne

/-- Besides an owner at most one VM has something to do with a page. -/
theorem pair (h : Owned st) (hij : i ≠ j) (hi : (st i).owned = true) (hj : st j ≠ .none) :
    ∀ k, k ≠ i → k ≠ j → st k = .none := by
  have hi' : st i ≠ .none := fun h' => by rw [h'] at hi; exact absurd hi (by decide)
  cases h with
  | nobody rest => exact absurd (rest j) hj
  | exclusive i' _ rest | mailbox i' _ rest =>
    have h₁ : i = i' := by_contra fun h' => hi' (rest i h')
    have h₂ : j = i' := by_contra fun h' => hj (rest j h')
    exact absurd (h₁.trans h₂.symm) hij
  | lent i' j' _ _ other rest | shared i' j' _ _ other rest =>
    intro k hki hkj
    have h₁ : i = i' := by
      by_contra h₁
      by_cases h₂ : i = j'
      · rw [h₂, other] at hi
        exact absurd hi (by decide)
      · exact hi' (rest i h₁ h₂)
    have h₂ : j = j' := by_contra fun h₂ => hj (rest j (h₁ ▸ hij.symm) h₂)
    exact rest k (h₁ ▸ hki) (h₂ ▸ hkj)

/-- A transfer between two VMs affects nobody else. -/
theorem exchange_rest (h : Owned st) (hij : i ≠ j) {s t : PageState}
    (hx : Exchange (st i) (st j) s t) : ∀ k, k ≠ i → k ≠ j → st k = .none := by
  generalize hsi : st i = si at hx
  generalize hsj : st j = sj at hx
  cases hx with
  | give | lend | share => exact fun k hki _ => h.alone hsi k hki
  | giveBack valid _ owned =>
    refine fun k hki hkj => h.pair hij.symm (hsj ▸ owned) ?_ k hkj hki
    rintro hnone
    rw [← hsi, hnone] at valid
    exact absurd valid (by decide)
  | donateLent | donateShared => exact h.pair hij (by rw [hsi]; decide) (by rw [hsj]; decide)

variable [DecidableEq V]

/-- Transfers lead to owned pages. -/
theorem exchange (h : Owned st) (hij : i ≠ j) {s t : PageState}
    (hx : Exchange (st i) (st j) s t) : Owned (update (update st j t) i s) := by
  have hrest := h.exchange_rest hij hx
  have hi : update (update st j t) i s i = s := by simp
  have hj : update (update st j t) i s j = t := by simp [hij.symm]
  have hk : ∀ k, k ≠ i → k ≠ j → update (update st j t) i s k = .none := by
    intro k hki hkj
    rw [update_of_ne hki, update_of_ne hkj, hrest k hki hkj]
  generalize st i = si at hx
  generalize st j = sj at hx
  cases hx with
  | lend => exact .lent i j hij hi hj hk
  | share => exact .shared i j hij hi hj hk
  | give | giveBack | donateLent | donateShared =>
    refine .exclusive j hj fun k hkj => ?_
    by_cases hki : k = i
    · rw [hki, hi]
    · exact hk k hki hkj

/-- Giving up an exclusive page for a mailbox. -/
theorem configure (h : Owned st) (hi : st i = exclusiveOwner) :
    Owned (update st i sharee) := by
  refine .mailbox i (by simp) fun k hk => ?_
  rw [update_of_ne hk, h.alone hi k hk]

end Owned

theorem Exchange.owned {s t s' t' : PageState} (hx : Exchange s t s' t') :
    s.owned = true ∨ t.owned = true := by
  cases hx with
  | giveBack _ _ owned => exact Or.inr owned
  | give | lend | share | donateLent | donateShared => exact Or.inl rfl

/-- What a memory message does to the states of sender and recipient. -/
inductive ShareMove : SpciMemoryShare → PageState → PageState → PageState → PageState → Prop
  | donate : ShareMove .donate exclusiveOwner .none .none exclusiveOwner
  | donateLent : ShareMove .donate lender borrower .none exclusiveOwner
  | donateShared : ShareMove .donate sharer sharee .none exclusiveOwner
  | lend : ShareMove .lend exclusiveOwner .none sharer sharee
  | relinquishLent : ShareMove .relinquish borrower lender .none exclusiveOwner
  | relinquishShared : ShareMove .relinquish sharee sharer .none exclusiveOwner

theorem ShareMove.exchange {share : SpciMemoryShare} {s t s' t' : PageState}
    (h : ShareMove share s t s' t') : Exchange s t s' t' := by
  cases h with
  | donate => exact .give _
  | donateLent => exact .donateLent
  | donateShared => exact .donateShared
  | lend => exact .share _
  | relinquishLent | relinquishShared => exact .giveBack rfl rfl rfl

/-- A transfer always changes the state of the sender. -/
theorem Exchange.ne {s t s' t' : PageState} (hx : Exchange s t s' t') : s' ≠ s := by
  cases hx with
  | giveBack valid _ _ =>
    rintro rfl
    exact absurd valid (by decide)
  | give | lend | share | donateLent | donateShared => decide

end Situations

/-! ## What the checks establish -/

/-- The state that a mode stands for depends on its sharing flags only. -/
theorem PageState.ofMode_congr {m m' : Mode} (h : m &&& Mode.stateMask = m' &&& Mode.stateMask) :
    ofMode m = ofMode m' := by
  have hflag : ∀ f : Mode, Mode.stateMask &&& f = f → m.contains f = m'.contains f := by
    intro f hf
    rw [Mode.contains, Mode.contains, ← hf, ← BitVec.and_assoc, ← BitVec.and_assoc, h]
  rw [ofMode, ofMode, hflag Mode.INVALID (by decide), hflag Mode.UNOWNED (by decide),
    hflag Mode.SHARED (by decide)]

section Checks

variable {S : Stage} {fromPtable toPtable : PageTable S} {begin endAddr : Nat}

/-- A range that is present in the table of a VM with one mode. -/
structure Held (begin endAddr : Nat) (ptable : PageTable S) (orig : Mode) : Prop where
  uniform : ptable.Uniform begin endAddr orig
  present : ((ofMode orig).valid || (ofMode orig).owned) = true

/-- The sender may transfer a range; `orig` is its mode. -/
structure Granted (begin endAddr : Nat) (fromPtable toPtable : PageTable S)
    (orig fromMode toMode : Mode) : Prop extends Held begin endAddr fromPtable orig where
  exchange : ∀ a, begin ≤ a → a < endAddr → Exchange (ofView (fromPtable.view a))
    (ofView (toPtable.view a)) (ofMode fromMode).normal (ofMode toMode).normal

theorem granted_of_shareMemoryCheck (hS : S.Valid) {request : HfShare} {orig : Mode}
    (hend : endAddr < 2 ^ 64)
    (h : shareMemoryCheck request begin endAddr fromPtable toPtable = some orig) :
    Granted begin endAddr fromPtable toPtable orig request.modes.1 request.modes.2 := by
  rw [shareMemoryCheck] at h
  split at h
  · simp at h
  rename_i haligned
  simp only [isAligned, Bool.or_eq_true, Bool.not_eq_true', beq_eq_false_iff_ne, not_or,
    not_not] at haligned
  obtain ⟨orig', hmode, h⟩ := bind_eq_some_iff.mp h
  have huniform := uniform_of_getMode hS haligned.1 haligned.2 hend hmode
  split at h
  · simp at h
  rename_i hvalid
  have hvalid' : (ofMode orig').valid = true := by simpa [ofMode] using hvalid
  split at h
  · -- memory that the sender does not own goes back to its owner
    rename_i hunowned
    obtain ⟨toMode, hto, h⟩ := bind_eq_some_iff.mp h
    have huniform' := uniform_of_getMode hS haligned.1 haligned.2 hend hto
    split at h
    · simp at h
    split at h
    · simp at h
    rename_i howner hgive
    cases h
    rw [not_not] at hgive
    subst hgive
    refine ⟨⟨huniform, by simp [hvalid']⟩, fun a hlo hhi => ?_⟩
    rw [huniform.state hlo hhi, huniform'.state hlo hhi]
    have howner' : (ofMode toMode).owned = true := by simpa [ofMode] using howner
    have hunowned' : (ofMode orig).owned = false := by simpa [ofMode] using hunowned
    refine .giveBack ?_ ?_ ?_ <;> simp [normal, hvalid', howner', hunowned']
  · split at h
    · simp at h
    rename_i howned hexclusive
    cases h
    refine ⟨⟨huniform, by simp [hvalid']⟩, fun a hlo hhi => ?_⟩
    have hstate : ofMode orig = exclusiveOwner := by
      simp [ofMode, exclusiveOwner, hvalid, howned, hexclusive]
    rw [huniform.state hlo hhi, hstate]
    cases request with
    | give => exact .give _
    | lend => exact .lend _
    | share => exact .share _

/-- The transition tables are those of the memory messages. -/
theorem shareMove_of_transition {share : SpciMemoryShare} {transition : SpciMemTransitions}
    (h : transition ∈ share.transitions) :
    ((ofMode transition.origFromMode).valid || (ofMode transition.origFromMode).owned) = true ∧
      ShareMove share (ofMode transition.origFromMode).normal (ofMode transition.origToMode).normal
        (ofMode transition.fromMode).normal (ofMode transition.toMode).normal := by
  cases share with
  | donate =>
    simp only [transitions, donateTransitions, mem_cons,
      not_mem_nil, or_false] at h
    rcases h with rfl | rfl | rfl | rfl
    · exact ⟨by decide, .donate⟩
    · exact ⟨by decide, .donateLent⟩
    · exact ⟨by decide, .donateShared⟩
    · exact ⟨by decide, .donate⟩
  | relinquish =>
    simp only [transitions, relinquishTransitions, mem_cons,
      not_mem_nil, or_false] at h
    rcases h with rfl | rfl
    · exact ⟨by decide, .relinquishLent⟩
    · exact ⟨by decide, .relinquishShared⟩
  | lend =>
    simp only [transitions, sharedLendTransitions, mem_cons,
      not_mem_nil, or_false] at h
    rcases h with rfl | rfl <;> exact ⟨by decide, .lend⟩

/-- The sharing flags of the next modes are those of the transition. -/
theorem spciMsgGetNextState_spec {transitions : List SpciMemTransitions}
    {memoryToAttributes origFromMode origToMode fromMode toMode : Mode}
    (h : spciMsgGetNextState transitions memoryToAttributes origFromMode origToMode =
      some (fromMode, toMode)) :
    ∃ transition ∈ transitions, ofMode origFromMode = ofMode transition.origFromMode ∧
      ofMode origToMode = ofMode transition.origToMode ∧
      ofMode fromMode = ofMode transition.fromMode ∧
      (memoryToAttributes &&& Mode.stateMask = 0 → ofMode toMode = ofMode transition.toMode) := by
  obtain ⟨transition, hmem, h⟩ := exists_of_findSome?_eq_some h
  rw [ite_none_right_eq_some, some.injEq, Prod.mk.injEq] at h
  obtain ⟨⟨hfrom, hto⟩, hfrom', hto'⟩ := h
  refine ⟨transition, hmem, ofMode_congr ?_, ofMode_congr ?_, ofMode_congr ?_, fun hattrs =>
    ofMode_congr ?_⟩
  · rw [← hfrom, BitVec.and_assoc, BitVec.and_self]
  · rw [← hto, BitVec.and_assoc, BitVec.and_self]
  · rw [← hfrom', BitVec.and_comm, BitVec.and_or_distrib_left,
      BitVec.and_comm _ transition.fromMode,
      ← BitVec.and_assoc, show Mode.stateMask &&& (Mode.all &&& ~~~Mode.stateMask) = 0#32 by decide]
    simp
  · rw [← hto', BitVec.and_comm, BitVec.and_or_distrib_left, BitVec.and_comm _ transition.toMode,
      BitVec.and_comm _ memoryToAttributes, hattrs]
    simp

/-- A lawful transition starts from memory that the sender holds, and the pages
change their situation if the recipient's attributes have no sharing flags. -/
theorem spciMsgCheckTransition_spec (hS : S.Valid) {share : SpciMemoryShare}
    {memoryToAttributes orig fromMode toMode : Mode} (hend : endAddr < 2 ^ 64)
    (h : spciMsgCheckTransition toPtable fromPtable share begin endAddr memoryToAttributes =
      some (orig, fromMode, toMode)) :
    Held begin endAddr fromPtable orig ∧ (memoryToAttributes &&& Mode.stateMask = 0 →
      ∀ a, begin ≤ a → a < endAddr → ShareMove share (ofView (fromPtable.view a))
        (ofView (toPtable.view a)) (ofMode fromMode).normal (ofMode toMode).normal) := by
  rw [spciMsgCheckTransition] at h
  split at h
  · simp at h
  rename_i haligned
  simp only [isAligned, Bool.or_eq_true, Bool.not_eq_true', beq_eq_false_iff_ne, not_or,
    not_not] at haligned
  obtain ⟨orig', hmode, h⟩ := bind_eq_some_iff.mp h
  obtain ⟨origTo, hto, h⟩ := bind_eq_some_iff.mp h
  obtain ⟨⟨fromMode', toMode'⟩, hnext, h⟩ := map_eq_some_iff.mp h
  cases h
  have huniform := uniform_of_getMode hS haligned.1 haligned.2 hend hmode
  have huniform' := uniform_of_getMode hS haligned.1 haligned.2 hend hto
  obtain ⟨transition, hmem, hf, ht, hf', ht'⟩ := spciMsgGetNextState_spec hnext
  obtain ⟨hpresent, hmove⟩ := shareMove_of_transition hmem
  refine ⟨⟨huniform, by rwa [hf]⟩, fun hattrs a hlo hhi => ?_⟩
  rw [huniform.state hlo hhi, huniform'.state hlo hhi, hf, ht, hf', ht' hattrs]
  exact hmove

/-- A page that may become a mailbox page. -/
theorem ofMode_of_validOwnedExclusive {mode : Mode} (h : mode.validOwnedExclusive = true) :
    ofMode mode = exclusiveOwner := by
  have hzero : mode &&& Mode.stateMask = 0#32 := by
    simpa [Mode.validOwnedExclusive, Mode.intersects, Mode.stateMask] using h
  exact (ofMode_congr (hzero.trans (by decide))).trans (by decide : ofMode 0#32 = exclusiveOwner)

/-- The checks of `configure` find two distinct pages that are exclusive to the VM. -/
theorem configureCheck_spec (hS : S.Valid) {send recv : Nat} {ptable : PageTable S}
    {origSend origRecv : Mode} (h : configureCheck send recv ptable = some (origSend, origRecv)) :
    (pageEnd send ≤ recv ∨ pageEnd recv ≤ send) ∧
      (Held send (pageEnd send) ptable origSend ∧ ofMode origSend = exclusiveOwner) ∧
      Held recv (pageEnd recv) ptable origRecv ∧ ofMode origRecv = exclusiveOwner := by
  have hpage : ∀ {addr : Nat}, addr % pageSize = 0 → pageEnd addr % pageSize = 0 := by
    intro addr haddr
    rw [pageEnd]
    rw [pageSize_eq] at haddr ⊢
    omega
  have hlt : ∀ addr, pageEnd addr < 2 ^ 64 := fun addr => Nat.mod_lt _ (by decide)
  rw [configureCheck] at h
  split at h
  · simp at h
  rename_i haligned
  simp only [isAligned, Bool.or_eq_true, Bool.not_eq_true', beq_eq_false_iff_ne, not_or,
    not_not] at haligned
  split at h
  · simp at h
  rename_i hne
  obtain ⟨origSend', hsend, h⟩ := bind_eq_some_iff.mp h
  split at h
  · simp at h
  rename_i hsendMode
  obtain ⟨origRecv', hrecv, h⟩ := bind_eq_some_iff.mp h
  split at h
  · simp at h
  rename_i hrecvMode
  cases h
  simp only [Bool.not_eq_true', Bool.not_eq_false, Bool.and_eq_true] at hsendMode hrecvMode
  have hsend' := ofMode_of_validOwnedExclusive hsendMode.1
  have hrecv' := ofMode_of_validOwnedExclusive hrecvMode.1
  refine ⟨?_, ⟨⟨uniform_of_getMode hS haligned.1 (hpage haligned.1) (hlt _) hsend,
    by rw [hsend']; rfl⟩, hsend'⟩,
    ⟨uniform_of_getMode hS haligned.2 (hpage haligned.2) (hlt _) hrecv,
      by rw [hrecv']; rfl⟩, hrecv'⟩
  have hsendEnd : pageEnd send ≤ send + pageSize := Nat.mod_le _ _
  have hrecvEnd : pageEnd recv ≤ recv + pageSize := Nat.mod_le _ _
  rw [pageSize_eq] at *
  omega

/-- The modes that messages grant have no sharing flags. -/
theorem spciMemoryAttrsToMode_stateMask (attributes : Nat) :
    spciMemoryAttrsToMode attributes &&& Mode.stateMask = 0 := by
  rw [spciMemoryAttrsToMode]
  split <;> decide

end Checks

end Hafnium
