import Hafnium.Messages
import Hafnium.Rollback
import Hafnium.Support.Run

/-!
# Isolation of VMs

Ownership of pages over whole runs.  Every step moves pages between the
situations of `Owned`, and only the pages and VMs that its operands name, except
for memory messages without constituents.
-/

namespace Hafnium

open Support Aarch64 PageState Function List

/-! ## States of pages in page tables -/

theorem PageState.ofView_attrsView (attrs : BitVec 64) :
    ofView (attrsView attrs) = (ofAttrs attrs).normal := by
  rw [attrsView, normal]
  cases h : archMmPteIsPresent attrs 0 with
  | true => exact (if_pos h).symm
  | false => exact (if_neg (ne_true_of_eq_false h)).symm

section Views

variable {S : Stage} (hkind : S.kind = .stage2)
include hkind

theorem PageState.ofAttrs_modeToAttrs (mode : Mode) :
    ofAttrs (S.modeToAttrs aarch64 mode) = ofMode mode := by
  rw [Stage.modeToAttrs, hkind]
  exact ofAttrs_modeToStage2Attrs mode

theorem PageState.ofView_mappedView (begin endAddr : Nat) (mode : Mode)
    (v : Nat → Option (BitVec 64)) (a : Nat) :
    ofView (mappedView begin endAddr (S.modeToAttrs aarch64 mode) v a) =
      if begin ≤ a ∧ a < endAddr then (ofMode mode).normal else ofView (v a) := by
  rw [mappedView]
  split
  · rw [ofView_attrsView, ofAttrs_modeToAttrs hkind]
  · rfl

/-- Mapping pages with the mode read from them keeps their states. -/
theorem Reread.state {pt : PageTable S} {v : Nat → Option (BitVec 64)} (h : Reread S pt.view v)
    (a : Nat) : ofView (v a) = ofView (pt.view a) := by
  rcases h a with h | ⟨orig, horig, h⟩
  · rw [h]
  · obtain ⟨x, -, hx⟩ := Option.bind_eq_some_iff.mp horig
    rw [h, horig, ← hx, ofView_leaf, ofView_attrsView, restoredAttrs,
      ofAttrs_modeToAttrs hkind, ofMode_attrsToMode]
    rw [Leaf.view, Option.ite_none_right_eq_some, Option.some.injEq] at hx
    rw [hx.2]

end Views

namespace Hypervisor

variable {M : Machine} {s s' s'' : Hypervisor M}

/-- The state of a page in the table of a VM. -/
def pageState (s : Hypervisor M) (a : Nat) (i : M.VmIndex) :
    PageState := .ofView ((s.ptable i).view a)

/-- All page tables are well-formed, and the pages of the pool can be used. -/
structure Sound (s : Hypervisor M) : Prop where
  kind : M.stage.kind = .stage2
  ptable : ∀ i, (s.ptable i).Regular false
  hypervisorPtable : s.hypervisorPtable.Regular false
  mpool : s.mpool.Wf

namespace Sound

theorem congr (hs : s.Sound) (hptable : s'.ptable = s.ptable)
    (hhypervisor : s'.hypervisorPtable = s.hypervisorPtable) (hmpool : s'.mpool = s.mpool) :
    s'.Sound :=
  ⟨hs.kind, by rw [hptable]; exact hs.ptable, by rw [hhypervisor]; exact hs.hypervisorPtable,
    by rw [hmpool]; exact hs.mpool⟩

theorem transfer (hs : s.Sound) (i j : M.VmIndex) : (s.transfer i j).Regular false :=
  ⟨hs.ptable i, hs.ptable j, hs.hypervisorPtable, MPool.wf_newWithFallback hs.mpool⟩

theorem mailboxSetup (hs : s.Sound) (i : M.VmIndex) : (s.mailboxSetup i).Regular false :=
  ⟨hs.ptable i, hs.hypervisorPtable, MPool.wf_newWithFallback hs.mpool⟩

theorem drop (hs : s.Sound) {pool : MPool} (hpool : pool.Wf) : (pool.drop.getD s.mpool).Wf := by
  cases hdrop : pool.drop with
  | none => exact hs.mpool
  | some mpool => exact MPool.wf_drop hpool hdrop

theorem putTransfer (hs : s.Sound) (i j : M.VmIndex) {t : Transfer M.stage M.hypervisorStage}
    (ht : t.Regular false) : (s.putTransfer i j t).Sound := by
  refine ⟨hs.kind, fun k => ?_, ht.hypervisorPtable, hs.drop ht.pool⟩
  by_cases hi : k = i
  · subst hi
    simpa [Hypervisor.putTransfer] using ht.fromPtable
  by_cases hj : k = j
  · subst hj
    simpa [Hypervisor.putTransfer, hi] using ht.toPtable
  · simpa [Hypervisor.putTransfer, hi, hj] using hs.ptable k

theorem putMailboxSetup (hs : s.Sound) (i : M.VmIndex)
    {t : MailboxSetup M.stage M.hypervisorStage} (ht : t.Regular false) :
    (s.putMailboxSetup i t).Sound := by
  refine ⟨hs.kind, fun k => ?_, ht.hypervisorPtable, hs.drop ht.pool⟩
  by_cases hi : k = i
  · subst hi
    simpa [Hypervisor.putMailboxSetup] using ht.ptable
  · simpa [Hypervisor.putMailboxSetup, hi] using hs.ptable k

end Sound

/-! ## Moves -/

/-- The pages of a mailbox. -/
def MailboxPages (send recv a : Nat) : Prop :=
  (send ≤ a ∧ a < pageEnd send) ∨ (recv ≤ a ∧ a < pageEnd recv)

/-- The pages of a range have been transferred between two VMs. -/
structure Exchanged (s s' : Hypervisor M) (i j : M.VmIndex) (begin endAddr : Nat) : Prop where
  ne : i ≠ j
  lt : begin < endAddr
  moved : ∀ a, begin ≤ a → a < endAddr → Exchange (s.pageState a i) (s.pageState a j)
    (s'.pageState a i) (s'.pageState a j)
  frame : ∀ a k, ¬((begin ≤ a ∧ a < endAddr) ∧ (k = i ∨ k = j)) → s'.pageState a k = s.pageState a k

theorem Exchanged.congr {t t' : Hypervisor M} {i j : M.VmIndex} {begin endAddr : Nat}
    (h : s.Exchanged s' i j begin endAddr) (hs : t.pageState = s.pageState)
    (hs' : t'.pageState = s'.pageState) : t.Exchanged t' i j begin endAddr :=
  ⟨h.ne, h.lt, by rw [hs, hs']; exact h.moved, by rw [hs, hs']; exact h.frame⟩

/-- A memory message has been obeyed: its first constituent has made the
transition of the message. -/
structure Shared (s s' : Hypervisor M) (i j : M.VmIndex) (share : SpciMemoryShare)
    (c : SpciMemoryRegionConstituent) : Prop where
  type : s.messageType i = some share
  head : s.described i ≠ [] → (s.described i).head? = some c
  exchanged : s.Exchanged s' i j c.address (c.address + c.pageCount * pageSize)
  move : ∀ a, c.Covers a → ShareMove share (s.pageState a i) (s.pageState a j)
    (s'.pageState a i) (s'.pageState a j)

/-- What a step does to the states of all pages.  The index tells which pages
change in which VMs. -/
inductive PageMove (s s' : Hypervisor M) : (Nat → M.VmIndex → Prop) → Prop
  | none (same : s'.pageState = s.pageState) : PageMove s s' fun _ _ => False
  | transfer {i j : M.VmIndex} {begin endAddr : Nat} (h : s.Exchanged s' i j begin endAddr) :
      PageMove s s' fun a k => (begin ≤ a ∧ a < endAddr) ∧ (k = i ∨ k = j)
  | configure {i : M.VmIndex} {send recv : Nat}
      (taken : ∀ a, MailboxPages send recv a →
        s.pageState a i = .exclusiveOwner ∧ s'.pageState a i = .sharee)
      (frame : ∀ a k, ¬(MailboxPages send recv a ∧ k = i) → s'.pageState a k = s.pageState a k) :
      PageMove s s' fun a k => MailboxPages send recv a ∧ k = i

namespace PageMove

variable {P : Nat → M.VmIndex → Prop}

theorem congr {t t' : Hypervisor M} (h : PageMove s s' P) (hs : t.pageState = s.pageState)
    (hs' : t'.pageState = s'.pageState) : PageMove t t' P := by
  cases h with
  | none same => exact .none (by rw [hs, hs', same])
  | transfer h => exact .transfer (h.congr hs hs')
  | configure taken frame => exact .configure (by rwa [hs, hs']) (by rwa [hs, hs'])

theorem frame (h : PageMove s s' P) {a : Nat} {k : M.VmIndex} (hP : ¬P a k) :
    s'.pageState a k = s.pageState a k := by
  cases h with
  | none same => rw [same]
  | transfer h => exact h.frame a k hP
  | configure _ frame => exact frame a k hP

/-- Pages that nobody owns stay as they are. -/
theorem unowned (h : PageMove s s' P) {a : Nat} (hun : ∀ k, (s.pageState a k).owned = false) :
    s'.pageState a = s.pageState a := by
  funext k
  refine h.frame fun hP => ?_
  cases h with
  | none => exact hP
  | @transfer i j _ _ h =>
    rcases (h.moved a hP.1.1 hP.1.2).owned with howned | howned
    · rw [hun i] at howned
      exact absurd howned Bool.false_ne_true
    · rw [hun j] at howned
      exact absurd howned Bool.false_ne_true
  | @configure i _ _ taken =>
    have howned := hun i
    rw [(taken a hP.1).1] at howned
    exact absurd howned (by decide)

theorem owned (h : PageMove s s' P) (howned : ∀ a, Owned (s.pageState a)) (a : Nat) :
    Owned (s'.pageState a) := by
  cases h with
  | none same => rw [same]; exact howned a
  | @transfer i j begin endAddr h =>
    by_cases ha : begin ≤ a ∧ a < endAddr
    · have hx := (howned a).exchange h.ne (h.moved a ha.1 ha.2)
      refine (congrArg Owned ?_).mpr hx
      funext k
      by_cases hi : k = i
      · rw [hi, update_self]
      by_cases hj : k = j
      · rw [hj, update_of_ne h.ne.symm, update_self]
      · rw [update_of_ne hi, update_of_ne hj]
        exact h.frame a k fun h => h.2.elim hi hj
    · refine (congrArg Owned (funext fun k => ?_)).mpr (howned a)
      exact h.frame a k fun h => ha h.1
  | @configure i send recv taken frame =>
    by_cases ha : MailboxPages send recv a
    · have hx := (howned a).configure (taken a ha).1
      refine (congrArg Owned ?_).mpr hx
      funext k
      by_cases hi : k = i
      · rw [hi, update_self]
        exact (taken a ha).2
      · rw [update_of_ne hi]
        exact frame a k fun h => hi h.2
    · refine (congrArg Owned (funext fun k => ?_)).mpr (howned a)
      exact frame a k fun h => ha h.1

end PageMove

/-! ## Calls -/

section Calls

variable {i j k : M.VmIndex} {t : Transfer M.stage M.hypervisorStage}

theorem putTransfer_ptable (hij : i ≠ j) :
    (s.putTransfer i j t).ptable i = t.fromPtable ∧ (s.putTransfer i j t).ptable j = t.toPtable ∧
      ∀ k, k ≠ i → k ≠ j → (s.putTransfer i j t).ptable k = s.ptable k := by
  refine ⟨?_, ?_, fun k hi hj => ?_⟩
  · exact update_self _ _ _
  · exact (update_of_ne hij.symm _ _).trans (update_self _ _ _)
  · exact (update_of_ne hi _ _).trans (update_of_ne hj _ _)

/-- A transfer that is undone changes nothing. -/
theorem pageState_of_undone (hs : s.Sound) (hij : i ≠ j) (h : Transfer.Undone (s.transfer i j) t) :
    (s.putTransfer i j t).pageState = s.pageState := by
  obtain ⟨hi, hj, hk⟩ := putTransfer_ptable (s := s) (t := t) hij
  funext a k
  by_cases hki : k = i
  · rw [hki, pageState, hi]
    exact h.fromView.state hs.kind a
  by_cases hkj : k = j
  · rw [hkj, pageState, hj, h.toView]
    rfl
  · rw [pageState, hk k hki hkj]
    rfl

/-- The states after a completed transfer. -/
theorem pageState_of_done (hs : s.Sound) (hij : i ≠ j) {begin endAddr : Nat}
    {fromMode toMode : Mode}
    (h : Transfer.Done begin endAddr fromMode toMode (s.transfer i j) t) (a : Nat) :
    ((s.putTransfer i j t).pageState a i = if begin ≤ a ∧ a < endAddr then
        (ofMode fromMode).normal else s.pageState a i) ∧
      ((s.putTransfer i j t).pageState a j = if begin ≤ a ∧ a < endAddr then
        (ofMode toMode).normal else s.pageState a j) ∧
      ∀ k, k ≠ i → k ≠ j → (s.putTransfer i j t).pageState a k = s.pageState a k := by
  obtain ⟨hi, hj, hk⟩ := putTransfer_ptable (s := s) (t := t) hij
  refine ⟨?_, ?_, fun k hki hkj => ?_⟩
  · rw [pageState, hi, h.fromView, ofView_mappedView hs.kind]
    rfl
  · rw [pageState, hj, h.toView, ofView_mappedView hs.kind]
    rfl
  · rw [pageState, hk k hki hkj]
    rfl

theorem exchanged_of_done (hs : s.Sound) (hij : i ≠ j) {begin endAddr : Nat}
    {fromMode toMode : Mode} (hlt : begin < endAddr)
    (hexchange : ∀ a, begin ≤ a → a < endAddr → Exchange (s.pageState a i) (s.pageState a j)
      (ofMode fromMode).normal (ofMode toMode).normal)
    (h : Transfer.Done begin endAddr fromMode toMode (s.transfer i j) t) :
    s.Exchanged (s.putTransfer i j t) i j begin endAddr := by
  refine ⟨hij, hlt, fun a hlo hhi => ?_, fun a k hout => ?_⟩
  · obtain ⟨hi, hj, -⟩ := pageState_of_done hs hij h a
    rw [hi, hj, if_pos ⟨hlo, hhi⟩, if_pos ⟨hlo, hhi⟩]
    exact hexchange a hlo hhi
  · obtain ⟨hi, hj, hk⟩ := pageState_of_done hs hij h a
    by_cases hki : k = i
    · rw [hki, hi, if_neg fun h => hout ⟨h, Or.inl hki⟩]
    by_cases hkj : k = j
    · rw [hkj, hj, if_neg fun h => hout ⟨h, Or.inr hkj⟩]
    · exact hk k hki hkj

/-- A lawful transition that has been completed moves the pages of the
constituent. -/
theorem exchanged_of_check (hs : s.Sound) (hij : i ≠ j) {share : SpciMemoryShare}
    {c : SpciMemoryRegionConstituent} (haddress : c.address < 2 ^ 64)
    (hpages : c.pageCount < 2 ^ 32) {attributes orig fromMode toMode : Mode}
    (hattrs : attributes &&& Mode.stateMask = 0)
    (hcheck : spciMsgCheckTransition (s.ptable j) (s.ptable i) share c.range.1 c.range.2
      attributes = some (orig, fromMode, toMode))
    (hdone : Transfer.Done c.range.1 c.range.2 fromMode toMode (s.transfer i j) t) :
    s.Exchanged (s.putTransfer i j t) i j c.address (c.address + c.pageCount * pageSize) ∧
      ∀ a, c.Covers a → ShareMove share (s.pageState a i) (s.pageState a j)
        ((s.putTransfer i j t).pageState a i) ((s.putTransfer i j t).pageState a j) := by
  have hend : c.range.2 < 2 ^ 64 := Nat.mod_lt _ (by decide)
  obtain ⟨hheld, hmove⟩ := spciMsgCheckTransition_spec (hs.ptable i).fits.toValid hend hcheck
  have hlt := hheld.uniform.inSpace.lt
  have hmove := hmove hattrs
  have hrange := SpciMemoryRegionConstituent.range_eq haddress hpages hlt
  rw [hrange] at hlt hmove hdone
  refine ⟨exchanged_of_done hs hij hlt (fun a hlo hhi => (hmove a hlo hhi).exchange) hdone,
    fun a ha => ?_⟩
  obtain ⟨hi, hj, -⟩ := pageState_of_done hs hij hdone a
  rw [hi.trans (if_pos ha), hj.trans (if_pos ha)]
  exact hmove a ha.1 ha.2

variable {env : Env} (hs : s.Sound) (henv : env.pool.Ok)
include hs henv

theorem shareMemory_move (vmId addr size : Nat) (request : HfShare) (current : VCpuId M) :
    Post (s.shareMemory env vmId addr size request current) (fun _ => True) fun r =>
      r.2.Sound ∧ ∃ P, PageMove s r.2 P ∧ ∀ a k, P a k →
        (k = current.vm ∨ M.vmId k = vmId) ∧ addr ≤ a ∧ a < addr + size := by
  have hsame : s.Sound ∧ ∃ P, PageMove s s P ∧ ∀ a k, P a k →
      (k = current.vm ∨ M.vmId k = vmId) ∧ addr ≤ a ∧ a < addr + size :=
    ⟨hs, _, .none rfl, fun _ _ h => h.elim⟩
  refine Post.ite (fun _ => hsame) fun hself => ?_
  refine Post.bind (M.get_post vmId).weaken fun o ho => ?_
  split
  · exact hsame
  rename_i j
  have hj := ho j rfl
  have hij : current.vm ≠ j := by
    rintro rfl
    exact hself hj.symm
  refine Post.bind (Transfer.shareMemory_post hs.kind henv (hs.transfer current.vm j) request addr
    (Nat.mod_lt _ (by decide))).weaken ?_
  rintro ⟨_ | _, t⟩ ⟨ht, hok, herr⟩
  · obtain ⟨orig, fromMode, toMode, hgranted, hdone⟩ := hok rfl
    refine ⟨hs.putTransfer _ _ ht, _, .transfer (exchanged_of_done hs hij
      hgranted.uniform.inSpace.lt hgranted.exchange hdone), fun a k h => ?_⟩
    refine ⟨h.2.imp_right fun hk => by rw [hk, hj], h.1.1, ?_⟩
    exact Nat.lt_of_lt_of_le h.1.2 (Nat.mod_le _ _)
  · exact ⟨hs.putTransfer _ _ ht, _, .none (pageState_of_undone hs hij (herr rfl)),
      fun _ _ h => h.elim⟩

/-- A configuration takes two exclusive pages from a VM, or changes nothing. -/
theorem configure_states (send recv : Nat) (i : M.VmIndex) :
    Post (s.configure env send recv i) (fun _ => True) fun r => r.2.Sound ∧
      ((r.1 = .err ∧ r.2.pageState = s.pageState) ∨ (r.1 = .ok ∧ (∀ a, MailboxPages send recv a →
            s.pageState a i = .exclusiveOwner ∧ r.2.pageState a i = .sharee) ∧
          ∀ a k, ¬(MailboxPages send recv a ∧ k = i) → r.2.pageState a k = s.pageState a k)) := by
  refine Post.ite (fun _ => ⟨hs, Or.inl ⟨rfl, rfl⟩⟩) fun _ => ?_
  refine Post.bind
    (MailboxSetup.configure_post hs.kind henv (hs.mailboxSetup i) send recv).weaken ?_
  rintro ⟨o, t⟩ ⟨ht, hok, herr⟩
  have hsound := hs.putMailboxSetup i ht
  have hptable : ∀ k, (s.putMailboxSetup i t).ptable k =
      if k = i then t.ptable else s.ptable k := fun k => update_apply _ _ _ _
  have hview : ∀ a, s.pageState a i = .ofView ((s.mailboxSetup i).ptable.view a) := fun _ => rfl
  refine Post.ite (fun ho => ⟨hsound, Or.inl ⟨rfl, ?_⟩⟩) fun ho => ?_
  · funext a k
    by_cases hk : k = i
    · rw [hk, pageState, hptable, if_pos rfl, hview]
      exact (herr ho).state hs.kind a
    · rw [pageState, hptable, if_neg hk]
      rfl
  have ho' : o = .ok := by cases o <;> simp_all
  have hconf := hok ho'
  obtain ⟨⟨sendMode, hsend, hsend'⟩, recvMode, hrecv, hrecv'⟩ := hconf.sendPage, hconf.recvPage
  have hstate : ∀ a, (s.putMailboxSetup i t).pageState a i =
      .ofView (mappedView recv (pageEnd recv) (M.stage.modeToAttrs aarch64 MailboxSetup.recvMode)
        (mappedView send (pageEnd send) (M.stage.modeToAttrs aarch64 MailboxSetup.sendMode)
          (s.ptable i).view) a) := fun a => by
    rw [pageState, hptable, if_pos rfl, hconf.view]
    rfl
  refine ⟨hsound.congr rfl rfl rfl, Or.inr ⟨rfl, fun a ha => ⟨?_, ?_⟩, fun a k hout => ?_⟩⟩
  · rw [hview]
    rcases ha with ha | ha
    · rw [hsend.uniform.state ha.1 ha.2, hsend']
      rfl
    · rw [hrecv.uniform.state ha.1 ha.2, hrecv']
      rfl
  · refine (hstate a).trans ?_
    rw [ofView_mappedView hs.kind, ofView_mappedView hs.kind]
    rcases ha with ha | ha
    · rw [if_pos ha]
      split
      · decide
      · decide
    · rw [if_pos ha]
      decide
  · by_cases hk : k = i
    · have hout' : ¬MailboxPages send recv a := fun h => hout ⟨h, hk⟩
      rw [MailboxPages, not_or] at hout'
      subst hk
      refine (hstate a).trans ?_
      rw [ofView_mappedView hs.kind, ofView_mappedView hs.kind, if_neg hout'.2, if_neg hout'.1]
      rfl
    · change ofView (((s.putMailboxSetup i t).ptable k).view a) = _
      rw [hptable, if_neg hk]
      rfl

theorem configure_move (send recv : Nat) (i : M.VmIndex) :
    Post (s.configure env send recv i) (fun _ => True) fun r =>
      r.2.Sound ∧ ∃ P, PageMove s r.2 P ∧ ∀ a k, P a k → MailboxPages send recv a ∧ k = i := by
  refine (configure_states hs henv send recv i).mono (fun _ h => h) fun r hr => ⟨hr.1, ?_⟩
  rcases hr.2 with ⟨-, hsame⟩ | ⟨-, htaken, hframe⟩
  · exact ⟨_, .none hsame, fun _ _ h => h.elim⟩
  · exact ⟨_, .configure htaken hframe, fun _ _ h => h⟩

/-- An architected message that succeeds transfers the constituent in the buffer,
which is the first that the message describes if it describes any. -/
theorem Delivery.move {msg : SpciMessage} {current : VCpuId M} {ret : SpciReturn} (hij : i ≠ j)
    (h : s.Delivery env i j msg current ret s') :
    s'.Sound ∧ ((s'.pageState = s.pageState ∧ ¬(ret = .success ∧ msg.isImpdef = false)) ∨
        (ret = .success ∧ msg.isImpdef = false) ∧ ∃ share c, s.Shared s' i j share c) := by
  cases h with
  | impdef himpdef =>
    refine ⟨hs.congr rfl rfl rfl, Or.inl ⟨rfl, fun h => ?_⟩⟩
    rw [himpdef] at h
    exact absurd h.2 nofun
  | short => exact ⟨hs, Or.inl ⟨rfl, fun h => absurd h.1 nofun⟩⟩
  | mismatch => exact ⟨hs.congr rfl rfl rfl, Or.inl ⟨rfl, fun h => absurd h.1 nofun⟩⟩
  | @shared harch hmin buffer _ share htype hcount _ t hcall =>
    have hstaged : (s.staged i buffer msg).Sound := hs.congr rfl rfl rfl
    obtain ⟨ht, hok, herr⟩ := (Transfer.spciShareMemory_post hs.kind henv
      (hstaged.transfer i j) _ _ _).of_ok hcall
    refine ⟨(hstaged.putTransfer i j ht).congr rfl rfl rfl, ?_⟩
    by_cases hret : ret = .success
    · obtain ⟨orig, fromMode, toMode, hcheck, hdone⟩ := hok hret
      obtain ⟨haddress, hpages⟩ := regionAt_bounds buffer share (s.staged i buffer msg)
      obtain ⟨hexchanged, hmove⟩ := exchanged_of_check hstaged hij haddress hpages
        (SpciMemoryShare.attributes_stateMask _ _ _) hcheck hdone
      exact Or.inr ⟨⟨hret, harch⟩, share, _, messageType_eq hmin htype,
        head_described hmin htype hcount, hexchanged.congr rfl rfl, hmove⟩
    · refine Or.inl ⟨?_, fun h => hret h.1⟩
      exact pageState_of_undone hstaged hij (herr hret)

end Calls

/-- The pages that an action asks to change, with the VMs: for a message all
constituents that it describes. -/
def Requested (s : Hypervisor M) : Action M → Nat → M.VmIndex → Prop
  | .call _ current (.shareMemory vmId addr size _), a, k =>
    (k = current.vm ∨ M.vmId k = vmId) ∧ addr ≤ a ∧ a < addr + size
  | .call _ current (.vmConfigure send recv), a, k => MailboxPages send recv a ∧ k = current.vm
  | .call _ current (.spciMsgSend _), a, k => ∃ msg j, s.Accepted current.vm msg j ∧
      msg.isImpdef = false ∧ (k = current.vm ∨ k = j) ∧ ∃ c ∈ s.described current.vm, c.Covers a
  | _, _, _ => False

/-- A memory message that succeeds although it describes no constituent. -/
def Stray (s : Hypervisor M) : Action M → Prop
  | .call env current (.spciMsgSend notify) => s.described current.vm = [] ∧
      (∃ msg j, s.Accepted current.vm msg j ∧ msg.isImpdef = false) ∧
      ∃ next s', s.spciMsgSend env notify current = .ok ((.success, next), s')
  | _ => False

/-- A memory message that describes no constituent. -/
def Undescribed (s : Hypervisor M) : Action M → Prop
  | .call _ current (.spciMsgSend _) => s.described current.vm = [] ∧
      ∃ msg j, s.Accepted current.vm msg j ∧ msg.isImpdef = false
  | _ => False

theorem Stray.undescribed {act : Action M} (h : s.Stray act) : s.Undescribed act := by
  unfold Stray at h
  split at h
  · exact ⟨h.1, h.2.1⟩
  · exact h.elim

/-- A memory message that succeeds moves a constituent; nothing else happens to
pages. -/
theorem spciMsgSend_move {env : Env} (hs : s.Sound) (henv : env.pool.Ok) {notify : Bool}
    {current : VCpuId M} {ret : SpciReturn} {next : Option (VCpuId M)}
    (h : s.spciMsgSend env notify current = .ok ((ret, next), s')) :
    s'.Sound ∧ ((s'.pageState = s.pageState ∧ ¬(ret = .success ∧
          ∃ msg j, s.Accepted current.vm msg j ∧ msg.isImpdef = false)) ∨
        ∃ msg j, (ret = .success ∧ s.Accepted current.vm msg j ∧ msg.isImpdef = false) ∧
          ∃ share c, s.Shared s' current.vm j share c) := by
  cases spciMsgSend_cases h with
  | refused check => exact ⟨hs, Or.inl ⟨rfl, fun h => absurd h.1 nofun⟩⟩
  | busy check ready wait =>
    obtain ⟨links, rfl⟩ := busy_frame wait
    exact ⟨hs.congr rfl rfl rfl, Or.inl ⟨rfl, fun h => absurd h.1 nofun⟩⟩
  | failed check ready delivery failure =>
    have haccepted := spciMsgSendCheck_eq_some.mp check
    obtain ⟨hsound, ⟨hsame, -⟩ | ⟨⟨hsuccess, -⟩, -⟩⟩ := delivery.move hs henv haccepted.ne
    · exact ⟨hsound, Or.inl ⟨hsame, fun h => failure h.1⟩⟩
    · exact absurd hsuccess failure
  | @sent msg j _ s₁ _ check ready delivery notified =>
    have haccepted := spciMsgSendCheck_eq_some.mp check
    have hquiet := (spciMsgNotify_post env.timer current.vm j current s₁).of_ok notified
    have hsame : s'.pageState = s₁.pageState := by
      funext a k
      rw [pageState, hquiet.ptable]
      rfl
    obtain ⟨hsound, hmove⟩ := delivery.move hs henv haccepted.ne
    refine ⟨hsound.congr hquiet.ptable hquiet.hypervisorPtable hquiet.mpool, ?_⟩
    rcases hmove with ⟨hnone, himpdef⟩ | ⟨⟨-, harch⟩, share, c, hshared⟩
    · refine Or.inl ⟨hsame.trans hnone, ?_⟩
      rintro ⟨-, msg', j', haccepted', harch⟩
      rw [(haccepted.unique haccepted').1] at harch
      exact himpdef ⟨rfl, harch⟩
    · refine Or.inr ⟨msg, j, ⟨rfl, haccepted, harch⟩, share, c, hshared.type, hshared.head,
        hshared.exchanged.congr rfl hsame, ?_⟩
      rw [hsame]
      exact hshared.move

end Hypervisor

/-- Other users of the page pool leave it usable. -/
def Action.Ok {M : Machine} : Action M → Prop
  | .call env _ _ => env.pool.Ok
  | .guest _ => True
  | .pool mpool => mpool.Wf

namespace Hypervisor

variable {M : Machine} {s s' : Hypervisor M}

/-- What a step does to pages, and that it goes beyond what was asked for only if
it is stray. -/
structure StepMove (s : Hypervisor M) (act : Action M) (s' : Hypervisor M) : Prop where
  sound : s'.Sound
  move : ∃ P, PageMove s s' P ∧ (¬s.Stray act → ∀ a k, P a k → s.Requested act a k)
  stray : s.Stray act → ∃ a k, s'.pageState a k ≠ s.pageState a k ∧ ¬s.Requested act a k

theorem exec_move {env : Env} (hs : s.Sound) (henv : env.pool.Ok) {current : VCpuId M}
    {call : Call M} {reply : Reply M} (h : s.exec env current call = .ok (reply, s')) :
    s.StepMove (.call env current call) s' := by
  by_cases hcall : call.movesMemory = true
  · cases call with
    | shareMemory vmId addr size code =>
      rw [exec] at h
      split at h
      · cases h
        exact ⟨hs, ⟨_, .none rfl, fun _ _ _ h => h.elim⟩, fun h => h.elim⟩
      · obtain ⟨⟨o, s₁⟩, hshare, h⟩ := bind_eq_ok.mp h
        cases h
        obtain ⟨hsound, P, hmove, hP⟩ := (shareMemory_move hs henv _ _ _ _ _).of_ok hshare
        exact ⟨hsound, ⟨P, hmove, fun _ => hP⟩, fun h => h.elim⟩
    | vmConfigure send recv =>
      obtain ⟨⟨⟨r, next⟩, s₁⟩, hconf, h⟩ := bind_eq_ok.mp h
      cases h
      obtain ⟨⟨o, s₁⟩, hconf, h⟩ := bind_eq_ok.mp hconf
      obtain ⟨hsound, P, hmove, hP⟩ := (configure_move hs henv _ _ _).of_ok hconf
      dsimp only at h
      split at h
      · cases h
        exact ⟨hsound, ⟨P, hmove, fun _ => hP⟩, fun h => h.elim⟩
      · have hquiet := ((waiterResult_post env.timer current s₁ current.vm).of_ok h).1
        refine ⟨hsound.congr hquiet.ptable hquiet.hypervisorPtable hquiet.mpool,
          ⟨P, hmove.congr rfl ?_, fun _ => hP⟩, fun h => h.elim⟩
        funext a k
        exact congrArg (fun pt => ofView ((pt k).view a)) hquiet.ptable
    | spciMsgSend notify =>
      obtain ⟨⟨⟨ret, next⟩, s₁⟩, hsend, h⟩ := bind_eq_ok.mp h
      cases h
      obtain ⟨hsound, hmove⟩ := spciMsgSend_move hs henv hsend
      rcases hmove with ⟨hsame, hnot⟩ | ⟨msg, j, ⟨hret, haccepted, harch⟩, share, c, hshared⟩
      · refine ⟨hsound, ⟨_, .none hsame, fun _ _ _ h => h.elim⟩, ?_⟩
        rintro ⟨-, hmem, next', s₂, hsuccess⟩
        rw [hsend] at hsuccess
        cases hsuccess
        exact absurd ⟨rfl, hmem⟩ hnot
      · refine ⟨hsound, ⟨_, .transfer hshared.exchanged, fun hstray a k hP => ?_⟩, ?_⟩
        · have hne : s.described current.vm ≠ [] := fun hnil =>
            hstray ⟨hnil, ⟨msg, j, haccepted, harch⟩, next, s', by rw [hsend, hret]⟩
          exact ⟨msg, j, haccepted, harch, hP.2, c, mem_of_mem_head? (hshared.head hne), hP.1⟩
        · rintro ⟨hnil, -⟩
          refine ⟨c.address, current.vm, ?_, ?_⟩
          · exact (hshared.exchanged.moved _ le_rfl hshared.exchanged.lt).ne
          · rintro ⟨_, _, -, -, -, c', hc', -⟩
            rw [hnil] at hc'
            exact absurd hc' not_mem_nil
    | preempt | waitForInterrupt | vcpuOff | spciYield | wakeUp | abort | vcpuGetCount
    | regsStateSaved | vcpuRun | spciMsgRecv | mailboxWritableGet | mailboxWaiterGet
    | mailboxClear | interruptEnable | interruptGet | interruptInject => contradiction
  · have hsame := (exec_sameMemory current s env (Bool.eq_false_of_not_eq_true hcall)).of_ok h
    refine ⟨hs.congr hsame.ptable hsame.hypervisorPtable hsame.mpool, ⟨_, .none ?_,
      fun _ _ _ h => h.elim⟩, fun h => ?_⟩
    · funext a k
      exact congrArg (fun pt => ofView ((pt k).view a)) hsame.ptable
    · cases call <;> first | exact h.elim | exact absurd rfl hcall

theorem step_move {act : Action M} (hs : s.Sound) (hact : act.Ok) (h : s.step act = some s') :
    s.StepMove act s' := by
  cases act with
  | call env current call =>
    obtain ⟨reply, hexec⟩ := step_call_eq_some.mp h
    exact exec_move hs hact hexec
  | guest mem =>
    cases h
    exact ⟨hs.congr rfl rfl rfl, ⟨_, .none rfl, fun _ _ _ h => h.elim⟩, fun h => h.elim⟩
  | pool mpool =>
    cases h
    exact ⟨⟨hs.kind, hs.ptable, hs.hypervisorPtable, hact⟩,
      ⟨_, .none rfl, fun _ _ _ h => h.elim⟩, fun h => h.elim⟩

/-- A step changes nothing but what its operands name, unless it is stray. -/
theorem requested_iff {act : Action M} (hs : s.Sound) (hact : act.Ok) :
    (∀ s', s.step act = some s' → ∀ a k, s'.pageState a k ≠ s.pageState a k →
      s.Requested act a k) ↔ ¬s.Stray act := by
  constructor
  · intro h hstray
    obtain ⟨s', hstep⟩ : ∃ s', s.step act = some s' := by
      match act, hstray with
      | .call env current (.spciMsgSend notify), ⟨_, _, next, s', hsend⟩ =>
        refine ⟨s', step_call_eq_some.mpr ⟨⟨.spci .success, next⟩, ?_⟩⟩
        rw [exec, hsend]
        rfl
    obtain ⟨a, k, hne, hout⟩ := (step_move hs hact hstep).stray hstray
    exact hout (h s' hstep a k hne)
  · intro hstray s' hstep a k hne
    obtain ⟨P, hmove, hP⟩ := (step_move hs hact hstep).move
    by_contra hout
    exact hne (hmove.frame fun h => hout (hP hstray a k h))

/-- In every run all pages stay in one of the situations of `Owned`, pages of
nobody and mailbox pages stay what they are, and every step changes only the
pages and VMs that its operands name, unless it is a memory message that succeeds
without describing any constituent. -/
theorem ownership_run {as : List (Action M)} (hs : s.Sound)
    (howned : ∀ a, Owned (s.pageState a)) (has : ∀ act ∈ as, act.Ok)
    (hrun : run step as s = some s') :
    (∀ a, Owned (s'.pageState a)) ∧
    (∀ a, (∀ k, s.pageState a k = .none) → ∀ k, s'.pageState a k = .none) ∧
    (∀ a i, s.pageState a i = .sharee → (∀ k, k ≠ i → s.pageState a k = .none) →
      s'.pageState a i = .sharee ∧ ∀ k, k ≠ i → s'.pageState a k = .none) ∧
    (Always step (fun s act => ∀ s', s.step act = some s' →
        ∀ a k, s'.pageState a k ≠ s.pageState a k → s.Requested act a k) as s ↔
      Always step (fun s act => ¬s.Stray act) as s) := by
  have hunowned : ∀ a, (∀ k, (s.pageState a k).owned = false) →
      s'.pageState a = s.pageState a := by
    intro a hun
    refine (run_invariant (fun s' => s'.Sound ∧ s'.pageState a = s.pageState a)
      (fun s₁ act s₂ hI hact hstep => ?_) ⟨hs, rfl⟩ has hrun).2
    obtain ⟨hsound, ⟨P, hmove, -⟩, -⟩ := step_move hI.1 hact hstep
    exact ⟨hsound, (hmove.unowned (by rwa [hI.2])).trans hI.2⟩
  refine ⟨?_, fun a hnone k => ?_, fun a i hi hrest => ?_, ?_⟩
  · refine (run_invariant (fun s' => s'.Sound ∧ ∀ a, Owned (s'.pageState a))
      (fun s₁ act s₂ hI hact hstep => ?_) ⟨hs, howned⟩ has hrun).2
    obtain ⟨hsound, ⟨P, hmove, -⟩, -⟩ := step_move hI.1 hact hstep
    exact ⟨hsound, hmove.owned hI.2⟩
  · rw [hunowned a fun k => by rw [hnone k]; rfl]
    exact hnone k
  · rw [hunowned a fun k => ?_]
    · exact ⟨hi, hrest⟩
    · by_cases hk : k = i
      · rw [hk, hi]
        rfl
      · rw [hrest k hk]
        rfl
  · exact always_congr Sound (fun s₁ act s₂ hs hact hstep => (step_move hs hact hstep).sound)
      (fun s₁ act hs hact => requested_iff hs hact) hs has

/-- If all memory messages describe constituents, every step changes only the pages and VMs
that its operands name. -/
theorem requested_of_described {as : List (Action M)} (hs : s.Sound) (has : ∀ act ∈ as, act.Ok)
    (h : Always step (fun s act => ¬s.Undescribed act) as s) :
    Always step (fun s act => ∀ s', s.step act = some s' →
      ∀ a k, s'.pageState a k ≠ s.pageState a k → s.Requested act a k) as s :=
  always_imp Sound (fun _ _ _ hs hact hstep => (step_move hs hact hstep).sound)
    (fun _ _ hs hact hnot => (requested_iff hs hact).mpr fun hstray => hnot hstray.undescribed)
    hs has h

/-- A memory message that succeeds moves exactly the pages that it describes, each
by the transition of its type, if and only if it describes a constituent and all
others lie in the first one. -/
theorem memory_message_exact_iff {env : Env} (hs : s.Sound) (henv : env.pool.Ok) {notify : Bool}
    {current : VCpuId M} {next : Option (VCpuId M)} {msg : SpciMessage} {j : M.VmIndex}
    (hsend : s.spciMsgSend env notify current = .ok ((.success, next), s'))
    (haccepted : s.Accepted current.vm msg j) (harch : msg.isImpdef = false) :
    ∃ share, s.messageType current.vm = some share ∧
      (((∀ a, (s'.pageState a current.vm ≠ s.pageState a current.vm ∨
            s'.pageState a j ≠ s.pageState a j) ↔ ∃ c ∈ s.described current.vm, c.Covers a) ∧
          (∀ a, (∃ c ∈ s.described current.vm, c.Covers a) →
            ShareMove share (s.pageState a current.vm) (s.pageState a j)
              (s'.pageState a current.vm) (s'.pageState a j)) ∧
          (s.described current.vm = [] → s'.pageState = s.pageState)) ↔
        ∃ first, (s.described current.vm).head? = some first ∧
          ∀ c ∈ s.described current.vm, ∀ a, c.Covers a → first.Covers a) := by
  obtain ⟨-, ⟨-, hnot⟩ | ⟨msg', j', ⟨-, haccepted', -⟩, share, c, hshared⟩⟩ :=
    spciMsgSend_move hs henv hsend
  · exact absurd ⟨rfl, msg, j, haccepted, harch⟩ hnot
  obtain ⟨rfl, rfl⟩ := haccepted.unique haccepted'
  have hx := hshared.exchanged
  -- the pages that changed are those of the constituent that was transferred
  have hchanged : ∀ a, (s'.pageState a current.vm ≠ s.pageState a current.vm ∨
      s'.pageState a j' ≠ s.pageState a j') ↔ c.Covers a := by
    intro a
    constructor
    · intro h
      by_contra hout
      have hframe : ∀ k, s'.pageState a k = s.pageState a k :=
        fun k => hx.frame a k fun h => hout h.1
      exact h.elim (fun h => h (hframe _)) fun h => h (hframe _)
    · exact fun ha => Or.inl (hx.moved a ha.1 ha.2).ne
  have hfirst : c.Covers c.address := ⟨le_rfl, hx.lt⟩
  refine ⟨share, hshared.type, fun ⟨hexact, _, hnone⟩ => ?_, fun ⟨first, hhead, hcover⟩ => ?_⟩
  · have hne : s.described current.vm ≠ [] := by
      intro hnil
      have h := (hchanged c.address).mpr hfirst
      rw [hnone hnil] at h
      simp at h
    refine ⟨c, hshared.head hne, fun c' hc' a ha => ?_⟩
    exact (hchanged a).mp ((hexact a).mpr ⟨c', hc', ha⟩)
  · have hne : s.described current.vm ≠ [] := fun hnil => by simp [hnil] at hhead
    have hc : first = c := Option.some.inj (hhead.symm.trans (hshared.head hne))
    subst hc
    have hiff : ∀ a, (∃ c ∈ s.described current.vm, c.Covers a) ↔ first.Covers a := fun a =>
      ⟨fun ⟨c, hc, ha⟩ => hcover c hc a ha, fun ha => ⟨first, mem_of_mem_head? hhead, ha⟩⟩
    refine ⟨fun a => (hchanged a).trans (hiff a).symm, fun a ha => ?_, fun hnil => absurd hnil hne⟩
    exact hshared.move a ((hiff a).mp ha)

end Hypervisor

/-! ## Examples -/

open PageTable in
/-- The second of three VMs owns the first block of memory. -/
def ownerPtable (i : Fin 3) : PageTable exampleStage :=
  if i = 1 then blockTable 0x20000 0 (Mode.R ||| Mode.W ||| Mode.X) else emptyTable

open PageTable in
theorem regular_ownerPtable (i : Fin 3) : (ownerPtable i).Regular false := by
  rw [ownerPtable]
  split
  · exact regular_sparseTable false fits_exampleStage rfl _ _ _ _
  · exact regular_emptyTable false

open PageTable in
theorem owned_ownerPtable (a : Nat) : Owned fun i => ofView ((ownerPtable i).view a) := by
  have hrest : ∀ k, k ≠ 1 → (ownerPtable k).view a = Option.none := by
    intro k hk
    rw [ownerPtable, if_neg hk, view_emptyTable]
  exact owned_sparseTable fits_exampleStage rfl (if_pos rfl) hrest

def ownerState (mem : Memory) : Hypervisor exampleMachine :=
  { exampleState mem with ptable := ownerPtable }

theorem sound_ownerState (mem : Memory) : (ownerState mem).Sound :=
  ⟨rfl, regular_ownerPtable, PageTable.regular_emptyTable false, PageTable.wf_examplePool⟩

theorem owned_ownerState (mem : Memory) (a : Nat) : Owned ((ownerState mem).pageState a) :=
  owned_ownerPtable a

/-- A page is given to the third VM. -/
theorem ownership_run_give :
    ∃ s', run Hypervisor.step [.call exampleEnv (exampleVCpu 1) (.shareMemory 3 0x1000 0x1000 0)]
        (ownerState fun _ => 0) = some s' ∧
      s'.pageState 0x1000 (exampleVm 2) = .exclusiveOwner ∧ ∀ a, Owned (s'.pageState a) := by
  have hsome : ((run Hypervisor.step
      [.call exampleEnv (exampleVCpu 1) (.shareMemory 3 0x1000 0x1000 0)]
      (ownerState fun _ => 0)).map fun s' => s'.pageState 0x1000 (exampleVm 2)) =
        some .exclusiveOwner := by
    decide +kernel
  obtain ⟨s', hrun, hstate⟩ := Option.map_eq_some_iff.mp hsome
  refine ⟨s', hrun, hstate, ?_⟩
  exact (Hypervisor.ownership_run (sound_ownerState _) (owned_ownerState _)
    (by simp only [mem_singleton, forall_eq]; exact fun _ _ h => h) hrun).1

/-- The send page of the second VM holds a donation without constituents to the
third VM; a constituent has been left in the buffer of the physical CPU. -/
def strayMemory : Memory := fun a =>
  if a = 0x13004 then 16
  else if a = 0x13008 then 3
  else if a = 0x1300a then 2
  else if a = 0x13010 then 2
  else if a = 0x80011 then 0x10
  else if a = 0x80018 then 1
  else 0

/-- The page that was left in the buffer is donated, although the message asks
for no page. -/
theorem stray_donation :
    (ownerState strayMemory).Sound ∧ (∀ a, Owned ((ownerState strayMemory).pageState a)) ∧
    (∀ a k, ¬(ownerState strayMemory).Requested
      (.call exampleEnv (exampleVCpu 1) (.spciMsgSend false)) a k) ∧
    (ownerState strayMemory).pageState 0x1000 (exampleVm 1) = .exclusiveOwner ∧
    ∃ s', (ownerState strayMemory).step
        (.call exampleEnv (exampleVCpu 1) (.spciMsgSend false)) = some s' ∧
      s'.pageState 0x1000 (exampleVm 1) = .none ∧
      s'.pageState 0x1000 (exampleVm 2) = .exclusiveOwner := by
  have hnone : (ownerState strayMemory).described (exampleVm 1) = [] := by decide +kernel
  have hsome : (((ownerState strayMemory).step
      (.call exampleEnv (exampleVCpu 1) (.spciMsgSend false))).map fun s' =>
        (s'.pageState 0x1000 (exampleVm 1), s'.pageState 0x1000 (exampleVm 2))) =
      some (.none, .exclusiveOwner) := by
    decide +kernel
  obtain ⟨s', hstep, hstate⟩ := Option.map_eq_some_iff.mp hsome
  refine ⟨sound_ownerState _, owned_ownerState _, ?_, by decide +kernel, s', hstep,
    congrArg Prod.fst hstate, congrArg Prod.snd hstate⟩
  rintro a k ⟨_, _, -, -, -, c, hc, -⟩
  rw [show (exampleVCpu 1).vm = exampleVm 1 from rfl, hnone] at hc
  exact absurd hc not_mem_nil

/-- The send page of the second VM holds a donation of up to two pages to the third
VM. -/
def donationMemory (count : Nat) : Memory := fun a =>
  if a = 0x13004 then .ofNat 8 (16 + 16 * count)
  else if a = 0x13008 then 3
  else if a = 0x1300a then 2
  else if a = 0x13010 then 2
  else if a = 0x1301c then .ofNat 8 count
  else if a = 0x13021 then 0x10
  else if a = 0x13028 then 1
  else if a = 0x13031 then 0x30
  else if a = 0x13038 then 1
  else 0

/-- A page is donated. -/
theorem memory_message_exact_one :
    ∃ next s', (ownerState (donationMemory 1)).spciMsgSend exampleEnv false (exampleVCpu 1) =
        .ok ((.success, next), s') ∧
      ∀ a, (s'.pageState a (exampleVm 1) ≠ (ownerState (donationMemory 1)).pageState a
        (exampleVm 1) ∨
          s'.pageState a (exampleVm 2) ≠ (ownerState (donationMemory 1)).pageState a
            (exampleVm 2)) ↔
        ∃ c ∈ [(⟨0x1000, 1⟩ : SpciMemoryRegionConstituent)], c.Covers a := by
  have hsend : ((ownerState (donationMemory 1)).spciMsgSend exampleEnv false (exampleVCpu 1)).map
      (fun r => r.1.1) = .ok .success := by
    decide +kernel
  have hdescribed : (ownerState (donationMemory 1)).described (exampleVm 1) = [⟨0x1000, 1⟩] := by
    decide +kernel
  have haccepted : (ownerState (donationMemory 1)).Accepted (exampleVm 1)
      (SpciMessage.read (donationMemory 1) 0x13000) (exampleVm 2) :=
    ⟨by decide, rfl, by decide +kernel, by decide +kernel, by decide +kernel, by decide⟩
  obtain ⟨⟨⟨_, next⟩, s'⟩, hs', rfl⟩ := map_eq_ok.mp hsend
  refine ⟨next, s', hs', ?_⟩
  obtain ⟨share, -, hiff⟩ := Hypervisor.memory_message_exact_iff (sound_ownerState _)
    (fun _ _ h => h) hs' haccepted (by decide +kernel)
  rw [← hdescribed]
  refine (hiff.mpr ⟨⟨0x1000, 1⟩, ?_, ?_⟩).1
  · exact congrArg head? hdescribed
  · intro c hc a ha
    change c ∈ (ownerState (donationMemory 1)).described (exampleVm 1) at hc
    rw [hdescribed, mem_singleton] at hc
    exact hc ▸ ha

/-- Only the first of two pages is transferred, although the message succeeds. -/
theorem second_constituent_ignored :
    (ownerState (donationMemory 2)).Sound ∧
    (ownerState (donationMemory 2)).messageType (exampleVm 1) = some .donate ∧
    (ownerState (donationMemory 2)).described (exampleVm 1) = [⟨0x1000, 1⟩, ⟨0x3000, 1⟩] ∧
    ∃ next s', (ownerState (donationMemory 2)).spciMsgSend exampleEnv false (exampleVCpu 1) =
        .ok ((.success, next), s') ∧
      s'.pageState 0x1000 (exampleVm 2) = .exclusiveOwner ∧
      s'.pageState 0x3000 (exampleVm 1) =
        (ownerState (donationMemory 2)).pageState 0x3000 (exampleVm 1) ∧
      s'.pageState 0x3000 (exampleVm 2) =
        (ownerState (donationMemory 2)).pageState 0x3000 (exampleVm 2) := by
  have hsend : ((ownerState (donationMemory 2)).spciMsgSend exampleEnv false (exampleVCpu 1)).map
      (fun r => (r.1.1, r.2.pageState 0x1000 (exampleVm 2), r.2.pageState 0x3000 (exampleVm 1),
        r.2.pageState 0x3000 (exampleVm 2))) =
      .ok (.success, .exclusiveOwner, .exclusiveOwner, .none) := by
    decide +kernel
  have howner : (ownerState (donationMemory 2)).pageState 0x3000 (exampleVm 1) =
      .exclusiveOwner := by
    decide +kernel
  have hnone : (ownerState (donationMemory 2)).pageState 0x3000 (exampleVm 2) = .none := by
    decide +kernel
  obtain ⟨⟨⟨_, next⟩, s'⟩, hs', hstate⟩ := map_eq_ok.mp hsend
  cases congrArg Prod.fst hstate
  refine ⟨sound_ownerState _, by decide +kernel, by decide +kernel, next, s', hs', ?_, ?_, ?_⟩
  · exact congrArg (fun p => p.2.1) hstate
  · exact (congrArg (fun p => p.2.2.1) hstate).trans howner.symm
  · exact (congrArg (fun p => p.2.2.2) hstate).trans hnone.symm

end Hafnium
