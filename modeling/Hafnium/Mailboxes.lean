import Hafnium.Delivery

/-!
# Mailboxes

The life of messages in the mailboxes of the VMs.  What each step does to a mailbox
is an event: a message is sent to it, it is handed to a vCPU, or the mailbox is
cleared.  In every run these events follow one another in a cycle.
-/

namespace Hafnium

open Support Function

/-- What happens to a message. -/
inductive MailboxEvent (M : Machine)
  | sent
  | handed (v : VCpuId M)
  | cleared
  deriving DecidableEq

/-- The cycle of a mailbox.  A message to the primary VM is handed over by sending
it. -/
def MailboxState.next {M : Machine} (i : M.VmIndex) :
    MailboxState → MailboxEvent M → Option MailboxState
  | .empty, .sent => some (Hypervisor.sentState i)
  | .received, .handed _ => some .read
  | .read, .cleared => some .empty
  | _, _ => none

namespace Hypervisor

variable {M : Machine} {s s' : Hypervisor M}

/-- The event that can be seen from a call and its result, and the VM whose mailbox
it concerns: a message has been sent successfully, a vCPU gets `SPCI_SUCCESS` for a
message, or a mailbox is empty after it has been cleared. -/
def eventOf (current : VCpuId M) (call : Call M) (s : Hypervisor M) (reply : Reply M)
    (s' : Hypervisor M) : Option (M.VmIndex × MailboxEvent M) :=
  match call with
  | .spciMsgSend _ =>
    if reply.ret = .spci .success then
      (M.get (s.header current.vm).targetVmId).toOption.join.map fun j => (j, .sent)
    else none
  | .spciMsgRecv _ =>
    if reply.ret = .spci .success then some (current.vm, .handed current) else none
  | .vcpuRun _ _ =>
    reply.next.bind fun v =>
      if (s'.vcpu v).regs.retvals = SpciReturn.success.toReg :: (s.vcpu v).regs.retvals then
        some (v.vm, .handed v)
      else none
  | .mailboxClear =>
    if (s.mailbox current.vm).state ≠ .empty ∧ (s'.mailbox current.vm).state = .empty then
      some (current.vm, .cleared)
    else none
  | _ => none

def event (s : Hypervisor M) : Action M → Option (M.VmIndex × MailboxEvent M)
  | .call env current call =>
    match s.exec env current call with
    | .ok (reply, s') => s.eventOf current call reply s'
    | .error _ => none
  | .guest _ | .pool _ => none

/-- The events of one mailbox. -/
def eventsAt (i : M.VmIndex) : Option (M.VmIndex × MailboxEvent M) → List (MailboxEvent M)
  | some (j, e) => if j = i then [e] else []
  | none => []

def events (i : M.VmIndex) (s : Hypervisor M) (a : Action M) : List (MailboxEvent M) :=
  eventsAt i (s.event a)

/-! ## What a step does to mailboxes -/

/-- The mailboxes follow an event, and nobody but the vCPU to which a message is
handed gets a return value; the primary VM apart. -/
inductive MailboxMove (act : Action M) (s s' : Hypervisor M) :
    Option (M.VmIndex × MailboxEvent M) → Prop
  | same (mailbox : s'.mailbox = s.mailbox)
      (retvals : ∀ v, v.vm ≠ M.primary → (s'.vcpu v).regs.retvals = (s.vcpu v).regs.retvals) :
      MailboxMove act s s' none
  | configured {env : Env} {current : VCpuId M} {send recv : Nat}
      (call : act = .call env current (.vmConfigure send recv))
      (h : (s.mailbox current.vm).isConfigured = false)
      (mailbox : s'.mailbox =
        update s.mailbox current.vm { s.mailbox current.vm with send, recv })
      (retvals : ∀ v, v.vm ≠ M.primary → (s'.vcpu v).regs.retvals = (s.vcpu v).regs.retvals) :
      MailboxMove act s s' none
  | event {i : M.VmIndex} {e : MailboxEvent M} {state : MailboxState}
      (next : (s.mailbox i).state.next i e = some state)
      (ready : (s.mailbox i).state = .empty → (s.mailbox i).isConfigured = true)
      (mailbox : s'.mailbox = update s.mailbox i { s.mailbox i with state })
      (retvals : ∀ v, v.vm ≠ M.primary → (i, e) ≠ (v.vm, .handed v) →
        (s'.vcpu v).regs.retvals = (s.vcpu v).regs.retvals) :
      MailboxMove act s s' (some (i, e))

variable {act : Action M}

theorem MailboxMove.congr {e e' : Option (M.VmIndex × MailboxEvent M)}
    (h : s.MailboxMove act s' e) (he : e' = e) : s.MailboxMove act s' e' := he ▸ h

theorem Quiet.mailboxMove (h : s.Quiet s') : s.MailboxMove act s' none :=
  .same h.mailbox h.retvals

theorem SameVms.retvals (h : s.SameVms s') (v : VCpuId M) :
    (s'.vcpu v).regs.retvals = (s.vcpu v).regs.retvals := by rw [h.vcpu]

theorem SameVms.mailboxMove (h : s.SameVms s') : s.MailboxMove act s' none :=
  .same h.mailbox fun v _ => h.retvals v

theorem spciMsgSend_mailbox {env : Env} {notify : Bool} {current : VCpuId M} {ret : SpciReturn}
    {next : Option (VCpuId M)}
    (h : s.spciMsgSend env notify current = .ok ((ret, next), s')) :
    s.MailboxMove act s' (s.eventOf current (.spciMsgSend notify) ⟨.spci ret, next⟩ s') := by
  cases spciMsgSend_cases h with
  | refused => exact .same rfl fun _ _ => rfl
  | busy _ _ wait =>
    obtain ⟨links, rfl⟩ := busy_frame wait
    exact .same rfl fun _ _ => rfl
  | failed _ _ delivery failure =>
    exact delivery.sameVms.mailboxMove.congr (if_neg fun h => failure (Ret.spci.inj h))
  | sent check ready delivery notified =>
    rename_i msg j s₁
    have haccepted := spciMsgSendCheck_eq_some.mp check
    have htarget : M.get (s.header current.vm).targetVmId = .ok (some j) := by
      rw [header, ← haccepted.header, haccepted.target]
      exact Machine.get_eq_some.mpr rfl
    have hquiet := (spciMsgNotify_post env.timer current.vm j current s₁).of_ok notified
    have hsame := delivery.sameVms
    rw [Mailbox.isReady, Bool.and_eq_true, Mailbox.isEmpty, beq_iff_eq] at ready
    have hnext : (s.mailbox j).state.next j (.sent : MailboxEvent M) = some (sentState j) := by
      rw [ready.1]
      rfl
    rw [eventOf, if_pos rfl, htarget]
    refine .event hnext (fun _ => ready.2) ?_ fun v hv _ => ?_
    · rw [hquiet.mailbox, setMailbox_mailbox, hsame.mailbox]
    · exact (hquiet.retvals v hv).trans (hsame.retvals v)

theorem handed_retvals (v w : VCpuId M) (s : Hypervisor M) : ((s.handed v).vcpu w).regs.retvals =
      if w = v then SpciReturn.success.toReg :: (s.vcpu v).regs.retvals
      else (s.vcpu w).regs.retvals := by
  rw [handed, setVCpu_vcpu]
  by_cases h : w = v
  · rw [h, update_self, if_pos rfl]
    rfl
  · rw [update_of_ne h, if_neg h]
    rfl

theorem vcpuRun_mailbox (env : Env) (current : VCpuId M) (vmId vcpuIdx : Nat) (s : Hypervisor M) :
    Post (s.exec env current (.vcpuRun vmId vcpuIdx)) (fun _ => True) fun r =>
      s.MailboxMove act r.2 (s.eventOf current (.vcpuRun vmId vcpuIdx) r.1 r.2) := by
  refine Post.bind (vcpuRun_post env.timer current s vmId vcpuIdx).weaken ?_
  rintro ⟨r, s'⟩ (⟨hquiet, hsecondary⟩ | ⟨v, hr, hv, hreceived, hquiet⟩)
  · cases r with
    | error ret => exact hquiet.mailboxMove
    | ok v =>
      refine hquiet.mailboxMove.congr (if_neg ?_)
      rw [hquiet.retvals v (hsecondary v rfl)]
      exact (List.cons_ne_self _ _).symm
  · dsimp only at hr
    subst hr
    have hretvals := hquiet.retvals v hv
    rw [handed_retvals, if_pos rfl] at hretvals
    have hnext : (s.mailbox v.vm).state.next v.vm (.handed v) = some .read := by
      rw [hreceived]
      rfl
    refine .congr (.event hnext (fun hempty => absurd (hreceived.symm.trans hempty) nofun)
      hquiet.mailbox fun w hw hne => ?_) (if_pos hretvals)
    have hwv : w ≠ v := by
      rintro rfl
      exact hne rfl
    rw [hquiet.retvals w hw, handed_retvals, if_neg hwv]

theorem exec_mailbox (env : Env) (current : VCpuId M) (call : Call M) (s : Hypervisor M) :
    Post (s.exec env current call) (fun _ => True) fun r =>
      s.MailboxMove (.call env current call) r.2 (s.eventOf current call r.1 r.2) := by
  cases call with
  | spciMsgSend notify =>
    refine Post.bind_ok ?_
    rintro ⟨⟨ret, next⟩, s'⟩ h
    exact spciMsgSend_mailbox h
  | spciMsgRecv block =>
    refine Post.bind (spciMsgRecv_post env.timer current s block).weaken ?_
    rintro ⟨⟨ret, next⟩, s'⟩ (⟨hret, hp, hreceived, hs'⟩ | ⟨hret, hquiet⟩)
    · cases hret
      dsimp only at hs'
      subst hs'
      have hnext : (s.mailbox current.vm).state.next current.vm (.handed current) = some .read := by
        rw [hreceived]
        rfl
      exact .congr (.event hnext (fun hempty => absurd (hreceived.symm.trans hempty) nofun) rfl
        fun _ _ _ => rfl) (by rw [eventOf, if_pos rfl])
    · exact hquiet.mailboxMove.congr (if_neg fun h => hret (Ret.spci.inj h))
  | vcpuRun vmId vcpuIdx => exact vcpuRun_mailbox env current vmId vcpuIdx s
  | mailboxClear =>
    refine Post.bind (mailboxClear_post env.timer current s).weaken ?_
    rintro ⟨⟨ret, next⟩, s'⟩ (⟨hstate, hs'⟩ | ⟨hstate, hquiet, -⟩)
    · dsimp only at hs'
      subst hs'
      exact (Quiet.refl s').mailboxMove.congr (if_neg fun h => h.1 h.2)
    · have hmailbox := hquiet.mailbox
      rw [setMailbox_mailbox] at hmailbox
      have hempty : (s'.mailbox current.vm).state = .empty := by
        rw [hmailbox, update_self]
      have hnext : (s.mailbox current.vm).state.next current.vm
          (.cleared : MailboxEvent M) = some .empty := by
        rw [hstate]
        rfl
      exact .congr (.event hnext (fun h => absurd (hstate.symm.trans h) nofun) hmailbox
        fun v hv _ => hquiet.retvals v hv) (if_pos ⟨by rw [hstate]; nofun, hempty⟩)
  | vmConfigure send recv =>
    refine Post.bind (vmConfigure_post current s env send recv) ?_
    rintro ⟨⟨ret, next⟩, s'⟩ (⟨-, hsame⟩ | ⟨hnot, s₁, hsame, hquiet, -⟩)
    · exact hsame.mailboxMove
    · refine .configured rfl hnot ?_ fun v hv => (hquiet.retvals v hv).trans (hsame.retvals v)
      rw [hquiet.mailbox, setMailbox_mailbox, hsame.mailbox]
  | mailboxWritableGet =>
    refine Post.bind (mailboxWritableGet_frame current s) ?_
    rintro ⟨id, s'⟩ ⟨links, rfl⟩
    exact .same rfl fun _ _ => rfl
  | mailboxWaiterGet vmId =>
    refine Post.bind (mailboxWaiterGet_frame current s vmId) ?_
    rintro ⟨id, s'⟩ ⟨links, rfl⟩
    exact .same rfl fun _ _ => rfl
  | shareMemory vmId addr size code =>
    rw [exec]
    dsimp only
    split
    · exact (Quiet.refl s).mailboxMove
    · exact Post.bind (shareMemory_sameVms current s env vmId addr size _) fun r hr =>
        hr.mailboxMove
  | preempt | waitForInterrupt | vcpuOff | spciYield | wakeUp | abort | vcpuGetCount
  | regsStateSaved | interruptEnable | interruptGet | interruptInject =>
    exact (exec_quiet current s env rfl).mono (fun _ h => h) fun r hr => hr.mailboxMove

theorem step_mailbox (h : s.step act = some s') : s.MailboxMove act s' (s.event act) := by
  cases act with
  | call env current call =>
    obtain ⟨reply, hexec⟩ := step_call_eq_some.mp h
    have hmove := (exec_mailbox env current call s).of_ok hexec
    rw [event, hexec]
    exact hmove
  | guest mem | pool mpool =>
    cases h
    exact .same rfl fun _ _ => rfl

/-- The state of a mailbox follows its events. -/
theorem MailboxMove.fold {e : Option (M.VmIndex × MailboxEvent M)}
    (h : s.MailboxMove act s' e) (i : M.VmIndex) :
    (eventsAt i e).foldlM (MailboxState.next i) (s.mailbox i).state =
      some (s'.mailbox i).state := by
  cases h with
  | same mailbox =>
    rw [mailbox]
    rfl
  | @configured _ current _ _ _ _ mailbox _ =>
    rw [mailbox]
    by_cases hj : i = current.vm
    · rw [hj, update_self]
      rfl
    · rw [update_of_ne hj]
      rfl
  | @event j e state next ready mailbox _ =>
    rw [mailbox]
    by_cases hj : j = i
    · subst hj
      rw [update_self, eventsAt, if_pos rfl, List.foldlM_cons, next]
      rfl
    · rw [update_of_ne (Ne.symm hj), eventsAt, if_neg hj]
      rfl

/-- A mailbox that holds a message has its pages. -/
def HoldersConfigured (s : Hypervisor M) : Prop :=
  ∀ i, (s.mailbox i).state ≠ .empty → (s.mailbox i).isConfigured = true

theorem MailboxMove.holdersConfigured {e : Option (M.VmIndex × MailboxEvent M)}
    (h : s.MailboxMove act s' e) (hs : s.HoldersConfigured) : s'.HoldersConfigured := by
  intro i hi
  cases h with
  | same mailbox =>
    rw [mailbox] at hi ⊢
    exact hs i hi
  | @configured _ current _ _ _ h mailbox _ =>
    rw [mailbox] at hi ⊢
    by_cases hj : i = current.vm
    · -- the mailbox was not configured, so it is empty
      rw [hj, update_self] at hi
      exact absurd (hs current.vm hi) (by rw [h]; nofun)
    · rw [update_of_ne hj] at hi ⊢
      exact hs i hi
  | @event j e state next ready mailbox _ =>
    rw [mailbox] at hi ⊢
    by_cases hj : i = j
    · rw [hj, update_self]
      by_cases hempty : (s.mailbox j).state = .empty
      · exact ready hempty
      · exact hs j hempty
    · rw [update_of_ne hj] at hi ⊢
      exact hs i hi

theorem MailboxMove.retvals {e : Option (M.VmIndex × MailboxEvent M)}
    (h : s.MailboxMove act s' e) {v : VCpuId M} (hv : v.vm ≠ M.primary)
    (hne : (s'.vcpu v).regs.retvals ≠ (s.vcpu v).regs.retvals) : e = some (v.vm, .handed v) := by
  cases h with
  | same _ retvals | configured _ _ _ retvals => exact absurd (retvals v hv) hne
  | event _ _ _ retvals =>
    by_contra h
    exact hne (retvals v hv fun heq => h (congrArg some heq))

/-! ## Mailboxes that are not ready -/

/-- A message to a mailbox that is not ready is refused, unless the sender asks to
be notified and its array of wait entries has no entry for the recipient. -/
theorem busy_iff {env : Env} {notify : Bool} {current : VCpuId M} {msg : SpciMessage}
    {j : M.VmIndex} (haccepted : s.Accepted current.vm msg j)
    (hready : (s.mailbox j).isReady = false) :
    (∃ s', s.spciMsgSend env notify current = .ok ((.busy, none), s')) ↔
      (notify = true → M.vmId j < maxVms) := by
  have hbusy : (!(s.mailbox j).isEmpty || !(s.mailbox j).isConfigured) = true := by
    rw [← Bool.not_and, ← Mailbox.isReady, hready, Bool.not_false]
  rw [spciMsgSend, spciMsgSendCheck_eq_some.mpr haccepted]
  dsimp only [bind, Except.bind]
  rw [if_pos hbusy]
  cases notify with
  | false => exact iff_of_true ⟨s, rfl⟩ (by simp)
  | true =>
    rw [if_pos rfl]
    by_cases hj : M.vmId j < maxVms
    · obtain ⟨s', hwait⟩ : ∃ s', s.waitFor current.vm j = .ok s' := by
        rw [waitFor, dif_pos hj]
        dsimp only
        split
        · exact ⟨_, rfl⟩
        · exact ⟨_, rfl⟩
      rw [hwait]
      exact iff_of_true ⟨s', rfl⟩ fun _ => hj
    · rw [waitFor, dif_neg hj]
      exact iff_of_false (by simp) fun h => hj (h rfl)

end Hypervisor

end Hafnium
