import Hafnium.AddressSpace
import Hafnium.Mailboxes

/-!
# The protocol of mailboxes

Messages are written where they are delivered: to the receive page of a VM that holds no
message, by way of the buffer of the physical CPU.  An architected message is copied in
units of eight bytes and may go beyond the page of its recipient; as long as it does not
reach the page of a VM that holds a message, messages stay as they are until they are
cleared.
-/

namespace Hafnium

open Support Hypervisor PageTable Memory SpciMessage Function MailboxState

/-- The bytes behind the header that a delivery writes to the page of the recipient. -/
def SpciMessage.span (msg : SpciMessage) (ret : SpciReturn) : Nat :=
  if msg.isImpdef then msg.length
  else if ret = .success then msg.length * spciArchitectedMessageHeaderSize else 0

namespace Hypervisor

variable {M : Machine} {s s' : Hypervisor M}

/-! ## Where messages are written -/

/-- The bytes that the delivery of a message writes: the header and the payload, for
an architected message in units of eight bytes and by way of the buffer. -/
def MessageArea (current : VCpuId M) (j : M.VmIndex) (msg : SpciMessage) (s : Hypervisor M)
    (a : Nat) : Prop :=
  ((s.mailbox j).recv ≤ a ∧ a < (s.mailbox j).recv + spciMessageSize +
      if msg.isImpdef then msg.length else msg.length * spciArchitectedMessageHeaderSize) ∨
    (msg.isImpdef = false ∧ ∃ buffer, s.cpuGetBuffer current = .ok buffer ∧
      buffer ≤ a ∧ a < buffer + msg.length)

section Delivery

variable {env : Env} {current : VCpuId M} {j : M.VmIndex} {msg : SpciMessage} {ret : SpciReturn}

theorem Delivery.frame (h : s.Delivery env current.vm j msg current ret s') {a : Nat}
    (hrecv : ¬((s.mailbox j).recv ≤ a ∧ a < (s.mailbox j).recv + spciMessageSize + msg.span ret))
    (hbuffer : msg.isImpdef = false → ∀ buffer, s.cpuGetBuffer current = .ok buffer →
      ¬(buffer ≤ a ∧ a < buffer + msg.length)) : s'.mem a = s.mem a := by
  have hforwarded : ∀ {s₁ : Hypervisor M} {buffer : Nat}, msg.isImpdef = false →
      s.cpuGetBuffer current = .ok buffer → s₁.mem = (s.staged current.vm buffer msg).mem →
      (s₁.forwarded buffer msg (s.mailbox j).recv ret).mem a = s.mem a := by
    intro s₁ buffer harch hok hmem
    rw [span, harch, if_neg Bool.false_ne_true] at hrecv
    have hstaged : s₁.mem a = s.mem a := by
      rw [hmem, staged_mem, copy, write_of_not_mem (hbuffer harch buffer hok)]
    rw [forwarded]
    dsimp only
    rw [write_of_not_mem (by omega)]
    split
    · rename_i hret
      rw [if_pos hret] at hrecv
      rw [copy, write_of_not_mem (by omega), hstaged]
    · exact hstaged
  cases h with
  | impdef isImpdef =>
    rw [span, isImpdef, if_pos rfl] at hrecv
    dsimp only
    rw [copy, write_of_not_mem (by omega), write_of_not_mem (by omega)]
  | short => rfl
  | mismatch architected _ hok _ _ => exact hforwarded architected hok rfl
  | shared architected _ hok _ _ call => exact hforwarded architected hok (spciShareMemory_mem call)

/-- A message that the hypervisor obeys as long as there are pages: its length is the one
that its constituents ask for, and the first one may be transferred. -/
def Lawful (i j : M.VmIndex) (msg : SpciMessage) (s : Hypervisor M) : Prop :=
  ∃ share c, s.messageType i = some share ∧
    msg.length = share.messageLength (s.described i).length ∧
    (s.described i).head? = some c ∧
    spciMsgCheckTransition (s.ptable j) (s.ptable i) share c.range.1 c.range.2 0 ≠ none

theorem spciShareMemory_success {S H : Stage} {env : Interference}
    {c : SpciMemoryRegionConstituent} {attributes : Mode} {share : SpciMemoryShare}
    {t t' : Transfer S H} (h : spciShareMemory env c attributes share t = .ok (.success, t')) :
    spciMsgCheckTransition t.toPtable t.fromPtable share c.range.1 c.range.2 0 ≠ none := by
  intro hnone
  rw [spciShareMemory, (spciMsgCheckTransition_eq_none 0 attributes).mp hnone] at h
  cases h

/-- Only lawful messages are obeyed, and short ones without constituents. -/
theorem Delivery.lawful (h : s.Delivery env current.vm j msg current .success s')
    (harch : msg.isImpdef = false) :
    s.Lawful current.vm j msg ∨
      msg.length ≤ spciArchitectedMessageHeaderSize + spciMemoryLendSize +
        spciMemoryRegionSize := by
  cases h with
  | impdef isImpdef => cases isImpdef.symm.trans harch
  | shared _ hmin _ type count call =>
    rename_i buffer _ share t
    have htype := messageType_eq hmin type
    have hcount : ((s.staged current.vm buffer msg).regionAt buffer share).count =
        (s.described current.vm).length := by
      refine staged_count htype ?_
      rw [count, SpciMemoryShare.messageLength]
      exact Nat.le_add_right _ _
    by_cases hnil : s.described current.vm = []
    · right
      rw [count, hcount, hnil, SpciMemoryShare.messageLength]
      cases share <;> decide
    · have hcheck := spciShareMemory_success call
      rw [show ((s.staged current.vm buffer msg).transfer current.vm j).toPtable = s.ptable j from
        rfl, show ((s.staged current.vm buffer msg).transfer current.vm j).fromPtable =
          s.ptable current.vm from rfl] at hcheck
      rw [hcount] at count
      exact .inl ⟨share, _, htype, count, head_described hmin type (by rwa [hcount]) hnil, hcheck⟩

end Delivery

/-- A message is only written where it is delivered. -/
theorem spciMsgSend_frame {env : Env} {notify : Bool} {current : VCpuId M} {ret : SpciReturn}
    {next : Option (VCpuId M)} {a : Nat}
    (h : s.spciMsgSend env notify current = .ok ((ret, next), s')) (hne : s'.mem a ≠ s.mem a) :
    ∃ msg j, s.Accepted current.vm msg j ∧ (s.mailbox j).isReady = true ∧
      s.MessageArea current j msg a := by
  have hframe : ∀ {msg : SpciMessage} {j : M.VmIndex} {ret : SpciReturn} {s' : Hypervisor M},
      s.Delivery env current.vm j msg current ret s' → ¬s.MessageArea current j msg a →
      s'.mem a = s.mem a := by
    intro msg j ret s' hdelivery harea
    rw [MessageArea, not_or] at harea
    refine hdelivery.frame (fun hin => harea.1 ⟨hin.1, hin.2.trans_le ?_⟩)
      fun harch buffer hbuffer hin => harea.2 ⟨harch, buffer, hbuffer, hin⟩
    rw [span]
    split
    · exact le_rfl
    · split <;> omega
  cases spciMsgSend_cases h with
  | refused => exact absurd rfl hne
  | busy _ _ wait =>
    obtain ⟨links, rfl⟩ := busy_frame wait
    exact absurd rfl hne
  | failed check ready delivery _ =>
    refine ⟨_, _, spciMsgSendCheck_eq_some.mp check, ready, ?_⟩
    by_contra harea
    exact hne (hframe delivery harea)
  | sent check ready delivery notified =>
    refine ⟨_, _, spciMsgSendCheck_eq_some.mp check, ready, ?_⟩
    by_contra harea
    have hquiet := (spciMsgNotify_post env.timer current.vm _ current _).of_ok notified
    rw [hquiet.mem] at hne
    have hmem := hframe delivery harea
    exact hne hmem

/-! ## Messages that are held -/

/-- The receive page of a VM. -/
def RecvPage (s : Hypervisor M) (i : M.VmIndex) (a : Nat) : Prop :=
  (s.mailbox i).isConfigured = true ∧ (s.mailbox i).recv ≤ a ∧ a < (s.mailbox i).recv + pageSize

/-- The buffers of the physical CPUs. -/
def BufferPage (M : Machine) (a : Nat) : Prop :=
  M.messageBuffer ≤ a ∧ a < M.messageBuffer + maxCpus * pageSize

/-- The pages that messages are written to do not overlap, and no VM owns them. -/
structure MessagesApart (s : Hypervisor M) : Prop where
  recv : ∀ i j a, s.RecvPage i a → s.RecvPage j a → i = j
  buffer : ∀ i a, s.RecvPage i a → ¬BufferPage M a
  unowned : ∀ a, (BufferPage M a ∨ ∃ i, s.RecvPage i a) → ∀ k, (s.pageState a k).owned = false

theorem MessagesApart.step {act : Action M} (h : s.MessagesApart) (hs : s.Sound)
    (howned : ∀ a, Owned (s.pageState a)) (hact : act.Ok) (hstep : s.step act = some s') :
    s'.MessagesApart := by
  obtain ⟨-, ⟨P, hmove, -⟩, -⟩ := step_move hs hact hstep
  have hstay : ∀ {a}, (∀ k, (s.pageState a k).owned = false) →
      ∀ k, (s'.pageState a k).owned = false := by
    intro a hun k
    rw [hmove.unowned hun]
    exact hun k
  have hsame : (∀ i a, s'.RecvPage i a → s.RecvPage i a) → s'.MessagesApart := by
    intro hsub
    refine ⟨fun i j a hi hj => h.recv i j a (hsub i a hi) (hsub j a hj),
      fun i a hi => h.buffer i a (hsub i a hi), fun a ha => hstay (h.unowned a ?_)⟩
    exact ha.imp_right (Exists.imp fun i => hsub i a)
  have hmailbox := step_mailbox hstep
  generalize s.event act = event at hmailbox
  cases hmailbox with
  | same mailbox _ =>
    refine hsame fun i a hi => ?_
    rwa [RecvPage, mailbox] at hi
  | @event j e state _ _ mailbox _ =>
    refine hsame fun i a hi => ?_
    rw [RecvPage, mailbox] at hi
    by_cases hij : i = j
    · subst hij
      rwa [update_self] at hi
    · rwa [update_of_ne hij] at hi
  | @configured env current send recv call _ mailbox _ =>
    subst call
    obtain ⟨reply, hexec⟩ := step_call_eq_some.mp hstep
    obtain ⟨⟨⟨v, next⟩, s₁⟩, hconf, hreply⟩ := bind_eq_ok.mp hexec
    cases hreply
    rcases (vmConfigure_post current s env send recv).of_ok hconf with
      ⟨-, hvms⟩ | ⟨-, s₂, -, -, htold⟩
    · refine hsame fun i a hi => ?_
      rwa [RecvPage, hvms.mailbox] at hi
    have hret : (Ret.int v) ≠ .int (-1) := by
      rintro hv
      cases hv
      rcases htold with ⟨-, heq⟩ | ⟨-, -, heq⟩ | ⟨-, -, w, heq, -⟩ <;> cases heq
    -- the new page is one that the VM owned, so messages have not been written to it
    obtain ⟨-, hun, ⟨⟨origSend, origRecv⟩, hcheck⟩, -⟩ := vmConfigure_done hs hact howned hexec hret
    obtain ⟨-, -, hheld, hmode⟩ := configureCheck_spec (hs.ptable current.vm).fits.toValid hcheck
    have hend : pageEnd recv = recv + pageSize := by
      have hlt := hheld.uniform.inSpace.lt
      rw [pageEnd, pageSize_eq] at hlt ⊢
      omega
    have hnew : ∀ {a}, recv ≤ a → a < recv + pageSize →
        ¬(BufferPage M a ∨ ∃ i, s.RecvPage i a) := by
      intro a hlo hhi hpage
      have hstate : s.pageState a current.vm = .exclusiveOwner := by
        rw [pageState, hheld.uniform.state hlo (hend ▸ hhi), hmode]
        rfl
      have hunowned := h.unowned a hpage current.vm
      rw [hstate] at hunowned
      exact absurd hunowned (by decide)
    have hsub : ∀ {i a}, s'.RecvPage i a →
        s.RecvPage i a ∨ i = current.vm ∧ recv ≤ a ∧ a < recv + pageSize := by
      intro i a hi
      rw [RecvPage, mailbox] at hi
      by_cases hij : i = current.vm
      · rw [hij, update_self] at hi
        exact .inr ⟨hij, hi.2⟩
      · rw [update_of_ne hij] at hi
        exact .inl hi
    refine ⟨fun i j a hi hj => ?_, fun i a hi hbuffer => ?_, fun a ha => ?_⟩
    · rcases hsub hi with hi | ⟨rfl, hlo, hhi⟩
      · rcases hsub hj with hj | ⟨-, hlo, hhi⟩
        · exact h.recv i j a hi hj
        · exact absurd (.inr ⟨i, hi⟩) (hnew hlo hhi)
      · rcases hsub hj with hj | ⟨rfl, -⟩
        · exact absurd (.inr ⟨j, hj⟩) (hnew hlo hhi)
        · rfl
    · rcases hsub hi with hi | ⟨-, hlo, hhi⟩
      · exact h.buffer i a hi hbuffer
      · exact hnew hlo hhi (.inl hbuffer)
    · rcases ha with hbuffer | ⟨i, hi⟩
      · exact hstay (h.unowned a (.inl hbuffer))
      · rcases hsub hi with hi | ⟨-, hlo, hhi⟩
        · exact hstay (h.unowned a (.inr ⟨i, hi⟩))
        · exact hun a (.inr ⟨hlo, hend ▸ hhi⟩)

/-- A lawful message that is delivered does not reach a receive page with a message. -/
def SparesHeld (s : Hypervisor M) (act : Action M) : Prop :=
  ∀ env current notify msg j, act = .call env current (.spciMsgSend notify) →
    s.Accepted current.vm msg j → (s.mailbox j).isReady = true → msg.isImpdef = false →
    s.Lawful current.vm j msg → ∀ i, (s.mailbox i).state ≠ .empty →
      (s.mailbox i).recv + pageSize ≤ (s.mailbox j).recv ∨
        (s.mailbox j).recv + spciMessageSize + msg.length * spciArchitectedMessageHeaderSize ≤
          (s.mailbox i).recv

/-- A call that does not share memory directly leaves the messages that are held as they
are. -/
def KeepsHeld (s : Hypervisor M) (act : Action M) : Prop :=
  ∀ env current call s', act = .call env current call →
    (∀ vmId addr size code, call ≠ .shareMemory vmId addr size code) → s.step act = some s' →
    ∀ i, (s.mailbox i).state ≠ .empty → ∀ a, s.RecvPage i a → s'.mem a = s.mem a

theorem vmConfigure_mem (env : Env) (send recv : Nat) (current : VCpuId M) (s : Hypervisor M) :
    Post (s.vmConfigure env send recv current) (fun _ => True) fun r => r.2.mem = s.mem := by
  have hconfigure : Post (s.configure env send recv current.vm) (fun _ => True) fun r =>
      r.2.mem = s.mem := by
    refine Post.ite (fun _ => rfl) fun _ => ?_
    refine Post.bind_ok fun r _ => ?_
    exact Post.ite (fun _ => rfl) fun _ => rfl
  refine Post.bind hconfigure fun r hr => ?_
  refine Post.ite (fun _ => hr) fun _ => ?_
  exact (waiterResult_post env.timer current r.2 current.vm).mono (fun _ _ => trivial)
    fun r' hr' => hr'.1.mem.trans hr

/-- Only sending a message and sharing memory write to memory. -/
theorem exec_mem (env : Env) (current : VCpuId M) {call : Call M} (s : Hypervisor M)
    (hsend : ∀ notify, call ≠ .spciMsgSend notify)
    (hshare : ∀ vmId addr size code, call ≠ .shareMemory vmId addr size code) :
    Post (s.exec env current call) (fun _ => True) fun r => r.2.mem = s.mem := by
  by_cases hmoves : call.movesMemory = true
  · cases call with
    | spciMsgSend notify => exact absurd rfl (hsend notify)
    | vmConfigure send recv =>
      exact Post.bind (vmConfigure_mem env send recv current s) fun r hr => hr
    | shareMemory vmId addr size code => exact absurd rfl (hshare vmId addr size code)
    | preempt | waitForInterrupt | vcpuOff | spciYield | wakeUp | abort | vcpuGetCount
    | regsStateSaved | interruptEnable | interruptGet | interruptInject | vcpuRun | spciMsgRecv
    | mailboxWritableGet | mailboxWaiterGet | mailboxClear => contradiction
  · exact (exec_sameMemory current s env (Bool.eq_false_of_not_eq_true hmoves)).mono
      (fun _ h => h) fun r hr => hr.mem

theorem cpuGetBuffer_page {current : VCpuId M} {buffer : Nat}
    (h : s.cpuGetBuffer current = .ok buffer) {a : Nat} (hlo : buffer ≤ a)
    (hhi : a < buffer + pageSize) : BufferPage M a := by
  obtain ⟨cpuId, -, h⟩ := bind_eq_ok.mp h
  split at h
  · rename_i hcpu
    cases h
    have hle : cpuId * pageSize + pageSize ≤ maxCpus * pageSize := by
      rw [← Nat.succ_mul]
      exact Nat.mul_le_mul_right _ hcpu
    exact ⟨by omega, by omega⟩
  · cases h

theorem Delivery.held {env : Env} {current : VCpuId M} {msg : SpciMessage} {i j : M.VmIndex}
    {ret : SpciReturn} {a : Nat} (hdelivery : s.Delivery env current.vm j msg current ret s')
    (h : s.MessagesApart) (hspares : msg.isImpdef = false → s.Lawful current.vm j msg →
      (s.mailbox i).recv + pageSize ≤ (s.mailbox j).recv ∨
        (s.mailbox j).recv + spciMessageSize + msg.length * spciArchitectedMessageHeaderSize ≤
          (s.mailbox i).recv)
    (haccepted : s.Accepted current.vm msg j) (hready : (s.mailbox j).isReady = true)
    (hheld : (s.mailbox i).state ≠ .empty) (ha : s.RecvPage i a) : s'.mem a = s.mem a := by
  have hmax : spciMessageSize + msg.length ≤ pageSize := by
    have hlength := haccepted.length
    rw [spciMsgPayloadMax, spciMessageSize, hfMailboxSize, pageSize_eq] at hlength
    rw [spciMessageSize, pageSize_eq]
    omega
  rw [Mailbox.isReady, Bool.and_eq_true, Mailbox.isEmpty, beq_iff_eq] at hready
  -- the page of the recipient is another one
  have hpage : ¬((s.mailbox j).recv ≤ a ∧ a < (s.mailbox j).recv + pageSize) := by
    intro hin
    obtain rfl := h.recv i j a ha ⟨hready.2, hin⟩
    exact hheld hready.1
  refine hdelivery.frame (fun hin => ?_) fun _ buffer hbuffer hin =>
    h.buffer i a ha (cpuGetBuffer_page hbuffer hin.1 (by omega))
  rw [span] at hin
  split at hin
  · omega
  rename_i harch
  split at hin
  · rename_i hret
    subst hret
    have harch := Bool.eq_false_of_not_eq_true harch
    rcases hdelivery.lawful harch with hlawful | hshort
    · have := hspares harch hlawful
      have := ha.2
      omega
    · simp only [spciArchitectedMessageHeaderSize, spciMemoryLendSize, spciMemoryRegionSize,
        spciMessageSize, pageSize_eq] at hin hshort hpage
      omega
  · omega

theorem keepsHeld {act : Action M} (h : s.MessagesApart) (hspares : s.SparesHeld act) :
    s.KeepsHeld act := by
  rintro env current call s' rfl hshare hstep i hheld a ha
  obtain ⟨reply, hexec⟩ := step_call_eq_some.mp hstep
  by_cases hsend : ∃ notify, call = .spciMsgSend notify
  · obtain ⟨notify, rfl⟩ := hsend
    obtain ⟨⟨⟨ret, next⟩, s₁⟩, hsent, hreply⟩ := bind_eq_ok.mp hexec
    cases hreply
    have hdelivered : ∀ {msg j ret s₁}, s.spciMsgSendCheck current.vm = .ok (some (msg, j)) →
        (s.mailbox j).isReady = true → s.Delivery env current.vm j msg current ret s₁ →
        s₁.mem a = s.mem a := by
      intro msg j ret s₁ hcheck hready hdelivery
      have haccepted := spciMsgSendCheck_eq_some.mp hcheck
      exact hdelivery.held h (fun harch hlawful => hspares env current notify msg j rfl haccepted
        hready harch hlawful i hheld) haccepted hready hheld ha
    cases spciMsgSend_cases hsent with
    | refused => rfl
    | busy _ _ wait =>
      obtain ⟨links, rfl⟩ := busy_frame wait
      rfl
    | failed check ready delivery _ => exact hdelivered check ready delivery
    | sent check ready delivery notified =>
      have hquiet := (spciMsgNotify_post env.timer current.vm _ current _).of_ok notified
      have hmem := hdelivered check ready delivery
      rw [hquiet.mem]
      exact hmem
  · exact congrFun ((exec_mem env current s (not_exists.mp hsend) hshare).of_ok hexec) a

/-! ## Runs -/

/-- What a step does besides the events: no other vCPU of a secondary VM gets a
return value, a vCPU that is not run gets no message, and calls that do not share
memory directly write messages only where they are delivered. -/
def HandsOver (s : Hypervisor M) (a : Action M) : Prop :=
  ∀ s', s.step a = some s' → (∀ v : VCpuId M, v.vm ≠ M.primary →
      (s'.vcpu v).regs.retvals ≠ (s.vcpu v).regs.retvals →
      s.event a = some (v.vm, .handed v)) ∧
    ∀ env current call, a = .call env current call →
      (∀ vmId vcpuIdx r, call = .vcpuRun vmId vcpuIdx →
        s.exec env current call = .ok (⟨r, none⟩, s') → s'.mailbox = s.mailbox) ∧
      ((∀ vmId addr size code, call ≠ .shareMemory vmId addr size code) →
        ∀ addr, s'.mem addr ≠ s.mem addr → ∃ msg j, s.Accepted current.vm msg j ∧
          (s.mailbox j).isReady = true ∧ s.MessageArea current j msg addr)

/-- A message to a mailbox that is not ready is refused as such. -/
def RefusesBusy (s : Hypervisor M) (a : Action M) : Prop :=
  ∀ env current notify msg j, a = .call env current (.spciMsgSend notify) →
    s.Accepted current.vm msg j → (s.mailbox j).isReady = false →
      ∃ s', s.exec env current (.spciMsgSend notify) = .ok (⟨.spci .busy, none⟩, s')

/-- Notifications are only asked for VMs with a wait entry. -/
def NotifiesInRange (s : Hypervisor M) (a : Action M) : Prop :=
  ∀ env current msg j, a = .call env current (.spciMsgSend true) →
    s.Accepted current.vm msg j → (s.mailbox j).isReady = false → M.vmId j < maxVms

/-- A vCPU that is not run gets no message. -/
theorem vcpuRun_declined (env : Env) (current : VCpuId M) (vmId vcpuIdx : Nat) (s : Hypervisor M) :
    Post (s.exec env current (.vcpuRun vmId vcpuIdx)) (fun _ => True) fun r =>
      r.1.next = none → r.2.mailbox = s.mailbox := by
  refine Post.bind (vcpuRun_post env.timer current s vmId vcpuIdx).weaken ?_
  rintro ⟨r, s'⟩ (⟨hquiet, -⟩ | ⟨v, hr, -⟩)
  · exact fun _ => hquiet.mailbox
  · dsimp only at hr
    subst hr
    exact fun h => absurd h nofun

theorem handsOver (s : Hypervisor M) (a : Action M) : s.HandsOver a := by
  intro s' h
  have hmove := step_mailbox h
  refine ⟨fun v hv hne => hmove.retvals hv hne, ?_⟩
  rintro env current call rfl
  obtain ⟨reply, hexec⟩ := step_call_eq_some.mp h
  refine ⟨?_, fun hshare addr hne => ?_⟩
  · rintro vmId vcpuIdx r rfl hdeclined
    exact (vcpuRun_declined env current vmId vcpuIdx s).of_ok hdeclined rfl
  · by_cases hsend : ∃ notify, call = .spciMsgSend notify
    · obtain ⟨notify, rfl⟩ := hsend
      obtain ⟨⟨⟨ret, next⟩, s₁⟩, hsent, hreply⟩ := bind_eq_ok.mp hexec
      cases hreply
      exact spciMsgSend_frame hsent hne
    · have hmem := (exec_mem env current s (not_exists.mp hsend) hshare).of_ok hexec
      exact absurd (congrFun hmem addr) hne

theorem refusesBusy_iff (s : Hypervisor M) (a : Action M) :
    s.RefusesBusy a ↔ s.NotifiesInRange a := by
  have hexec : ∀ (env : Env) (current : VCpuId M) (notify : Bool),
      (∃ s', s.exec env current (.spciMsgSend notify) = .ok (⟨.spci .busy, none⟩, s')) ↔
        ∃ s', s.spciMsgSend env notify current = .ok ((.busy, none), s') := by
    intro env current notify
    rw [exec]
    cases s.spciMsgSend env notify current with
    | error p => simp [bind, Except.bind]
    | ok r =>
      obtain ⟨⟨ret, next⟩, s'⟩ := r
      simp [bind, Except.bind, pure, Except.pure]
  constructor
  · rintro h env current msg j rfl haccepted hready
    exact (busy_iff haccepted hready).mp
      ((hexec _ _ _).mp (h env current true msg j rfl haccepted hready)) rfl
  · rintro h env current notify msg j rfl haccepted hready
    refine (hexec _ _ _).mpr ((busy_iff haccepted hready).mpr ?_)
    rintro rfl
    exact h env current msg j rfl haccepted hready

/-- In every run the messages of a VM go through the cycle of sending, handing over
and clearing, and only mailboxes with pages hold one; each message is handed to one
vCPU, which runs, and is written where it is delivered.  Messages to mailboxes that
are not ready are always refused as such if and only if no notification is asked for
a VM without a wait entry; and no call changes a message that is held as long as the
messages that are obeyed do not reach the pages of VMs that hold one. -/
theorem mailbox_protocol (hs : s.HoldersConfigured) (as : List (Action M)) :
    (∀ s', run step as s = some s' → s'.HoldersConfigured ∧
      ∀ i, (trace step (events i) as s).foldlM (next i) (s.mailbox i).state =
        some (s'.mailbox i).state) ∧
    Always step HandsOver as s ∧
    (Always step RefusesBusy as s ↔ Always step NotifiesInRange as s) ∧
    (s.Sound → (∀ a, Owned (s.pageState a)) → s.MessagesApart → (∀ act ∈ as, act.Ok) →
      Always step SparesHeld as s → Always step KeepsHeld as s) := by
  refine ⟨fun s' hrun => ⟨?_, fun i => ?_⟩, ?_, ?_, fun hsound howned hapart has => ?_⟩
  · exact run_invariant HoldersConfigured (G := fun _ => True)
      (fun _ _ _ hI _ h => (step_mailbox h).holdersConfigured hI) hs (fun _ _ => trivial) hrun
  · exact run_fold (next i) (fun s => (s.mailbox i).state)
      (fun _ _ _ h => (step_mailbox h).fold i) hrun
  · exact always_of_invariant (fun _ => True) (G := fun _ => True) (fun _ _ _ _ _ _ => trivial)
      (fun s a _ _ => handsOver s a) trivial fun _ _ => trivial
  · exact always_congr (fun _ => True) (G := fun _ => True) (fun _ _ _ _ _ _ => trivial)
      (fun s a _ _ => refusesBusy_iff s a) trivial fun _ _ => trivial
  · refine always_imp (fun s => s.Sound ∧ (∀ a, Owned (s.pageState a)) ∧ s.MessagesApart)
      (fun s act s' hI hact hstep => ?_) (fun s act hI _ => keepsHeld hI.2.2)
      ⟨hsound, howned, hapart⟩ has
    obtain ⟨hsound', ⟨P, hmove, -⟩, -⟩ := step_move hI.1 hact hstep
    exact ⟨hsound', hmove.owned hI.2.1, hI.2.2.step hI.1 hI.2.1 hact hstep⟩

end Hypervisor

/-! ## Examples -/

/-- The second VM sends a message to the third one, which receives it and clears its
mailbox. -/
def exampleCycle : List (Action exampleMachine) :=
  [.call exampleEnv (exampleVCpu 1) (.spciMsgSend false),
    .call exampleEnv (exampleVCpu 2) (.spciMsgRecv false),
    .call exampleEnv (exampleVCpu 2) .mailboxClear]

theorem pageState_exampleState (mem : Memory) (a : Nat) (k : exampleMachine.VmIndex) :
    (exampleState mem).pageState a k = .none :=
  congrArg PageState.ofView (view_emptyTable a)

theorem messagesApart_exampleState (mem : Memory) : (exampleState mem).MessagesApart where
  recv i j a hi hj := by
    obtain ⟨-, hi⟩ := hi
    obtain ⟨-, hj⟩ := hj
    simp only [exampleState, pageSize_eq] at hi hj
    exact Fin.ext (by omega)
  buffer i a hi hbuffer := by
    have hlt : i.val < 3 := i.isLt
    obtain ⟨-, hi⟩ := hi
    simp only [exampleState, pageSize_eq] at hi
    have : 0x80000 ≤ a := hbuffer.1
    omega
  unowned a _ k := by
    rw [pageState_exampleState]
    rfl

/-- While the third VM holds a message, the second one sends another one to the primary
VM. -/
def exampleHeld : List (Action exampleMachine) :=
  [.call exampleEnv (exampleVCpu 1) (.spciMsgSend false),
    .guest (update opaqueMemory 0x13008 1),
    .call exampleEnv (exampleVCpu 1) (.spciMsgSend false)]

theorem sparesHeld_exampleHeld :
    Always step Hypervisor.SparesHeld exampleHeld (exampleState opaqueMemory) := by
  -- only architected messages can go beyond the page of the recipient
  have hplain : ∀ {s : Hypervisor exampleMachine} {env : Env},
      (s.header (exampleVm 1)).isImpdef = true →
      s.SparesHeld (.call env (exampleVCpu 1) (.spciMsgSend false)) := by
    rintro s env hheader env' current notify msg j hcall haccepted - harch
    cases hcall
    rw [haccepted.header] at harch
    cases hheader.symm.trans harch
  refine ⟨hplain (by decide +kernel), fun s₁ h₁ => ⟨?_, fun s₂ h₂ => ⟨hplain ?_, ?_⟩⟩⟩
  · rintro env current notify msg j hcall
    cases hcall
  · cases h₂
    have hsend : ((exampleState opaqueMemory).step
        (.call exampleEnv (exampleVCpu 1) (.spciMsgSend false))).map
          (fun s => (s.mailbox (exampleVm 1)).send) = some 0x13000 := by
      decide +kernel
    rw [h₁, Option.map_some, Option.some_inj] at hsend
    rw [header, hsend]
    dsimp only
    decide +kernel
  · exact fun _ _ => trivial

/-- The cycle is followed, and the message that is held stays as it is. -/
theorem mailbox_protocol_cycle :
    (∃ s', run step exampleCycle (ownerState opaqueMemory) = some s' ∧
      trace step (events (exampleVm 2)) exampleCycle
        (ownerState opaqueMemory) = [.sent, .handed (exampleVCpu 2), .cleared] ∧
      List.foldlM (next (exampleVm 2)) .empty
        [.sent, .handed (exampleVCpu 2), .cleared] = some (s'.mailbox (exampleVm 2)).state) ∧
    Always step Hypervisor.KeepsHeld exampleHeld (exampleState opaqueMemory) := by
  have hsome : (run step exampleCycle (ownerState opaqueMemory)).isSome := by
    decide +kernel
  have htrace : trace step (events (exampleVm 2)) exampleCycle
      (ownerState opaqueMemory) = [.sent, .handed (exampleVCpu 2), .cleared] := by
    decide +kernel
  obtain ⟨s', hrun⟩ := Option.isSome_iff_exists.mp hsome
  have hfold := ((mailbox_protocol (s := ownerState opaqueMemory)
    (fun i hi => absurd rfl hi) exampleCycle).1 s' hrun).2 (exampleVm 2)
  rw [htrace] at hfold
  refine ⟨⟨s', hrun, htrace, hfold⟩, ?_⟩
  refine (mailbox_protocol (s := exampleState opaqueMemory)
    (fun i hi => absurd rfl hi) exampleHeld).2.2.2
    ⟨rfl, fun _ => regular_emptyTable false, regular_emptyTable false,
      wf_examplePool⟩ (fun a => .nobody fun k => ?_) (messagesApart_exampleState _) ?_
    sparesHeld_exampleHeld
  · exact pageState_exampleState _ a k
  · simp only [exampleHeld, List.forall_mem_cons]
    exact ⟨fun _ _ h => h, trivial, fun _ _ h => h, fun _ h => absurd h List.not_mem_nil⟩

/-- As many VMs as there can be. -/
def fullMachine : Machine where
  vmCount := 16
  vmCount_pos := by decide
  vmCount_le := by decide
  vcpuCount _ := 1
  cpuIds := [0]
  messageBuffer := 0x80000
  stage := exampleStage
  hypervisorStage := exampleStage

/-- Only the primary VM has set up its mailbox, and its send page holds a message to
the last VM. -/
def fullState : Hypervisor fullMachine where
  mpool := examplePool
  hypervisorPtable := emptyTable
  ptable _ := emptyTable
  mailbox i := if i.val = 0 then ⟨.empty, 0x10000, 0x11000⟩ else ⟨.empty, 0, 0⟩
  aborting _ := false
  vcpu _ := ⟨.ready, some 0, ⟨[], 0, 0, [], {}⟩, false, .new⟩
  links := ⟨id, id⟩
  mem a := if a = 0x11008 then 16 else if a = 0x1100a then 1 else 0

/-- Asking for a notification by the last of sixteen VMs stops the hypervisor. -/
theorem busy_panics :
    fullState.HoldersConfigured ∧
    fullState.Accepted fullMachine.primary (fullState.header fullMachine.primary) (15 : Fin 16) ∧
    (fullState.mailbox (15 : Fin 16)).isReady = false ∧
    fullState.exec exampleEnv ⟨fullMachine.primary, 0, Nat.one_pos⟩ (.spciMsgSend true) =
      .error .waitEntry := by
  refine ⟨fun i hi => ?_, ⟨by decide, rfl, by decide +kernel, by decide +kernel, by decide +kernel,
    fun h => absurd (congrArg Fin.val h) (by decide)⟩, by decide, rfl⟩
  rw [fullState] at hi
  dsimp only at hi
  split at hi
  · exact absurd rfl hi
  · exact absurd rfl hi

end Hafnium
