import Hafnium.Hypervisor
import Hafnium.Mm.IdentityMap
import Hafnium.Support.Post

/-!
# The interface as a transition system

All calls of the interface in one type with their dispatch, and the actions that
change the state of the hypervisor: calls, writes of VMs to memory, and other
uses of the page pool.  A step is described by the calls' effects; most calls
only change vCPUs.
-/

namespace Hafnium

open Support PageTable SpciMessage Machine

/-- The calls of `api.rs` that change the state or depend on it. -/
inductive Call (M : Machine)
  | preempt
  | waitForInterrupt
  | vcpuOff
  | spciYield
  | wakeUp (target : VCpuId M)
  | abort
  | vcpuGetCount (vmId : Nat)
  | regsStateSaved
  | vcpuRun (vmId vcpuIdx : Nat)
  | vmConfigure (send recv : Nat)
  | spciMsgSend (notify : Bool)
  | spciMsgRecv (block : Bool)
  | mailboxWritableGet
  | mailboxWaiterGet (vmId : Nat)
  | mailboxClear
  | interruptEnable (intid : Nat) (enable : Bool)
  | interruptGet
  | interruptInject (targetVmId targetVCpuIdx intid : Nat)
  | shareMemory (vmId addr size code : Nat)

/-- What a call returns. -/
inductive Ret
  | none
  | int (v : Int)
  | spci (r : SpciReturn)
  | run (r : HfVCpuRunReturn)
  deriving DecidableEq, Repr

/-- The result of a call, and the vCPU to switch to. -/
structure Reply (M : Machine) where
  ret : Ret
  next : Option (VCpuId M)
  deriving DecidableEq

/-- An id or -1. -/
def Ret.ofId (id : Option Nat) : Ret := .int (match id with | some id => id | Option.none => -1)

def Ret.ofOutcome : Outcome → Ret
  | .ok => .int 0
  | .err => .int (-1)

namespace Hypervisor

variable {M : Machine}

def exec (env : Env) (current : VCpuId M) (call : Call M) (s : Hypervisor M) :
    Except Panic (Reply M × Hypervisor M) := do
  match call with
  | .preempt =>
    let (next, s) ← s.preempt env.timer current
    return (⟨.none, some next⟩, s)
  | .waitForInterrupt =>
    let (next, s) ← s.waitForInterrupt env.timer current
    return (⟨.none, some next⟩, s)
  | .vcpuOff =>
    let (next, s) ← s.vcpuOff env.timer current
    return (⟨.none, some next⟩, s)
  | .spciYield =>
    let (next, s) ← s.spciYield env.timer current
    return (⟨.spci .success, next⟩, s)
  | .wakeUp target =>
    let (next, s) ← s.wakeUp env.timer current target
    return (⟨.none, some next⟩, s)
  | .abort =>
    let (next, s) ← s.abort env.timer current
    return (⟨.none, some next⟩, s)
  | .vcpuGetCount vmId =>
    let count ← vcpuGetCount vmId current
    return (⟨.int (count.getD 0), none⟩, s)
  | .regsStateSaved => return (⟨.none, none⟩, s.regsStateSaved env.timer current)
  | .vcpuRun vmId vcpuIdx =>
    let (r, s) ← s.vcpuRun env.timer vmId vcpuIdx current
    return (match r with | .ok v => ⟨.run .preempted, some v⟩ | .error r => ⟨.run r, none⟩, s)
  | .vmConfigure send recv =>
    let ((r, next), s) ← s.vmConfigure env send recv current
    return (⟨.int r, next⟩, s)
  | .spciMsgSend notify =>
    let ((r, next), s) ← s.spciMsgSend env notify current
    return (⟨.spci r, next⟩, s)
  | .spciMsgRecv block =>
    let ((r, next), s) ← s.spciMsgRecv env.timer block current
    return (⟨.spci r, next⟩, s)
  | .mailboxWritableGet =>
    let (id, s) ← s.mailboxWritableGet current
    return (⟨Ret.ofId id, none⟩, s)
  | .mailboxWaiterGet vmId =>
    let (id, s) ← s.mailboxWaiterGet vmId current
    return (⟨Ret.ofId id, none⟩, s)
  | .mailboxClear =>
    let ((r, next), s) ← s.mailboxClear env.timer current
    return (⟨.int r, next⟩, s)
  | .interruptEnable intid enable =>
    let (r, s) := s.interruptEnable intid enable current
    return (⟨Ret.ofOutcome r, none⟩, s)
  | .interruptGet =>
    let (intid, s) := s.interruptGet current
    return (⟨.int intid, none⟩, s)
  | .interruptInject targetVmId targetVCpuIdx intid =>
    let ((r, next), s) ← s.interruptInject env.timer targetVmId targetVCpuIdx intid current
    return (⟨.int r, next⟩, s)
  | .shareMemory vmId addr size code =>
    match HfShare.tryFrom code with
    | none => return (⟨.int (-1), none⟩, s)
    | some request =>
      let (r, s) ← s.shareMemory env vmId addr size request current
      return (⟨Ret.ofOutcome r, none⟩, s)

end Hypervisor

/-- What happens between two states: a call, or something outside the hypervisor. -/
inductive Action (M : Machine)
  | call (env : Env) (current : VCpuId M) (call : Call M)
  /-- VMs write to memory. -/
  | guest (mem : Memory)
  /-- Other users of the page pool take and free pages. -/
  | pool (mpool : MPool)

/-- The calls that change page tables or memory. -/
def Call.movesMemory {M : Machine} : Call M → Bool
  | .vmConfigure _ _ | .spciMsgSend _ | .shareMemory _ _ _ _ => true
  | _ => false

/-- The calls that only change vCPUs and abort flags. -/
def Call.isQuiet {M : Machine} : Call M → Bool
  | .preempt | .waitForInterrupt | .vcpuOff | .spciYield | .wakeUp _ | .abort => true
  | .vcpuGetCount _ | .regsStateSaved => true
  | .interruptEnable _ _ | .interruptGet | .interruptInject _ _ _ => true
  | _ => false

namespace Hypervisor

variable {M : Machine}

def step (s : Hypervisor M) : Action M → Option (Hypervisor M)
  | .call env current call => ((s.exec env current call).toOption).map Prod.snd
  | .guest mem => some { s with mem }
  | .pool mpool => some { s with mpool }

theorem step_call_eq_some {s s' : Hypervisor M} {env : Env} {current : VCpuId M} {call : Call M} :
    s.step (.call env current call) = some s' ↔
      ∃ reply, s.exec env current call = .ok (reply, s') := by
  rw [step]
  cases s.exec env current call with
  | error p => simp [Except.toOption]
  | ok r => simp [Except.toOption, Prod.ext_iff]

end Hypervisor

/-! ## What calls leave alone -/

theorem Machine.get_post (M : Machine) (id : Nat) :
    Post (M.get id) (· = .vmId) fun o => ∀ i, o = some i → M.vmId i = id := by
  refine .intro (fun p h => ?_) fun o h i ho => get_eq_some.mp (ho ▸ h)
  rw [get] at h
  split_ifs at h
  exact (Except.error.inj h).symm

namespace Hypervisor

variable {M : Machine} {s s' s'' : Hypervisor M}

/-- Nothing but vCPUs and the abort flags of VMs has changed, and no vCPU of a
secondary VM has got a return value. -/
structure Quiet (s s' : Hypervisor M) : Prop where
  mpool : s'.mpool = s.mpool
  hypervisorPtable : s'.hypervisorPtable = s.hypervisorPtable
  ptable : s'.ptable = s.ptable
  mailbox : s'.mailbox = s.mailbox
  links : s'.links = s.links
  mem : s'.mem = s.mem
  retvals : ∀ v, v.vm ≠ M.primary → (s'.vcpu v).regs.retvals = (s.vcpu v).regs.retvals

namespace Quiet

theorem refl (s : Hypervisor M) : s.Quiet s := ⟨rfl, rfl, rfl, rfl, rfl, rfl, fun _ _ => rfl⟩

theorem trans (h : s.Quiet s') (h' : s'.Quiet s'') : s.Quiet s'' :=
  ⟨h'.mpool.trans h.mpool, h'.hypervisorPtable.trans h.hypervisorPtable,
    h'.ptable.trans h.ptable, h'.mailbox.trans h.mailbox, h'.links.trans h.links,
    h'.mem.trans h.mem, fun v hv => (h'.retvals v hv).trans (h.retvals v hv)⟩

theorem setVCpu {v : VCpuId M} {vcpu : VCpu}
    (h : v.vm ≠ M.primary → vcpu.regs.retvals = (s.vcpu v).regs.retvals) :
    s.Quiet (s.setVCpu v vcpu) := by
  refine ⟨rfl, rfl, rfl, rfl, rfl, rfl, fun w hw => ?_⟩
  by_cases hwv : w = v
  · subst hwv
    rw [setVCpu_vcpu, Function.update_self]
    exact h hw
  · rw [setVCpu_vcpu, Function.update_of_ne hwv]

end Quiet

/-- The page tables, the page pool and memory are unchanged. -/
structure SameMemory (s s' : Hypervisor M) : Prop where
  mpool : s'.mpool = s.mpool
  hypervisorPtable : s'.hypervisorPtable = s.hypervisorPtable
  ptable : s'.ptable = s.ptable
  mem : s'.mem = s.mem

theorem SameMemory.refl (s : Hypervisor M) : s.SameMemory s := ⟨rfl, rfl, rfl, rfl⟩

theorem SameMemory.trans (h : s.SameMemory s') (h' : s'.SameMemory s'') : s.SameMemory s'' :=
  ⟨h'.mpool.trans h.mpool, h'.hypervisorPtable.trans h.hypervisorPtable,
    h'.ptable.trans h.ptable, h'.mem.trans h.mem⟩

theorem SameMemory.setMailbox (i : M.VmIndex) (mailbox : Mailbox) (s : Hypervisor M) :
    s.SameMemory (s.setMailbox i mailbox) := ⟨rfl, rfl, rfl, rfl⟩

theorem Quiet.sameMemory (h : s.Quiet s') : s.SameMemory s' :=
  ⟨h.mpool, h.hypervisorPtable, h.ptable, h.mem⟩

variable (timer : Timer) (current : VCpuId M) (s : Hypervisor M)

theorem primaryVCpu_post :
    Post (s.primaryVCpu current) (· = .primaryVCpu) fun v => v.vm = M.primary := by
  rw [primaryVCpu]
  split
  · split
    · rfl
    · rfl
  · rfl

theorem switchToPrimary_post (primaryRet : HfVCpuRunReturn) (state : VCpuStatus) :
    Post (s.switchToPrimary timer current primaryRet state) (· = .primaryVCpu) fun r =>
      r.1.vm = M.primary ∧ s.Quiet r.2 ∧ (r.2.vcpu r.1).regs.retvals =
        (primaryRet.sleepUntil timer).intoRaw :: (s.vcpu r.1).regs.retvals := by
  refine Post.bind (s.primaryVCpu_post current) fun next hnext => ⟨hnext, ?_, ?_⟩
  · exact (Quiet.setVCpu fun h => absurd hnext h).trans (.setVCpu fun _ => rfl)
  · by_cases h : next = current
    · simp [h, ArchRegs.setRetval]
    · simp [h, ArchRegs.setRetval]

/-- The state after `current` was left for `next`, which is told why. -/
def switched (timer : Timer) (current next : VCpuId M) (primaryRet : HfVCpuRunReturn)
    (state : VCpuStatus) (s : Hypervisor M) : Hypervisor M :=
  let vcpu := s.vcpu next
  let s := s.setVCpu next
    { vcpu with regs := vcpu.regs.setRetval (primaryRet.sleepUntil timer).intoRaw }
  s.setVCpu current { s.vcpu current with state := state }

variable {timer current s} in
theorem switchToPrimary_of_ok {next : VCpuId M} {primaryRet : HfVCpuRunReturn}
    {state : VCpuStatus} (h : s.primaryVCpu current = .ok next) :
    s.switchToPrimary timer current primaryRet state =
      .ok (next, s.switched timer current next primaryRet state) := by
  rw [switchToPrimary, h]
  rfl

theorem internalInterruptInject_post (target : VCpuId M) (intid : Nat) :
    Post (s.internalInterruptInject timer target intid current)
      (fun p => p = .primaryVCpu ∧ current ≠ target) fun r => s.Quiet r.2 := by
  have hquiet : s.Quiet (s.setVCpu target
      { s.vcpu target with interrupts := ((s.vcpu target).interrupts.inject intid).2 }) :=
    .setVCpu fun _ => rfl
  rw [internalInterruptInject]
  refine Post.ite (fun _ => ?_) fun _ => hquiet
  refine Post.ite (fun _ => hquiet) fun _ => ?_
  refine Post.ite (fun hne => ?_) fun _ => hquiet
  refine Post.bind ((switchToPrimary_post timer current _ _ _).mono (fun _ h => ⟨h, hne⟩)
    fun _ h => h) fun r hr => hquiet.trans hr.2.1

theorem injectTimer_post (v : VCpuId M) :
    Post (s.injectTimer timer v) (fun _ => False) fun s' => s.Quiet s' := by
  refine Post.ite (fun _ => ?_) fun _ => .refl s
  refine Post.bind ((internalInterruptInject_post timer v s v _).mono
    (fun _ h => h.2 rfl) fun _ h => h) fun r hr => hr.trans (.setVCpu fun _ => rfl)

/-- The state in which a vCPU has been given the message in the mailbox of its
VM. -/
def handed (v : VCpuId M) (s : Hypervisor M) : Hypervisor M :=
  (s.setMailbox v.vm { s.mailbox v.vm with state := .read }).setVCpu v
    { s.vcpu v with regs := (s.vcpu v).regs.setRetval SpciReturn.success.toReg }

/-- A vCPU that can run has either been given a pending message or nothing at
all. -/
theorem vcpuPrepareRun_cases (v : VCpuId M) (runRet : HfVCpuRunReturn) :
    s.Quiet (s.vcpuPrepareRun timer current v runRet).2 ∨
      (s.vcpuPrepareRun timer current v runRet).1 = none ∧ (s.mailbox v.vm).state = .received ∧
        (s.handed v).Quiet (s.vcpuPrepareRun timer current v runRet).2 := by
  rw [vcpuPrepareRun]
  split_ifs with h₁ h₂ h₃ h₄ h₅
  · exact Or.inl (.refl s)
  · exact Or.inl (.setVCpu fun _ => rfl)
  · exact Or.inl (.refl s)
  · have hreceived : (s.mailbox v.vm).state = .received := by
      by_contra hne
      simp [Mailbox.tryRead, hne] at h₄
    refine Or.inr ⟨rfl, hreceived, ?_⟩
    have hread : (s.mailbox v.vm).tryRead.2 = { s.mailbox v.vm with state := .read } := by
      rw [Mailbox.tryRead, if_pos hreceived]
    refine ⟨rfl, rfl, rfl, ?_, rfl, rfl, fun w _ => ?_⟩
    · exact congrArg (Function.update s.mailbox v.vm) hread
    · by_cases hwv : w = v <;> simp [handed, setMailbox, hwv]
  · exact Or.inl (.refl s)
  · exact Or.inl (.setVCpu fun _ => rfl)

/-- A call that does not run a vCPU changes nothing; one that does gives it the
pending message of its VM if it waits for one. -/
theorem vcpuRun_post (vmId vcpuIdx : Nat) :
    Post (s.vcpuRun timer vmId vcpuIdx current) (· = .vmId) fun r =>
      (s.Quiet r.2 ∧ ∀ v, r.1 = .ok v → v.vm ≠ M.primary) ∨
        ∃ v, r.1 = .ok v ∧ v.vm ≠ M.primary ∧ (s.mailbox v.vm).state = .received ∧
          (s.handed v).Quiet r.2 := by
  have hdeclined : ∀ ret : HfVCpuRunReturn, (s.Quiet s ∧ ∀ v : VCpuId M,
      (Except.error ret : Except HfVCpuRunReturn (VCpuId M)) = .ok v → v.vm ≠ M.primary) :=
    fun _ => ⟨.refl s, nofun⟩
  rw [vcpuRun]
  refine Post.ite (fun _ => Or.inl (hdeclined _)) fun _ => ?_
  refine Post.ite (fun _ => Or.inl (hdeclined _)) fun hsecondary => ?_
  refine Post.bind (M.get_post vmId) fun o ho => ?_
  split
  · exact Or.inl (hdeclined _)
  · rename_i vm
    have hvm : vm ≠ M.primary := by
      rw [← vmId_eq_primary.ne, ho vm rfl]
      exact hsecondary
    split
    · rename_i hidx
      have hcases := s.vcpuPrepareRun_cases timer current ⟨vm, vcpuIdx, hidx⟩
        (.waitForInterrupt hfSleepIndefinite)
      dsimp only
      generalize s.vcpuPrepareRun timer current ⟨vm, vcpuIdx, hidx⟩
        (.waitForInterrupt hfSleepIndefinite) = r at hcases ⊢
      obtain ⟨_ | ret, s'⟩ := r
      · refine Post.bind ((injectTimer_post timer s' ⟨vm, vcpuIdx, hidx⟩).mono
          (fun _ h => h.elim) fun _ h => h) fun s'' hs'' => ?_
        rcases hcases with hquiet | ⟨-, hreceived, hquiet⟩
        · refine Or.inl ⟨hquiet.trans hs'', ?_⟩
          rintro v ⟨⟩
          exact hvm
        · exact Or.inr ⟨_, rfl, hvm, hreceived, hquiet.trans hs''⟩
      · rcases hcases with hquiet | ⟨hnone, -⟩
        · exact Or.inl ⟨hquiet, nofun⟩
        · contradiction
    · exact Or.inl (hdeclined _)

/-- What a VM is told when its mailbox has become writable: nothing if nobody
waits, else by a return value of its own or of the primary VM. -/
def Told (i : M.VmIndex) (s : Hypervisor M) (r : (Int × Option (VCpuId M)) × Hypervisor M) : Prop :=
  s.Quiet r.2 ∧ ((s.isWaiterListEmpty i = true ∧ r.1 = (0, none)) ∨
      (s.isWaiterListEmpty i = false ∧ i = M.primary ∧ r.1 = (1, none)) ∨
      (s.isWaiterListEmpty i = false ∧ i ≠ M.primary ∧ ∃ v, r.1 = (0, some v) ∧
        v.vm = M.primary ∧ (r.2.vcpu v).regs.retvals =
          HfVCpuRunReturn.notifyWaiters.intoRaw :: (s.vcpu v).regs.retvals))

theorem waiterResult_post (i : M.VmIndex) :
    Post (s.waiterResult timer i current) (· = .primaryVCpu) (s.Told i) := by
  rw [waiterResult]
  refine Post.ite (fun h => ⟨.refl s, Or.inl ⟨h, rfl⟩⟩) fun h => ?_
  have h' := Bool.eq_false_of_not_eq_true h
  refine Post.ite (fun hp => ⟨.refl s, Or.inr (Or.inl ⟨h', vmId_eq_primary.mp hp, rfl⟩)⟩)
    fun hp => ?_
  refine Post.bind (switchToPrimary_post timer current s .notifyWaiters .ready) fun r hr => ?_
  exact ⟨hr.2.1, Or.inr (Or.inr ⟨h', mt vmId_eq_primary.mpr hp, r.1, rfl, hr.1, hr.2.2⟩)⟩

/-- A message is only handed to a secondary VM that has one. -/
theorem spciMsgRecv_post (block : Bool) :
    Post (s.spciMsgRecv timer block current) (· = .primaryVCpu) fun r =>
      (r.1 = (.success, none) ∧ current.vm ≠ M.primary ∧ (s.mailbox current.vm).state = .received ∧
        r.2 = s.setMailbox current.vm { s.mailbox current.vm with state := .read }) ∨
      (r.1.1 ≠ .success ∧ s.Quiet r.2) := by
  rw [spciMsgRecv]
  refine Post.ite (fun _ => Or.inr ⟨nofun, .refl s⟩) fun hp => ?_
  rw [Mailbox.tryRead]
  by_cases hstate : (s.mailbox current.vm).state = .received
  · rw [if_pos hstate]
    exact Or.inl ⟨rfl, mt vmId_eq_primary.mpr hp, hstate, rfl⟩
  · rw [if_neg hstate]
    refine Post.ite (fun h => absurd h nofun) fun _ => ?_
    refine Post.ite (fun _ => Or.inr ⟨nofun, .refl s⟩) fun _ => ?_
    refine Post.ite (fun _ => ?_) fun _ => Or.inr ⟨nofun, .refl s⟩
    exact Post.bind (switchToPrimary_post timer current s _ _) fun r hr => Or.inr ⟨nofun, hr.2.1⟩

/-- A mailbox is emptied if its message has been read. -/
theorem mailboxClear_post : Post (s.mailboxClear timer current) (· = .primaryVCpu) fun r =>
      ((s.mailbox current.vm).state ≠ .read ∧ r.2 = s) ∨
      ((s.mailbox current.vm).state = .read ∧
        (s.setMailbox current.vm { s.mailbox current.vm with state := .empty }).Told current.vm
          r) := by
  rw [mailboxClear]
  split
  · rename_i h
    exact Or.inl ⟨by rw [h]; nofun, rfl⟩
  · rename_i h
    exact Or.inl ⟨by rw [h]; nofun, rfl⟩
  · rename_i h
    exact (waiterResult_post timer current _ current.vm).mono (fun _ h => h) fun r hr =>
      Or.inr ⟨h, hr⟩

/-- Nothing but page tables, the page pool and memory has changed. -/
structure SameVms (s s' : Hypervisor M) : Prop where
  mailbox : s'.mailbox = s.mailbox
  links : s'.links = s.links
  vcpu : s'.vcpu = s.vcpu
  aborting : s'.aborting = s.aborting

theorem SameVms.refl (s : Hypervisor M) : s.SameVms s := ⟨rfl, rfl, rfl, rfl⟩

theorem SameVms.putTransfer (i j : M.VmIndex) (t : Transfer M.stage M.hypervisorStage)
    (s : Hypervisor M) : s.SameVms (s.putTransfer i j t) := ⟨rfl, rfl, rfl, rfl⟩

theorem shareMemory_sameVms (env : Env) (vmId addr size : Nat) (request : HfShare) :
    Post (s.shareMemory env vmId addr size request current) (fun _ => True) fun r =>
      s.SameVms r.2 := by
  refine Post.ite (fun _ => .refl s) fun _ => ?_
  refine Post.bind (M.get_post vmId).weaken fun o _ => ?_
  split
  · exact .refl s
  · exact Post.bind_ok fun _ _ => .putTransfer _ _ _ s

/-- Mailbox pages are only set once. -/
theorem configure_post (env : Env) (send recv : Nat) (i : M.VmIndex) :
    Post (s.configure env send recv i) (fun _ => True) fun r =>
      (r.1 = .err ∧ s.SameVms r.2) ∨
      (r.1 = .ok ∧ (s.mailbox i).isConfigured = false ∧ ∃ s₁, s.SameVms s₁ ∧
        r.2 = s₁.setMailbox i { s.mailbox i with send, recv }) := by
  refine Post.ite (fun _ => Or.inl ⟨rfl, .refl s⟩) fun h => ?_
  refine Post.bind_ok fun r _ => ?_
  have hsame : s.SameVms (s.putMailboxSetup i r.2) := ⟨rfl, rfl, rfl, rfl⟩
  refine Post.ite (fun _ => Or.inl ⟨rfl, hsame⟩) fun _ => ?_
  exact Or.inr ⟨rfl, Bool.eq_false_of_not_eq_true h, _, hsame, rfl⟩

theorem vmConfigure_post (env : Env) (send recv : Nat) :
    Post (s.vmConfigure env send recv current) (fun _ => True) fun r =>
      (r.1 = (-1, none) ∧ s.SameVms r.2) ∨
      ((s.mailbox current.vm).isConfigured = false ∧ ∃ s₁, s.SameVms s₁ ∧
        (s₁.setMailbox current.vm { s.mailbox current.vm with send, recv }).Told current.vm r) := by
  refine Post.bind (configure_post s env send recv current.vm) ?_
  rintro ⟨r, s₁⟩ (⟨hr, hsame⟩ | ⟨hr, hnot, s₂, hsame, hs₁⟩)
  · dsimp only at hr
    subst hr
    exact Or.inl ⟨rfl, hsame⟩
  · dsimp only at hr hs₁
    subst hr
    subst hs₁
    exact (waiterResult_post env.timer current _ current.vm).mono (fun _ _ => trivial)
      fun r hr => Or.inr ⟨hnot, s₂, hsame, hr⟩

/-- Sharing memory by a message returns one of three codes. -/
theorem spciShareMemory_ret {S H : Stage} (env : Interference)
    (constituent : SpciMemoryRegionConstituent) (attributes : Mode) (share : SpciMemoryShare)
    (t : Transfer S H) :
    Post (spciShareMemory env constituent attributes share t) (fun _ => True) fun r =>
      r.1 ≠ .busy := by
  rw [spciShareMemory]
  split
  · exact nofun
  · refine Post.bind_ok fun r _ => ?_
    refine Post.ite (fun _ => nofun) fun _ => ?_
    refine Post.bind_ok fun r' _ => ?_
    dsimp only
    split <;> exact nofun

theorem abort_post : Post (s.abort timer current) (fun _ => True) fun r => s.Quiet r.2 := by
  refine Post.ite (fun _ => trivial) fun _ => ?_
  refine (switchToPrimary_post timer current _ _ _).mono (fun _ _ => trivial) fun r hr => ?_
  exact ⟨hr.2.1.mpool, hr.2.1.hypervisorPtable, hr.2.1.ptable, hr.2.1.mailbox, hr.2.1.links,
    hr.2.1.mem, hr.2.1.retvals⟩

theorem interruptInject_post (targetVmId targetVCpuIdx intid : Nat) :
    Post (s.interruptInject timer targetVmId targetVCpuIdx intid current) (fun _ => True)
      fun r => s.Quiet r.2 := by
  refine Post.bind (M.get_post targetVmId).weaken fun o _ => ?_
  split
  · exact .refl s
  · refine Post.ite (fun _ => .refl s) fun _ => ?_
    refine Post.ite (fun _ => .refl s) fun _ => ?_
    split
    · exact (internalInterruptInject_post timer current s _ intid).mono (fun _ _ => trivial)
        fun _ h => h
    · exact .refl s

theorem exec_quiet (env : Env) {call : Call M} (hcall : call.isQuiet = true) :
    Post (s.exec env current call) (fun _ => True) fun r => s.Quiet r.2 := by
  have hswitch : ∀ (timer : Timer) (ret : HfVCpuRunReturn) (state : VCpuStatus),
      Post (s.switchToPrimary timer current ret state) (fun _ => True) fun r => s.Quiet r.2 :=
    fun timer ret state => (switchToPrimary_post timer current s ret state).mono
      (fun _ _ => trivial) fun _ h => h.2.1
  cases call with
  | preempt | waitForInterrupt | vcpuOff | wakeUp =>
    exact Post.bind (hswitch _ _ _) fun _ h => h
  | spciYield =>
    have hyield : Post (s.spciYield env.timer current) (fun _ => True) fun r => s.Quiet r.2 :=
      Post.ite (fun _ => .refl s) fun _ => Post.bind (hswitch _ _ _) fun _ h => h
    exact Post.bind hyield fun _ h => h
  | abort => exact Post.bind (abort_post _ _ _) fun _ h => h
  | vcpuGetCount =>
    exact Post.bind_ok fun _ _ => .refl s
  | regsStateSaved | interruptEnable | interruptGet => exact .setVCpu fun _ => rfl
  | interruptInject => exact Post.bind (interruptInject_post _ _ _ _ _ _) fun _ h => h
  | vcpuRun | vmConfigure | spciMsgSend | spciMsgRecv | mailboxWritableGet | mailboxWaiterGet
  | mailboxClear | shareMemory => contradiction

/-- Taking an entry from a ready list only changes links. -/
theorem mailboxWritableGet_frame : Post (s.mailboxWritableGet current) (fun _ => True) fun r =>
      ∃ links, r.2 = { s with links } := by
  rw [mailboxWritableGet, dequeueReadyList]
  refine Post.ite (fun _ => ⟨s.links, rfl⟩) fun _ => ?_
  dsimp only
  split
  · exact Post.ite (fun _ => ⟨_, rfl⟩) fun _ => trivial
  · trivial

/-- Taking an entry from a waiter list only changes links. -/
theorem mailboxWaiterGet_frame (vmId : Nat) :
    Post (s.mailboxWaiterGet vmId current) (fun _ => True) fun r =>
      ∃ links, r.2 = { s with links } := by
  have hfetch : ∀ i, Post (s.fetchWaiter i) (fun _ => True) fun r =>
      ∃ links, r.2 = { s with links } := by
    intro i
    refine Post.ite (fun _ => ⟨s.links, rfl⟩) fun _ => ?_
    dsimp only
    split
    · exact ⟨_, rfl⟩
    · trivial
  refine Post.ite (fun _ => ⟨s.links, rfl⟩) fun _ => ?_
  refine Post.bind (M.get_post vmId).weaken fun o _ => ?_
  split
  · exact ⟨s.links, rfl⟩
  · refine Post.bind (hfetch _) ?_
    rintro ⟨_ | ⟨waiting, slot⟩, s₁⟩ ⟨links, rfl⟩
    · exact ⟨links, rfl⟩
    · dsimp only
      split
      · exact ⟨_, rfl⟩
      · exact ⟨links, rfl⟩

theorem exec_sameMemory (env : Env) {call : Call M} (hcall : call.movesMemory = false) :
    Post (s.exec env current call) (fun _ => True) fun r => s.SameMemory r.2 := by
  by_cases hquiet : call.isQuiet = true
  · exact (exec_quiet current s env hquiet).mono (fun _ h => h) fun _ h => h.sameMemory
  cases call with
  | vcpuRun =>
    refine Post.bind (vcpuRun_post _ _ _ _ _).weaken
      fun r hr => ?_
    rcases hr with ⟨h, -⟩ | ⟨v, -, -, -, h⟩
    · exact h.sameMemory
    · have hhanded : s.SameMemory (s.handed v) := ⟨rfl, rfl, rfl, rfl⟩
      exact hhanded.trans h.sameMemory
  | spciMsgRecv =>
    refine Post.bind (spciMsgRecv_post _ _ _ _).weaken
      fun r hr => ?_
    rcases hr with ⟨-, -, -, h⟩ | ⟨-, h⟩
    · exact (congrArg s.SameMemory h).mpr (.setMailbox _ _ s)
    · exact h.sameMemory
  | mailboxClear =>
    refine Post.bind (mailboxClear_post _ _ _).weaken
      fun r hr => ?_
    rcases hr with ⟨-, h⟩ | ⟨-, h, -⟩
    · exact (congrArg s.SameMemory h).mpr (.refl s)
    · exact (SameMemory.setMailbox _ _ s).trans h.sameMemory
  | mailboxWritableGet =>
    refine Post.bind (mailboxWritableGet_frame _ _) ?_
    rintro ⟨id, s'⟩ ⟨links, rfl⟩
    exact ⟨rfl, rfl, rfl, rfl⟩
  | mailboxWaiterGet =>
    refine Post.bind (mailboxWaiterGet_frame _ _ _) ?_
    rintro ⟨id, s'⟩ ⟨links, rfl⟩
    exact ⟨rfl, rfl, rfl, rfl⟩
  | vmConfigure | spciMsgSend | shareMemory => contradiction
  | preempt | waitForInterrupt | vcpuOff | spciYield | wakeUp | abort | vcpuGetCount
  | regsStateSaved | interruptEnable | interruptGet | interruptInject => exact absurd rfl hquiet

end Hypervisor

/-! ## Ids of no VM -/

section UnknownIds

variable {M : Machine} {id : Nat}

theorem Machine.get_of_unknown (hid : ∀ i, M.vmId i ≠ id) :
    M.get id = if id = 0 then .error .vmId else .ok none := by
  rw [get]
  by_cases hzero : id = 0
  · rw [if_pos hzero, if_pos (by rw [hzero]; decide)]
  · have hoffset : ¬id < hfVmIdOffset := by
      rw [hfVmIdOffset]
      omega
    rw [if_neg hzero, if_neg hoffset, dif_neg]
    intro h
    refine hid ⟨id - hfVmIdOffset, h⟩ ?_
    rw [vmId]
    exact Nat.sub_add_cancel (Nat.not_lt.mp hoffset)

/-- A call that looks up the id of no VM returns its error result in an unchanged
state unless the id is 0, in which case it panics; the calls differ in the checks
they make before the lookup. -/
theorem unknown_id_iff (s : Hypervisor M) (env : Env) (current : VCpuId M)
    (hid : ∀ i, M.vmId i ≠ id) :
    (Hypervisor.vcpuGetCount id current = .ok none ↔
      id ≠ 0 ∨ M.vmId current.vm ≠ hfPrimaryVmId) ∧
    (∀ vcpuIdx, s.vcpuRun env.timer id vcpuIdx current =
        .ok (.error (.waitForInterrupt hfSleepIndefinite), s) ↔
      id ≠ 0 ∨ M.vmId current.vm ≠ hfPrimaryVmId) ∧
    (∀ notify, (read s.mem (s.mailbox current.vm).send).targetVmId = id →
      (s.spciMsgSend env notify current = .ok ((.invalidParameters, none), s) ↔
        id ≠ 0 ∨ (s.mailbox current.vm).send = 0 ∨
          (read s.mem (s.mailbox current.vm).send).sourceVmId ≠ M.vmId current.vm ∨
          spciMsgPayloadMax < (read s.mem (s.mailbox current.vm).send).length)) ∧
    (s.mailboxWaiterGet id current = .ok (none, s) ↔
      id ≠ 0 ∨ M.vmId current.vm ≠ hfPrimaryVmId) ∧
    (∀ vcpuIdx intid, s.interruptInject env.timer id vcpuIdx intid current =
        .ok ((-1, none), s) ↔ id ≠ 0) ∧
    (∀ addr size request, s.shareMemory env id addr size request current = .ok (.err, s) ↔
      id ≠ 0) := by
  have hprimary : id ≠ hfPrimaryVmId := fun h => hid M.primary h.symm
  have hcurrent : id ≠ M.vmId current.vm := fun h => hid current.vm h.symm
  have hget := get_of_unknown hid
  refine ⟨?_, fun vcpuIdx => ?_, fun notify htarget => ?_, ?_, fun vcpuIdx intid => ?_,
    fun addr size request => ?_⟩
  · rw [Hypervisor.vcpuGetCount, hget]
    by_cases hcaller : M.vmId current.vm ≠ hfPrimaryVmId <;> by_cases hzero : id = 0 <;>
      simp [hcaller, hzero, bind, Except.bind, pure, Except.pure]
  · rw [Hypervisor.vcpuRun, hget, if_neg hprimary]
    by_cases hcaller : M.vmId current.vm ≠ hfPrimaryVmId <;> by_cases hzero : id = 0 <;>
      simp [hcaller, hzero, bind, Except.bind, pure, Except.pure]
  · rw [Hypervisor.spciMsgSend, Hypervisor.spciMsgSendCheck]
    dsimp only
    rw [htarget, hget, if_neg hcurrent]
    by_cases hsend : (s.mailbox current.vm).send = 0
    · simp [hsend, bind, Except.bind, pure, Except.pure]
    by_cases hsource : (read s.mem (s.mailbox current.vm).send).sourceVmId ≠
      M.vmId current.vm
    · simp [hsend, hsource, bind, Except.bind, pure, Except.pure]
    by_cases hlength : spciMsgPayloadMax <
      (read s.mem (s.mailbox current.vm).send).length
    · simp [hsend, hsource, hlength, bind, Except.bind, pure, Except.pure]
    by_cases hzero : id = 0 <;>
      simp [hsend, hsource, hlength, hzero, bind, Except.bind, pure, Except.pure]
  · rw [Hypervisor.mailboxWaiterGet, hget]
    by_cases hcaller : M.vmId current.vm ≠ hfPrimaryVmId <;> by_cases hzero : id = 0 <;>
      simp [hcaller, hzero, bind, Except.bind, pure, Except.pure]
  · rw [Hypervisor.interruptInject, hget]
    by_cases hzero : id = 0 <;> simp [hzero, bind, Except.bind, pure, Except.pure]
  · rw [Hypervisor.shareMemory, hget, if_neg hcurrent]
    by_cases hzero : id = 0 <;> simp [hzero, bind, Except.bind, pure, Except.pure]

end UnknownIds

/-- Three VMs with one vCPU each, on one physical CPU. -/
def exampleMachine : Machine where
  vmCount := 3
  vmCount_pos := by decide
  vmCount_le := by decide
  vcpuCount _ := 1
  cpuIds := [0]
  messageBuffer := 0x80000
  stage := exampleStage
  hypervisorStage := exampleStage

instance exampleVm_neZero : NeZero 3 := ⟨by decide⟩

def exampleVm (i : Fin 3) : exampleMachine.VmIndex := i

/-- The vCPU of a VM. -/
def exampleVCpu (i : Fin 3) : VCpuId exampleMachine := ⟨exampleVm i, 0, Nat.one_pos⟩

/-- Two physical CPUs, and three vCPUs in each VM. -/
def pairMachine : Machine where
  __ := exampleMachine
  vcpuCount _ := 3
  cpuIds := [0, 1]

def pairVCpu (i k : Fin 3) : VCpuId pairMachine := ⟨i, k⟩

/-- All mailboxes are configured and empty, and no VM has any memory. -/
def exampleState (mem : Memory) : Hypervisor exampleMachine where
  mpool := examplePool
  hypervisorPtable := emptyTable
  ptable _ := emptyTable
  mailbox i := ⟨.empty, 0x10000 + 0x2000 * i, 0x11000 + 0x2000 * i⟩
  aborting _ := false
  vcpu _ := ⟨.ready, some 0, ⟨[], 0, 0, [], {}⟩, false, .new⟩
  links := ⟨id, id⟩
  mem

def pairState : Hypervisor pairMachine where
  mpool := examplePool
  hypervisorPtable := emptyTable
  ptable _ := emptyTable
  mailbox _ := ⟨.empty, 0, 0⟩
  aborting _ := false
  vcpu _ := ⟨.ready, some 0, ⟨[], 0, 0, [], {}⟩, false, .new⟩
  links := ⟨id, id⟩
  mem _ := 0

/-- The send page of the primary VM holds an empty message to the id 0. -/
def zeroIdMemory : Memory := fun a => if a = 0x1100a then 1 else 0

def exampleEnv : Env := ⟨⟨0, 0, 0, 1⟩, fun _ p => p⟩

/-- The id 0 stops the hypervisor in each of the calls. -/
theorem zero_id_panics :
    (∀ i, exampleMachine.vmId i ≠ 0) ∧
    Hypervisor.vcpuGetCount 0 (exampleVCpu 0) = .error .vmId ∧
    (exampleState zeroIdMemory).vcpuRun exampleEnv.timer 0 0 (exampleVCpu 0) = .error .vmId ∧
    (exampleState zeroIdMemory).spciMsgSend exampleEnv false (exampleVCpu 0) = .error .vmId ∧
    (exampleState zeroIdMemory).mailboxWaiterGet 0 (exampleVCpu 0) = .error .vmId ∧
    (exampleState zeroIdMemory).interruptInject exampleEnv.timer 0 0 0 (exampleVCpu 1) =
      .error .vmId ∧
    (exampleState zeroIdMemory).shareMemory exampleEnv 0 0 0x1000 .give (exampleVCpu 1) =
      .error .vmId :=
  ⟨by decide, rfl, rfl, rfl, rfl, rfl, rfl⟩

/-- The id 7 of no VM is refused. -/
theorem unknown_id_refused :
    (exampleState zeroIdMemory).shareMemory exampleEnv 7 0 0x1000 .give (exampleVCpu 1) =
      .ok (.err, exampleState zeroIdMemory) :=
  ((unknown_id_iff (exampleState zeroIdMemory) exampleEnv (exampleVCpu 1)
    (by decide)).2.2.2.2.2 0 0x1000 .give).mpr (by decide)

end Hafnium
