import Hafnium.Messages
import Hafnium.Psci

/-!
# What calls do to vCPUs

A call stays, switches back to the primary VM, or runs a vCPU; `exec_switches` and
`vcpuRun_runs` say what each of these does to locks, recorded CPUs and return values.
-/

namespace Hafnium

open Support Function Hypervisor Option

/-- The calls that do not run a vCPU; `regsStateSaved` is no call of a VM. -/
def Call.switchesBack {M : Machine} : Call M → Bool
  | .vcpuRun _ _ | .regsStateSaved => false
  | _ => true

namespace Hypervisor

variable {M : Machine} {s s' s'' : Hypervisor M} {current next v : VCpuId M}

/-! ## What calls do to vCPUs -/

/-- No lock, no recorded CPU and no return value has changed, and a VM that aborts still
does. -/
structure Steady (s s' : Hypervisor M) : Prop where
  locked : ∀ v, (s'.vcpu v).locked = (s.vcpu v).locked
  cpu : ∀ v, (s'.vcpu v).cpu = (s.vcpu v).cpu
  retvals : ∀ v, (s'.vcpu v).regs.retvals = (s.vcpu v).regs.retvals
  aborting : ∀ i, s.aborting i = true → s'.aborting i = true

/-- The physical CPU of `current` goes on with `next`, whose `HF_VCPU_RUN` returns
`ret`. -/
structure SwitchesBack (current next : VCpuId M) (ret : HfVCpuRunReturn)
    (s s' : Hypervisor M) : Prop where
  primary : s.primaryVCpu current = .ok next
  locked : ∀ v, (s'.vcpu v).locked = (s.vcpu v).locked
  cpu : ∀ v, (s'.vcpu v).cpu = (s.vcpu v).cpu
  result : (s'.vcpu next).regs.retvals = ret.intoRaw :: (s.vcpu next).regs.retvals
  others : ∀ v, v ≠ next → (s'.vcpu v).regs.retvals = (s.vcpu v).regs.retvals
  aborting : ∀ i, s.aborting i = true → s'.aborting i = true

/-- The physical CPU of `current` goes on with `v`, which was not running. -/
structure Runs (current v : VCpuId M) (s s' : Hypervisor M) : Prop where
  scheduler : current.vm = M.primary
  secondary : v.vm ≠ M.primary
  free : (s.vcpu v).locked = false
  alive : s.aborting v.vm = false
  locked : (s'.vcpu v).locked = true
  cpu : (s'.vcpu v).cpu = (s.vcpu current).cpu
  others : ∀ w, w ≠ v → s'.vcpu w = s.vcpu w
  aborting : ∀ i, s.aborting i = true → s'.aborting i = true

/-- A call of `current` that does not run another vCPU. -/
inductive Switches (current : VCpuId M) (s : Hypervisor M) : Option (VCpuId M) → Hypervisor M → Prop
  | stays {s' : Hypervisor M} (h : s.Steady s') : Switches current s none s'
  | back {next : VCpuId M} {ret : HfVCpuRunReturn} {s' : Hypervisor M}
      (h : s.SwitchesBack current next ret s') : Switches current s (some next) s'

theorem Steady.refl (s : Hypervisor M) : s.Steady s :=
  ⟨fun _ => rfl, fun _ => rfl, fun _ => rfl, fun _ h => h⟩

theorem Steady.trans (h : s.Steady s') (h' : s'.Steady s'') : s.Steady s'' where
  locked v := (h'.locked v).trans (h.locked v)
  cpu v := (h'.cpu v).trans (h.cpu v)
  retvals v := (h'.retvals v).trans (h.retvals v)
  aborting i hi := h'.aborting i (h.aborting i hi)

theorem Steady.of_eq (hvcpu : s'.vcpu = s.vcpu) (haborting : s'.aborting = s.aborting) :
    s.Steady s' := by
  refine ⟨fun v => ?_, fun v => ?_, fun v => ?_, fun i => ?_⟩
  · rw [hvcpu]
  · rw [hvcpu]
  · rw [hvcpu]
  · rw [haborting]
    exact id

theorem SameVms.steady (h : s.SameVms s') : s.Steady s' := .of_eq h.vcpu h.aborting

theorem Steady.setVCpu {vcpu : VCpu} (hlocked : vcpu.locked = (s.vcpu v).locked)
    (hcpu : vcpu.cpu = (s.vcpu v).cpu)
    (hretvals : vcpu.regs.retvals = (s.vcpu v).regs.retvals) :
    s.Steady (s.setVCpu v vcpu) := by
  refine ⟨fun w => ?_, fun w => ?_, fun w => ?_, fun _ h => h⟩
  all_goals
    rw [setVCpu_vcpu, update_apply]
    split
    · next h =>
        rw [h]
        assumption
    · rfl

theorem primaryVCpu_congr (h : ∀ v, (s'.vcpu v).cpu = (s.vcpu v).cpu) (current : VCpuId M) :
    s'.primaryVCpu current = s.primaryVCpu current := by
  rw [primaryVCpu, primaryVCpu, h]

theorem Steady.switchesBack {ret : HfVCpuRunReturn} (h : s.Steady s')
    (h' : s'.SwitchesBack current next ret s'') : s.SwitchesBack current next ret s'' where
  primary := by
    rw [← primaryVCpu_congr h.cpu]
    exact h'.primary
  locked v := (h'.locked v).trans (h.locked v)
  cpu v := (h'.cpu v).trans (h.cpu v)
  result := by rw [h'.result, h.retvals]
  others v hv := (h'.others v hv).trans (h.retvals v)
  aborting i hi := h'.aborting i (h.aborting i hi)

theorem SwitchesBack.steady {ret : HfVCpuRunReturn} (h : s.SwitchesBack current next ret s')
    (h' : s'.Steady s'') : s.SwitchesBack current next ret s'' where
  primary := h.primary
  locked v := (h'.locked v).trans (h.locked v)
  cpu v := (h'.cpu v).trans (h.cpu v)
  result := (h'.retvals next).trans h.result
  others v hv := (h'.retvals v).trans (h.others v hv)
  aborting i hi := h'.aborting i (h.aborting i hi)

theorem Steady.switches {o : Option (VCpuId M)} (h : s.Steady s')
    (h' : s'.Switches current o s'') : s.Switches current o s'' := by
  cases h' with
  | stays h' => exact .stays (h.trans h')
  | back h' => exact .back (h.switchesBack h')

/-- The result is written first, then the status of the vCPU that is left. -/
theorem switched_switchesBack (timer : Timer) (ret : HfVCpuRunReturn) (state : VCpuStatus)
    (h : s.primaryVCpu current = .ok next) :
    s.SwitchesBack current next (ret.sleepUntil timer)
      (s.switched timer current next ret state) := by
  have hwritten : s.SwitchesBack current next (ret.sleepUntil timer) (s.setVCpu next
      { s.vcpu next with
        regs := (s.vcpu next).regs.setRetval (ret.sleepUntil timer).intoRaw }) := by
    refine ⟨h, fun v => ?_, fun v => ?_, ?_, fun v hv => ?_, fun _ h => h⟩
    · rw [setVCpu_vcpu, update_apply]
      split
      · next hv => rw [hv]
      · rfl
    · rw [setVCpu_vcpu, update_apply]
      split
      · next hv => rw [hv]
      · rfl
    · rw [setVCpu_vcpu, update_self]
      rfl
    · rw [setVCpu_vcpu, update_of_ne hv]
  exact hwritten.steady (.setVCpu rfl rfl rfl)

section Calls

variable (timer : Timer) (current : VCpuId M) (s : Hypervisor M)

theorem switchToPrimary_switches (ret : HfVCpuRunReturn) (state : VCpuStatus) :
    Post (s.switchToPrimary timer current ret state) (fun _ => True) fun r =>
      s.Switches current (some r.1) r.2 := by
  cases h : s.primaryVCpu current with
  | error e =>
    rw [switchToPrimary, h]
    exact trivial
  | ok next =>
    rw [switchToPrimary_of_ok h]
    exact .back (switched_switchesBack timer ret state h)

theorem spciYield_switches :
    Post (s.spciYield timer current) (fun _ => True) fun r => s.Switches current r.1 r.2 :=
  Post.ite (fun _ => .stays (.refl s)) fun _ =>
    Post.bind (switchToPrimary_switches timer current s _ _) fun _ h => h

theorem abort_switches : Post (s.abort timer current) (fun _ => True) fun r =>
      s.Switches current (some r.1) r.2 ∧ r.2.aborting current.vm = true := by
  refine Post.ite (fun _ => trivial) fun _ => ?_
  have hsteady : s.Steady { s with aborting := update s.aborting current.vm true } := by
    refine ⟨fun _ => rfl, fun _ => rfl, fun _ => rfl, fun i hi => ?_⟩
    dsimp only
    rw [update_apply]
    split
    · rfl
    · exact hi
  refine (switchToPrimary_switches timer current _ _ _).mono (fun _ h => h) fun r hr =>
    ⟨hsteady.switches hr, ?_⟩
  cases hr with
  | back h => exact h.aborting _ (update_self ..)

theorem internalInterruptInject_switches (target : VCpuId M) (intid : Nat) :
    Post (s.internalInterruptInject timer target intid current) (fun _ => True) fun r =>
      s.Switches current r.1.2 r.2 := by
  have hsteady : s.Steady (s.setVCpu target
      { s.vcpu target with interrupts := ((s.vcpu target).interrupts.inject intid).2 }) :=
    .setVCpu rfl rfl rfl
  rw [internalInterruptInject]
  refine Post.ite (fun _ => ?_) fun _ => .stays hsteady
  refine Post.ite (fun _ => .stays hsteady) fun _ => ?_
  refine Post.ite (fun _ => ?_) fun _ => .stays hsteady
  exact Post.bind (switchToPrimary_switches timer current _ _ _) fun _ h => hsteady.switches h

theorem interruptInject_switches (targetVmId targetVCpuIdx intid : Nat) :
    Post (s.interruptInject timer targetVmId targetVCpuIdx intid current) (fun _ => True) fun r =>
      s.Switches current r.1.2 r.2 := by
  have hstays : s.Switches current none s := .stays (.refl s)
  refine Post.bind (M.get_post targetVmId).weaken fun o _ => ?_
  split
  · exact hstays
  · refine Post.ite (fun _ => hstays) fun _ => ?_
    refine Post.ite (fun _ => hstays) fun _ => ?_
    split
    · exact internalInterruptInject_switches timer current s _ _
    · exact hstays

theorem waiterResult_switches (i : M.VmIndex) :
    Post (s.waiterResult timer i current) (fun _ => True) fun r =>
      s.Switches current r.1.2 r.2 := by
  refine Post.ite (fun _ => .stays (.refl s)) fun _ => ?_
  refine Post.ite (fun _ => .stays (.refl s)) fun _ => ?_
  exact Post.bind (switchToPrimary_switches timer current s _ _) fun _ h => h

theorem vmConfigure_switches (env : Env) (send recv : Nat) :
    Post (s.vmConfigure env send recv current) (fun _ => True) fun r =>
      s.Switches current r.1.2 r.2 := by
  refine Post.bind (configure_post s env send recv current.vm) ?_
  rintro ⟨r, s₁⟩ h
  have hsteady : s.Steady s₁ := by
    obtain ⟨-, hsame⟩ | ⟨-, -, s₂, hsame, heq⟩ := h
    · exact hsame.steady
    · dsimp only at heq
      subst heq
      exact hsame.steady.trans (.of_eq rfl rfl)
  refine Post.ite (fun _ => .stays hsteady) fun _ => ?_
  exact (waiterResult_switches env.timer current s₁ current.vm).mono (fun _ h => h)
    fun _ h => hsteady.switches h

theorem spciMsgRecv_switches (block : Bool) :
    Post (s.spciMsgRecv timer block current) (fun _ => True) fun r =>
      s.Switches current r.1.2 r.2 := by
  have hstays : s.Switches current none s := .stays (.refl s)
  refine Post.ite (fun _ => hstays) fun _ => ?_
  dsimp only
  refine Post.ite (fun _ => .stays (.of_eq rfl rfl)) fun _ => ?_
  refine Post.ite (fun _ => hstays) fun _ => ?_
  refine Post.ite (fun _ => ?_) fun _ => hstays
  exact Post.bind (switchToPrimary_switches timer current s _ _) fun _ h => h

theorem mailboxClear_switches :
    Post (s.mailboxClear timer current) (fun _ => True) fun r => s.Switches current r.1.2 r.2 := by
  have hmark : ∀ mailbox, s.Steady (s.setMailbox current.vm mailbox) := fun _ => .of_eq rfl rfl
  rw [mailboxClear]
  split
  · exact .stays (.refl s)
  · exact .stays (.refl s)
  · exact (waiterResult_switches timer current _ current.vm).mono (fun _ h => h)
      fun _ h => (hmark _).switches h

theorem spciMsgNotify_switches (i j : M.VmIndex) :
    Post (s.spciMsgNotify timer i j current) (fun _ => True) fun r =>
      s.Switches current r.1 r.2 := by
  have hmark : ∀ mailbox, s.Steady (s.setMailbox j mailbox) := fun _ => .of_eq rfl rfl
  refine Post.ite (fun _ => ?_) fun _ => ?_
  · exact Post.bind (switchToPrimary_switches timer current _ _ _)
      fun _ h => (hmark _).switches h
  · refine Post.ite (fun _ => ?_) fun _ => .stays (hmark _)
    exact Post.bind (switchToPrimary_switches timer current _ _ _)
      fun _ h => (hmark _).switches h

theorem spciMsgSend_switches (env : Env) (notify : Bool) :
    Post (s.spciMsgSend env notify current) (fun _ => True) fun r =>
      s.Switches current r.1.2 r.2 := by
  refine Post.intro (fun _ _ => trivial) ?_
  rintro ⟨⟨ret, next⟩, s'⟩ h
  cases spciMsgSend_cases h with
  | refused _ => exact .stays (.refl s)
  | busy _ _ wait =>
    obtain ⟨links, rfl⟩ := busy_frame wait
    exact .stays (.of_eq rfl rfl)
  | failed _ _ delivery _ => exact .stays delivery.sameVms.steady
  | sent _ _ delivery notified =>
    exact delivery.sameVms.steady.switches
      ((spciMsgNotify_switches env.timer current _ _ _).of_ok notified)

/-- A call other than `HF_VCPU_RUN` stays or switches back. -/
theorem exec_switches (env : Env) {call : Call M} (hcall : call.switchesBack = true) :
    Post (s.exec env current call) (fun _ => True) fun r => s.Switches current r.1.next r.2 := by
  have hswitch := fun timer ret state => switchToPrimary_switches timer current s ret state
  have hstays : s.Switches current none s := .stays (.refl s)
  cases call with
  | preempt | waitForInterrupt | vcpuOff | wakeUp => exact Post.bind (hswitch _ _ _) fun _ h => h
  | spciYield => exact Post.bind (spciYield_switches _ _ _) fun _ h => h
  | abort => exact Post.bind (abort_switches _ _ _) fun _ h => h.1
  | vcpuGetCount =>
    exact Post.bind_ok fun _ _ => hstays
  | vmConfigure => exact Post.bind (vmConfigure_switches _ _ _ _ _) fun _ h => h
  | spciMsgSend => exact Post.bind (spciMsgSend_switches _ _ _ _) fun _ h => h
  | spciMsgRecv => exact Post.bind (spciMsgRecv_switches _ _ _ _) fun _ h => h
  | mailboxWritableGet =>
    refine Post.bind (mailboxWritableGet_frame _ _) ?_
    rintro ⟨id, s'⟩ ⟨links, rfl⟩
    exact .stays (.of_eq rfl rfl)
  | mailboxWaiterGet =>
    refine Post.bind (mailboxWaiterGet_frame _ _ _) ?_
    rintro ⟨id, s'⟩ ⟨links, rfl⟩
    exact .stays (.of_eq rfl rfl)
  | mailboxClear => exact Post.bind (mailboxClear_switches _ _ _) fun _ h => h
  | interruptEnable | interruptGet => exact .stays (.setVCpu rfl rfl rfl)
  | interruptInject => exact Post.bind (interruptInject_switches _ _ _ _ _ _) fun _ h => h
  | shareMemory vmId addr size code =>
    rw [exec]
    dsimp only
    split
    · exact hstays
    · exact Post.bind (shareMemory_sameVms _ _ _ _ _ _ _) fun _ h => .stays h.steady
  | vcpuRun | regsStateSaved => contradiction

/-! ## Running a vCPU -/

/-- The timer of a vCPU that is to run does not switch. -/
theorem injectTimer_steady (v : VCpuId M) : Post (s.injectTimer timer v) (fun _ => True) fun s' =>
      s.Steady s' ∧ ∀ w, w ≠ v → s'.vcpu w = s.vcpu w := by
  have hother : ∀ (s : Hypervisor M) vcpu w, w ≠ v → (s.setVCpu v vcpu).vcpu w = s.vcpu w := by
    intro s vcpu w hw
    rw [setVCpu_vcpu, update_of_ne hw]
  have hinject : Post (s.internalInterruptInject timer v hfVirtualTimerIntid v) (fun _ => True)
      fun r => s.Steady r.2 ∧ ∀ w, w ≠ v → r.2.vcpu w = s.vcpu w := by
    have hset : s.Steady (s.setVCpu v { s.vcpu v with
        interrupts := ((s.vcpu v).interrupts.inject hfVirtualTimerIntid).2 }) :=
      .setVCpu rfl rfl rfl
    rw [internalInterruptInject]
    refine Post.ite (fun _ => ?_) fun _ => ⟨hset, hother s _⟩
    refine Post.ite (fun _ => ⟨hset, hother s _⟩) fun _ => ?_
    exact Post.ite (fun h => absurd rfl h) fun _ => ⟨hset, hother s _⟩
  refine Post.ite (fun _ => ?_) fun _ => ⟨.refl s, fun _ _ => rfl⟩
  refine Post.bind hinject fun r hr => ⟨hr.1.trans (.setVCpu rfl rfl rfl), fun w hw => ?_⟩
  exact (hother r.2 _ w hw).trans (hr.2 w hw)

theorem vcpuPrepareRun_runs {s : Hypervisor M} {current : VCpuId M}
    (hcurrent : current.vm = M.primary) (hv : v.vm ≠ M.primary)
    {runRet : HfVCpuRunReturn} {o : Option HfVCpuRunReturn} {s' : Hypervisor M}
    (h : s.vcpuPrepareRun timer current v runRet = (o, s')) :
    (o.isSome ∧ s.Steady s') ∨ (o = none ∧ s.Runs current v s') := by
  rw [vcpuPrepareRun] at h
  dsimp only at h
  split_ifs at h with hlocked haborting hstate hmessage hwaits
  · cases h
    exact Or.inl ⟨rfl, .refl s⟩
  · cases h
    exact Or.inl ⟨rfl, .setVCpu rfl rfl rfl⟩
  · cases h
    exact Or.inl ⟨rfl, .refl s⟩
  · cases h
    refine Or.inr ⟨rfl, ⟨hcurrent, hv, by simpa using hlocked, by simpa using haborting, ?_, ?_,
      fun w hw => ?_, fun _ h => h⟩⟩
    · rw [setVCpu_vcpu, update_self]
    · rw [setVCpu_vcpu, update_self]
      rfl
    · rw [setVCpu_vcpu, update_of_ne hw]
      rfl
  · cases h
    exact Or.inl ⟨rfl, .refl s⟩
  · cases h
    refine Or.inr ⟨rfl, ⟨hcurrent, hv, by simpa using hlocked, by simpa using haborting, ?_, ?_,
      fun w hw => ?_, fun _ h => h⟩⟩
    · rw [setVCpu_vcpu, update_self]
    · rw [setVCpu_vcpu, update_self]
    · rw [setVCpu_vcpu, update_of_ne hw]

/-- `HF_VCPU_RUN` stays or runs a vCPU of a VM that does not abort. -/
theorem vcpuRun_runs (vmId vcpuIdx : Nat) :
    Post (s.vcpuRun timer vmId vcpuIdx current) (fun _ => True) fun r =>
      (∃ ret, r.1 = .error ret ∧ s.Steady r.2) ∨
        ∃ v, r.1 = .ok v ∧ M.vmId v.vm = vmId ∧ s.Runs current v r.2 := by
  have hdeclined : ∀ ret : HfVCpuRunReturn, (∃ ret', (Except.error ret : Except HfVCpuRunReturn
      (VCpuId M)) = .error ret' ∧ s.Steady s) := fun ret => ⟨ret, rfl, .refl s⟩
  refine Post.ite (fun _ => Or.inl (hdeclined _)) fun hprimary => ?_
  have hcurrent := Machine.vmId_eq_primary.mp (not_not.mp hprimary)
  refine Post.ite (fun _ => Or.inl (hdeclined _)) fun hsecondary => ?_
  refine Post.bind (M.get_post vmId).weaken fun o ho => ?_
  split
  · exact Or.inl (hdeclined _)
  · rename_i vm
    have hvm : vm ≠ M.primary := by
      rw [← Machine.vmId_eq_primary.ne, ho vm rfl]
      exact hsecondary
    split
    · rename_i hidx
      dsimp only
      split
      · next ret s₁ hprepare =>
          obtain ⟨-, hsteady⟩ | ⟨hnone, -⟩ := vcpuPrepareRun_runs timer hcurrent hvm hprepare
          · exact Or.inl ⟨ret, rfl, hsteady⟩
          · contradiction
      · next s₁ hprepare =>
          obtain ⟨hsome, -⟩ | ⟨-, hruns⟩ := vcpuPrepareRun_runs timer hcurrent hvm hprepare
          · contradiction
          refine Post.bind (injectTimer_steady timer s₁ _) fun s₂ hs₂ =>
            Or.inr ⟨_, rfl, ho vm rfl, ?_⟩
          exact ⟨hcurrent, hvm, hruns.free, hruns.alive, (hs₂.1.locked _).trans hruns.locked,
            (hs₂.1.cpu _).trans hruns.cpu, fun w hw => (hs₂.2 w hw).trans (hruns.others w hw),
            fun i hi => hs₂.1.aborting i (hruns.aborting i hi)⟩
    · exact Or.inl (hdeclined _)

end Calls

theorem vcpuSecondaryResetAndStart_steady {target : VCpuId M} {entry arg : BitVec 64}
    {started : Bool} (h : s.vcpuSecondaryResetAndStart target entry arg = .ok (started, s')) :
    s.Steady s' := by
  by_cases hvm : target.vm = M.primary
  · rw [vcpuSecondaryResetAndStart, if_pos (Machine.vmId_eq_primary.mpr hvm)] at h
    contradiction
  · rw [vcpuSecondaryResetAndStart_eq hvm] at h
    split_ifs at h with hlocked hoff
    · cases h
      exact .setVCpu rfl rfl rfl
    · cases h
      exact .refl s

section Saved

variable (timer : Timer) (v w : VCpuId M) (s : Hypervisor M)

theorem regsStateSaved_of_ne {w : VCpuId M} (h : w ≠ v) :
    (s.regsStateSaved timer v).vcpu w = s.vcpu w := by
  rw [regsStateSaved, setVCpu_vcpu, update_of_ne h]

theorem regsStateSaved_cpu : ((s.regsStateSaved timer v).vcpu w).cpu = (s.vcpu w).cpu := by
  by_cases h : w = v
  · rw [h, regsStateSaved, setVCpu_vcpu, update_self]
  · rw [regsStateSaved_of_ne timer v s h]

theorem regsStateSaved_locked (h : v.vm ≠ M.primary) :
    ((s.regsStateSaved timer v).vcpu v).locked = false := by
  rw [regsStateSaved, setVCpu_vcpu, update_self]
  exact if_pos (mt Machine.vmId_eq_primary.mp h)

end Saved

end Hypervisor

end Hafnium
