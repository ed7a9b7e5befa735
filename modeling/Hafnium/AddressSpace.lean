import Hafnium.HypervisorTable

/-!
# The hypervisor's own address space

Calls map memory of VMs into the hypervisor's table: `share_memory` for as long as
it clears the memory, `configure` for good unless a later step fails.  A range that the
hypervisor's table cannot express is cut off without an error.
-/

namespace Hafnium

open Support Aarch64 PageTable Stage Hypervisor

/-! ## Calls -/

theorem Machine.get_ne_unmap (M : Machine) (id : Nat) :
    Post (M.get id) (· ≠ .unmap) fun _ => True :=
  (M.get_post id).mono (fun p h => by rw [h]; nofun) fun _ _ => trivial

namespace Hypervisor

variable {M : Machine} {s s' : Hypervisor M}

section Others

variable (env : Env) (current : VCpuId M) (s : Hypervisor M)

theorem switchToPrimary_ne_unmap (timer : Timer) (ret : HfVCpuRunReturn) (state : VCpuStatus) :
    Post (s.switchToPrimary timer current ret state) (· ≠ .unmap) fun _ => True :=
  (switchToPrimary_post timer current s ret state).mono (fun p h => by rw [h]; nofun)
    fun _ _ => trivial

theorem mailboxWritableGet_ne_unmap :
    Post (s.mailboxWritableGet current) (· ≠ .unmap) fun _ => True := by
  rw [mailboxWritableGet, dequeueReadyList]
  refine Post.ite (fun _ => trivial) fun _ => ?_
  dsimp only
  split
  · exact Post.ite (fun _ => trivial) fun _ => by rintro ⟨⟩
  · rintro ⟨⟩

theorem mailboxWaiterGet_ne_unmap (vmId : Nat) :
    Post (s.mailboxWaiterGet vmId current) (· ≠ .unmap) fun _ => True := by
  have hfetch : ∀ i, Post (s.fetchWaiter i) (· ≠ .unmap) fun _ => True := by
    intro i
    refine Post.ite (fun _ => trivial) fun _ => ?_
    dsimp only
    split
    · trivial
    · exact fun h => absurd h nofun
  refine Post.ite (fun _ => trivial) fun _ => ?_
  refine Post.bind (M.get_ne_unmap vmId) fun o _ => ?_
  split
  · trivial
  · refine Post.bind (hfetch _) ?_
    rintro ⟨_ | ⟨waiting, slot⟩, s₁⟩ -
    · trivial
    · trivial

/-- Calls that move no memory do not get to an unmap. -/
theorem exec_ne_unmap {call : Call M} (hcall : call.movesMemory = false) :
    Post (s.exec env current call) (· ≠ .unmap) fun _ => True := by
  have hswitch := switchToPrimary_ne_unmap current s
  cases call with
  | preempt | waitForInterrupt | vcpuOff | wakeUp =>
    exact Post.bind (hswitch _ _ _) fun _ _ => trivial
  | spciYield =>
    refine Post.bind (R := fun _ => True) ?_ fun _ _ => trivial
    exact Post.ite (fun _ => trivial) fun _ => Post.bind (hswitch _ _ _) fun _ _ => trivial
  | abort =>
    refine Post.bind (R := fun _ => True) ?_ fun _ _ => trivial
    exact Post.ite (fun _ h => absurd h nofun) fun _ =>
      switchToPrimary_ne_unmap current _ _ _ _
  | vcpuGetCount vmId =>
    refine Post.bind (R := fun _ => True) ?_ fun _ _ => trivial
    exact Post.ite (fun _ => trivial) fun _ => Post.bind (M.get_ne_unmap vmId) fun _ _ => trivial
  | regsStateSaved | interruptEnable | interruptGet => trivial
  | vcpuRun =>
    exact Post.bind ((vcpuRun_post _ _ _ _ _).mono (fun p h => by rw [h]; nofun) fun _ _ => trivial)
      fun _ _ => trivial
  | spciMsgRecv =>
    exact Post.bind ((spciMsgRecv_post _ _ _ _).mono (fun p h => by rw [h]; nofun)
      fun _ _ => trivial) fun _ _ => trivial
  | mailboxClear =>
    exact Post.bind ((mailboxClear_post _ _ _).mono (fun p h => by rw [h]; nofun)
      fun _ _ => trivial) fun _ _ => trivial
  | mailboxWritableGet =>
    exact Post.bind (mailboxWritableGet_ne_unmap current s) fun _ _ => trivial
  | mailboxWaiterGet vmId =>
    exact Post.bind (mailboxWaiterGet_ne_unmap current s vmId) fun _ _ => trivial
  | interruptInject targetVmId targetVCpuIdx intid =>
    refine Post.bind (R := fun _ => True) ?_ fun _ _ => trivial
    refine Post.bind (M.get_ne_unmap targetVmId) fun o _ => ?_
    split
    · trivial
    · refine Post.ite (fun _ => trivial) fun _ => Post.ite (fun _ => trivial) fun _ => ?_
      split
      · exact (internalInterruptInject_post env.timer current s _ intid).mono
          (fun p h => by rw [h.1]; nofun) fun _ _ => trivial
      · trivial
  | vmConfigure | spciMsgSend | shareMemory => contradiction

end Others

section Sending

variable {env : Env} (hs : s.Sound) (henv : env.pool.Ok)
include hs henv

/-- Messages do not touch the hypervisor's table. -/
theorem spciMsgShareMemory_hypervisorPtable (i j : M.VmIndex) (buffer length : Nat)
    (share : SpciMemoryShare) :
    Post (s.spciMsgShareMemory env i j buffer length share) (· ≠ .unmap) fun r =>
      r.2.hypervisorPtable = s.hypervisorPtable := by
  have hvalidate : ∀ region size attributes,
      Post (s.spciValidateCallShareMemory env i j region size attributes share) (· ≠ .unmap)
        fun r => r.2.hypervisorPtable = s.hypervisorPtable := by
    intro region size attributes
    refine Post.ite (fun _ => rfl) fun _ => Post.ite (fun _ => rfl) fun _ => ?_
    have hpost := Transfer.spciShareMemory_post hs.kind henv (hs.transfer i j)
      (SpciMemoryRegion.read s.mem region).constituent attributes share
    refine Post.bind (R := fun r : SpciReturn × Transfer M.stage M.hypervisorStage =>
        r.2.hypervisorPtable = s.hypervisorPtable)
      (.intro (fun p h => (hpost.of_error h).elim) fun r h => ?_) fun r hr => hr
    exact (Transfer.spciShareMemory_hypervisorPtable (s.transfer i j) _ _ _ _).of_ok h
  cases share <;> rw [spciMsgShareMemory] <;> exact hvalidate _ _ _

theorem deliver_hypervisorPtable (i j : M.VmIndex) (msg : SpciMessage) (current : VCpuId M) :
    Post (s.deliver env i j msg current) (· ≠ .unmap) fun r =>
      r.2.hypervisorPtable = s.hypervisorPtable := by
  have hbuffer : Post (s.cpuGetBuffer current) (· ≠ .unmap) fun _ => True :=
    Post.bind (R := fun _ => True) (.intro (fun p h => by rw [(orPanic_eq_error.mp h).2]; nofun)
      fun _ _ => trivial) fun cpuId _ => Post.ite (fun _ => trivial) fun _ => nofun
  refine Post.ite (fun _ => rfl) fun _ => Post.bind hbuffer fun buffer _ => ?_
  refine Post.ite (fun _ => rfl) fun _ => Post.ite (fun _ => rfl) fun _ => ?_
  refine Post.bind (R := fun _ => True) (.intro
    (fun p h => by rw [(orPanic_eq_error.mp h).2]; nofun)
    fun _ _ => trivial) fun share _ => ?_
  have hstaged : (s.staged i buffer msg).Sound := hs.congr rfl rfl rfl
  exact Post.bind (spciMsgShareMemory_hypervisorPtable hstaged henv i j buffer msg.length share)
    fun r hr => hr

theorem spciMsgSend_hypervisorPtable (notify : Bool) (current : VCpuId M) :
    Post (s.spciMsgSend env notify current) (· ≠ .unmap) fun r =>
      r.2.hypervisorPtable = s.hypervisorPtable := by
  refine Post.bind (R := fun _ => True) ?_ ?_
  · refine Post.ite (fun _ => trivial) fun _ => Post.ite (fun _ => trivial) fun _ => ?_
    refine Post.ite (fun _ => trivial) fun _ => Post.ite (fun _ => trivial) fun _ => ?_
    exact Post.bind (M.get_ne_unmap _) fun _ _ => trivial
  rintro (_ | ⟨msg, j⟩) -
  · rfl
  refine Post.ite (fun _ => Post.ite (fun _ => ?_) fun _ => rfl) fun _ => ?_
  · refine Post.bind (R := fun s' : Hypervisor M => s'.hypervisorPtable = s.hypervisorPtable)
      (.intro (fun p h => ?_) fun s' h => ?_) fun _ h => h
    · rw [waitFor] at h
      split at h
      · dsimp only at h
        split at h <;> cases h
      · cases h
        simp
    · obtain ⟨links, rfl⟩ := waitFor_frame h
      rfl
  refine Post.bind (deliver_hypervisorPtable hs henv current.vm j msg current) fun r hr => ?_
  refine Post.ite (fun _ => hr) fun _ => ?_
  exact Post.bind ((spciMsgNotify_post env.timer current.vm j current r.2).mono
    (fun p h => by simp [h]) fun _ h => h) fun r' hr' => hr'.hypervisorPtable.trans hr

end Sending

/-- The pages that a call maps in the hypervisor's table and then unmaps again. -/
def Unmaps (s : Hypervisor M) (env : Env) (current : VCpuId M) : Call M → Nat → Prop
  | .shareMemory vmId addr size code, a => ∃ request j hyp, HfShare.tryFrom code = some request ∧
      vmId ≠ M.vmId current.vm ∧ M.get vmId = .ok (some j) ∧
      (s.transfer current.vm j).Clears env.pool request addr ((addr + size) % 2 ^ 64) hyp ∧
      addr ≤ a ∧ a < (addr + size) % 2 ^ 64
  | .vmConfigure send recv, a => (s.mailbox current.vm).isConfigured = false ∧
      (s.mailboxSetup current.vm).Withdraws env.pool send recv ∧ send ≤ a ∧ a < pageEnd send
  | _, _ => False

/-- A call does not panic in an unmap, and keeps the hypervisor's address space
except for the pages of a mailbox that it configures. -/
def KeepsSpace (s : Hypervisor M) : Action M → Prop
  | .call env current call => s.exec env current call ≠ .error .unmap ∧
      ∀ reply s', s.exec env current call = .ok (reply, s') → ∀ a,
        s'.hypervisorPtable.view a = s.hypervisorPtable.view a ∨
          ∃ send recv, call = .vmConfigure send recv ∧ reply.ret ≠ .int (-1) ∧
            MailboxPages send recv a
  | _ => True

/-- The pages that a call unmaps from the hypervisor's table were not mapped before
it. -/
def UnmapsItsOwn (s : Hypervisor M) : Action M → Prop
  | .call env current call => ∀ a, s.Unmaps env current call a →
      s.hypervisorPtable.view a = none
  | _ => True

theorem keepsSpace_call_iff {env : Env} {current : VCpuId M} {call : Call M} :
    s.KeepsSpace (.call env current call) ↔ Post (s.exec env current call) (· ≠ .unmap) fun r =>
      ∀ a, r.2.hypervisorPtable.view a = s.hypervisorPtable.view a ∨
        ∃ send recv, call = .vmConfigure send recv ∧ r.1.ret ≠ .int (-1) ∧
          MailboxPages send recv a := by
  rw [KeepsSpace]
  cases s.exec env current call with
  | error p => simp
  | ok r => simp [Prod.ext_iff]

section Kept

variable {env : Env} (hs : s.Sound) (henv : env.pool.Ok)
include hs henv

theorem shareMemory_kept_iff (current : VCpuId M) (vmId addr size : Nat) (request : HfShare) :
    Post (s.shareMemory env vmId addr size request current) (· ≠ .unmap)
        (fun r => r.2.hypervisorPtable.view = s.hypervisorPtable.view) ↔
      ∀ j hyp, vmId ≠ M.vmId current.vm → M.get vmId = .ok (some j) →
        (s.transfer current.vm j).Clears env.pool request addr ((addr + size) % 2 ^ 64) hyp →
        ∀ a, addr ≤ a → a < (addr + size) % 2 ^ 64 → s.hypervisorPtable.view a = none := by
  rw [shareMemory]
  by_cases hself : vmId = M.vmId current.vm
  · rw [if_pos hself]
    exact iff_of_true rfl fun _ _ h => absurd hself h
  rw [if_neg hself]
  cases hget : M.get vmId with
  | error p => exact iff_of_true ((M.get_ne_unmap vmId).of_error hget) (by simp)
  | ok o =>
    cases o with
    | none => exact iff_of_true rfl (by simp)
    | some j =>
      change Post (Hafnium.shareMemory _ _ _ _ _ >>= _) _ _ ↔ _
      refine Post.bind_iff.trans ((Transfer.shareMemory_kept_iff hs.kind henv
        (hs.transfer current.vm j) request addr (Nat.mod_lt _ (by decide))).trans ?_)
      constructor
      · rintro h j' hyp - ⟨⟩
        exact h hyp
      · exact fun h hyp => h j hyp hself rfl

theorem shareMemory_keepsSpace_iff (current : VCpuId M) (vmId addr size code : Nat) :
    s.KeepsSpace (.call env current (.shareMemory vmId addr size code)) ↔
      s.UnmapsItsOwn (.call env current (.shareMemory vmId addr size code)) := by
  rw [keepsSpace_call_iff, exec]
  cases hcode : HfShare.tryFrom code with
  | none =>
    refine iff_of_true (fun a => Or.inl rfl) ?_
    rintro a ⟨request, j, hyp, h, -⟩
    cases hcode.symm.trans h
  | some request =>
    refine Post.bind_iff.trans ((Post.congr_of_ok fun r _ => ?_).trans
      ((shareMemory_kept_iff hs henv current vmId addr size request).trans ?_))
    · constructor
      · intro h
        funext a
        rcases h a with h | ⟨_, _, h, -⟩
        · exact h
        · contradiction
      · exact fun h a => Or.inl (congrFun h a)
    · constructor
      · rintro h a ⟨request', j, hyp, hcode', hself, hget, hclears, hlo, hhi⟩
        cases hcode.symm.trans hcode'
        exact h j hyp hself hget hclears a hlo hhi
      · exact fun h j hyp hself hget hclears a hlo hhi =>
          h a ⟨request, j, hyp, hcode, hself, hget, hclears, hlo, hhi⟩

theorem configure_kept_iff (i : M.VmIndex) (send recv : Nat) :
    Post (s.configure env send recv i) (· ≠ .unmap)
        (fun r => r.1 = .err → r.2.hypervisorPtable.view = s.hypervisorPtable.view) ↔
      ((s.mailbox i).isConfigured = false → (s.mailboxSetup i).Withdraws env.pool send recv →
        ∀ a, send ≤ a → a < pageEnd send → s.hypervisorPtable.view a = none) := by
  rw [configure]
  by_cases hconf : (s.mailbox i).isConfigured = true
  · rw [if_pos hconf]
    exact iff_of_true (fun _ => rfl) (by simp [hconf])
  rw [if_neg hconf]
  refine Post.bind_iff.trans ((Post.congr_of_ok fun r _ => ?_).trans
    ((MailboxSetup.configure_kept_iff hs.kind henv (hs.mailboxSetup i) send recv).trans ?_))
  · obtain ⟨_ | _, t⟩ := r
    · exact iff_of_true (by rintro ⟨⟩) (by rintro ⟨⟩)
    · exact Iff.rfl
  · exact ⟨fun h _ => h, fun h => h (Bool.eq_false_of_not_eq_true hconf)⟩

/-- What `configure` does to the hypervisor's table. -/
theorem configure_view (i : M.VmIndex) (send recv : Nat) :
    Post (s.configure env send recv i) (fun _ => True) fun r =>
      (r.1 = .ok → (∃ origs, configureCheck send recv (s.ptable i) = some origs) ∧
        r.2.hypervisorPtable.view = mappedView recv (M.hypervisorStage.updateEnd (pageEnd recv))
            (M.hypervisorStage.modeToAttrs aarch64 Mode.W)
            (mappedView send (M.hypervisorStage.updateEnd (pageEnd send))
              (M.hypervisorStage.modeToAttrs aarch64 Mode.R) s.hypervisorPtable.view)) ∧
      ∀ a, r.2.hypervisorPtable.view a = s.hypervisorPtable.view a ∨
        MailboxPages send recv a ∧ ∃ origs, configureCheck send recv (s.ptable i) = some origs := by
  refine Post.ite (fun _ => ⟨by simp, fun a => Or.inl rfl⟩) fun _ => ?_
  refine Post.bind (MailboxSetup.configure_view henv (hs.mailboxSetup i) send recv) ?_
  rintro ⟨_ | _, t⟩ h
  · exact h
  · exact ⟨by simp, h.2⟩

theorem vmConfigure_keepsSpace_iff (current : VCpuId M) (send recv : Nat) :
    s.KeepsSpace (.call env current (.vmConfigure send recv)) ↔
      s.UnmapsItsOwn (.call env current (.vmConfigure send recv)) := by
  rw [keepsSpace_call_iff, exec]
  refine Post.bind_iff.trans (Post.bind_iff.trans ((Post.congr_of_ok fun r hr => ?_).trans
    ((configure_kept_iff hs henv current.vm send recv).trans ?_)))
  · have hview := (configure_view hs henv current.vm send recv).of_ok hr
    obtain ⟨_ | _, s₁⟩ := r
    · -- a completed configuration only touches its pages
      refine iff_of_true ?_ (by simp)
      refine (waiterResult_post env.timer current s₁ current.vm).mono (fun p h => by simp [h])
        ?_
      rintro ⟨⟨v, next⟩, s₂⟩ ⟨hquiet, htold⟩ a
      rw [hquiet.hypervisorPtable]
      refine (hview.2 a).imp_right fun h => ⟨send, recv, rfl, ?_, h.1⟩
      rcases htold with ⟨-, h⟩ | ⟨-, -, h⟩ | ⟨-, -, v, h, -⟩ <;> cases h <;> simp
    · constructor
      · intro h _
        funext a
        rcases h a with h | ⟨_, _, -, h, -⟩
        · exact h
        · exact absurd rfl h
      · exact fun h a => Or.inl (congrFun (h rfl) a)
  · constructor
    · rintro h a ⟨hconf, hwithdraws, hlo, hhi⟩
      exact h hconf hwithdraws a hlo hhi
    · exact fun h hconf hwithdraws a hlo hhi => h a ⟨hconf, hwithdraws, hlo, hhi⟩

end Kept

theorem keepsSpace_iff {act : Action M} (hs : s.Sound) (hact : act.Ok) :
    s.KeepsSpace act ↔ s.UnmapsItsOwn act := by
  cases act with
  | guest | pool => exact Iff.rfl
  | call env current call =>
    by_cases hcall : call.movesMemory = true
    · cases call with
      | shareMemory vmId addr size code => exact shareMemory_keepsSpace_iff hs hact _ _ _ _ _
      | vmConfigure send recv => exact vmConfigure_keepsSpace_iff hs hact _ _ _
      | spciMsgSend notify =>
        refine iff_of_true (keepsSpace_call_iff.mpr ?_) fun a h => h.elim
        exact Post.bind (spciMsgSend_hypervisorPtable hs hact notify current) fun r hr a =>
          Or.inl (congrFun (congrArg view hr) a)
      | preempt | waitForInterrupt | vcpuOff | spciYield | wakeUp | abort | vcpuGetCount
      | regsStateSaved | vcpuRun | spciMsgRecv | mailboxWritableGet | mailboxWaiterGet
      | mailboxClear | interruptEnable | interruptGet | interruptInject =>
        contradiction
    · have hfalse := Bool.eq_false_of_not_eq_true hcall
      refine iff_of_true (keepsSpace_call_iff.mpr (.intro (fun p h => ?_) fun r h a => ?_)) ?_
      · exact (exec_ne_unmap env current s hfalse).of_error h
      · rw [((exec_sameMemory current s env hfalse).of_ok h).hypervisorPtable]
        exact Or.inl rfl
      · intro a h
        cases call <;> first | exact h.elim | exact absurd rfl hcall

/-- In every run, the calls keep the hypervisor's address space and do not panic in
an unmap exactly if the pages that they unmap from it were not mapped before. -/
theorem address_space_kept_iff {as : List (Action M)} (hs : s.Sound)
    (has : ∀ act ∈ as, act.Ok) :
    Always step (fun s act => s.KeepsSpace act) as s ↔
      Always step (fun s act => s.UnmapsItsOwn act) as s :=
  always_congr Sound (fun _ _ _ hs hact hstep => (step_move hs hact hstep).sound)
    (fun _ _ hs hact => keepsSpace_iff hs hact) hs has

/-- The pages that a call would unmap again, by its operands, are not mapped in the
hypervisor's table. -/
def NamesUnmapped (s : Hypervisor M) : Action M → Prop
  | .call _ _ (.shareMemory _ addr size _) => ∀ a, addr ≤ a → a < (addr + size) % 2 ^ 64 →
      s.hypervisorPtable.view a = none
  | .call _ _ (.vmConfigure send _) => ∀ a, send ≤ a → a < pageEnd send →
      s.hypervisorPtable.view a = none
  | _ => True

theorem NamesUnmapped.unmapsItsOwn {act : Action M} (h : s.NamesUnmapped act) :
    s.UnmapsItsOwn act := by
  cases act with
  | guest | pool => trivial
  | call env current call =>
    intro a ha
    unfold Unmaps at ha
    split at ha
    · obtain ⟨-, -, -, -, -, -, -, hlo, hhi⟩ := ha
      exact h a hlo hhi
    · obtain ⟨-, -, hlo, hhi⟩ := ha
      exact h a hlo hhi
    · exact ha.elim

theorem address_space_kept_of_names {as : List (Action M)} (hs : s.Sound)
    (has : ∀ act ∈ as, act.Ok) (h : Always step (fun s act => s.NamesUnmapped act) as s) :
    Always step (fun s act => s.KeepsSpace act) as s :=
  always_imp Sound (fun _ _ _ hs hact hstep => (step_move hs hact hstep).sound)
    (fun _ _ hs hact h => (keepsSpace_iff hs hact).mpr h.unmapsItsOwn) hs has h

section Unowned

variable {env : Env} (hs : s.Sound) (henv : env.pool.Ok) {a : Nat}
  (hun : ∀ k, (s.pageState a k).owned = false)
include hs henv hun

theorem shareMemory_unowned (current : VCpuId M) (vmId addr size : Nat) (request : HfShare) :
    Post (s.shareMemory env vmId addr size request current) (fun _ => True) fun r =>
      r.2.hypervisorPtable.view a = s.hypervisorPtable.view a := by
  refine Post.ite (fun _ => rfl) fun _ => ?_
  refine Post.bind (M.get_post vmId).weaken fun o _ => ?_
  split
  · rfl
  rename_i j _
  have hend : (addr + size) % 2 ^ 64 < 2 ^ 64 := Nat.mod_lt _ (by decide)
  refine Post.bind (Transfer.shareMemory_view hs.kind henv (hs.transfer current.vm j) request addr
    hend) fun r hr => ?_
  rcases hr a with h | ⟨ha, orig, hcheck⟩
  · exact h
  · have hgranted := granted_of_shareMemoryCheck (hs.ptable current.vm).fits.toValid hend hcheck
    rcases (hgranted.exchange a ha.1 ha.2).owned with howned | howned
    · cases howned.symm.trans (hun current.vm)
    · cases howned.symm.trans (hun j)

theorem configure_unowned (i : M.VmIndex) (send recv : Nat) :
    Post (s.configure env send recv i) (fun _ => True) fun r =>
      r.2.hypervisorPtable.view a = s.hypervisorPtable.view a := by
  refine (configure_view hs henv i send recv).mono (fun _ h => h) fun r hr => ?_
  rcases hr.2 a with h | ⟨ha, ⟨origSend, origRecv⟩, hcheck⟩
  · exact h
  · obtain ⟨-, ⟨hsend, hsend'⟩, hrecv, hrecv'⟩ :=
      configureCheck_spec (hs.ptable i).fits.toValid hcheck
    have hstate : s.pageState a i = .exclusiveOwner := by
      rcases ha with ha | ha
      · rw [pageState, hsend.uniform.state ha.1 ha.2, hsend']
        rfl
      · rw [pageState, hrecv.uniform.state ha.1 ha.2, hrecv']
        rfl
    have hunowned := hun i
    rw [hstate] at hunowned
    contradiction

end Unowned

/-- The pages of the hypervisor's table that nobody owns are left alone. -/
theorem step_unowned_view {act : Action M} (hs : s.Sound) (hact : act.Ok)
    (hstep : s.step act = some s') {a : Nat} (hun : ∀ k, (s.pageState a k).owned = false) :
    s'.hypervisorPtable.view a = s.hypervisorPtable.view a := by
  cases act with
  | guest | pool =>
    cases hstep
    rfl
  | call env current call =>
    obtain ⟨reply, h⟩ := step_call_eq_some.mp hstep
    by_cases hcall : call.movesMemory = true
    · cases call with
      | shareMemory vmId addr size code =>
        rw [exec] at h
        split at h
        · cases h
          rfl
        · obtain ⟨⟨o, s₁⟩, hshare, h⟩ := bind_eq_ok.mp h
          cases h
          exact (shareMemory_unowned hs hact hun current vmId addr size _).of_ok hshare
      | vmConfigure send recv =>
        obtain ⟨⟨⟨r, next⟩, s₁⟩, hconf, h⟩ := bind_eq_ok.mp h
        cases h
        obtain ⟨⟨o, s₁⟩, hconf, h⟩ := bind_eq_ok.mp hconf
        have hview := (configure_unowned hs hact hun current.vm send recv).of_ok hconf
        dsimp only at h hview
        split at h
        · cases h
          exact hview
        · rw [((waiterResult_post env.timer current s₁ current.vm).of_ok h).1.hypervisorPtable]
          exact hview
      | spciMsgSend notify =>
        obtain ⟨⟨⟨ret, next⟩, s₁⟩, hsend, h⟩ := bind_eq_ok.mp h
        cases h
        have hsame := (spciMsgSend_hypervisorPtable hs hact notify current).of_ok hsend
        exact congrFun (congrArg view hsame) a
      | preempt | waitForInterrupt | vcpuOff | spciYield | wakeUp | abort | vcpuGetCount
      | regsStateSaved | vcpuRun | spciMsgRecv | mailboxWritableGet | mailboxWaiterGet
      | mailboxClear | interruptEnable | interruptGet | interruptInject =>
        contradiction
    · rw [((exec_sameMemory current s env (Bool.eq_false_of_not_eq_true hcall)).of_ok
        h).hypervisorPtable]

end Hypervisor

/-! ## What the hypervisor can access -/

namespace PageTable

variable {H : Stage}

/-- A page is mapped, so that the hypervisor can read it. -/
def Readable (pt : PageTable H) (a : Nat) : Prop :=
  ∃ attrs, pt.view a = some attrs ∧ attrs &&& pteValid ≠ 0#64

/-- A page is mapped without the bit that makes it read-only. -/
def Writable (pt : PageTable H) (a : Nat) : Prop :=
  ∃ attrs, pt.view a = some attrs ∧ attrs &&& pteValid ≠ 0#64 ∧ attrs &&& stage1Ap2 = 0#64

theorem Writable.lt {pt : PageTable H} {a : Nat} (h : pt.Writable a) :
    a < H.ptableAddrSpaceEnd := by
  by_contra ha
  obtain ⟨attrs, hview, -⟩ := h
  rw [view_of_ge pt (Nat.not_lt.mp ha)] at hview
  contradiction

theorem Readable.lt {pt : PageTable H} {a : Nat} (h : pt.Readable a) :
    a < H.ptableAddrSpaceEnd := by
  by_contra ha
  obtain ⟨attrs, hview, -⟩ := h
  rw [view_of_ge pt (Nat.not_lt.mp ha)] at hview
  contradiction

variable (hkind : H.kind = .stage1) {pt : PageTable H} {a : Nat}
include hkind

theorem readable_of_view (h : pt.view a = attrsView (H.modeToAttrs aarch64 Mode.R)) :
    pt.Readable a := by
  rw [modeToAttrs, hkind] at h
  exact ⟨archMmModeToStage1Attrs Mode.R, h.trans (by decide), by decide⟩

theorem writable_of_view (h : pt.view a = attrsView (H.modeToAttrs aarch64 Mode.W)) :
    pt.Writable a := by
  rw [modeToAttrs, hkind] at h
  exact ⟨archMmModeToStage1Attrs Mode.W, h.trans (by decide), by decide, by decide⟩

end PageTable

theorem InSpace.le_of_forall {S H : Stage} {begin endAddr : Nat} (hin : InSpace S begin endAddr)
    (h : ∀ a, begin ≤ a → a < endAddr → a < H.ptableAddrSpaceEnd) :
    endAddr ≤ H.ptableAddrSpaceEnd := by
  have hlt := hin.lt
  have := h (endAddr - 1) (by omega) (by omega)
  omega

theorem Transfer.clears_writable_iff {S H : Stage} {strict : Bool} {t : Transfer S H}
    {env : Interference} (hkind : H.kind = .stage1) (henv : env.Ok)
    (ht : t.Regular strict) {request : HfShare} {begin endAddr : Nat} (hend : endAddr < 2 ^ 64)
    {hyp : PageTable H} (h : t.Clears env request begin endAddr hyp) :
    (∀ a, begin ≤ a → a < endAddr → hyp.Writable a) ↔ endAddr ≤ H.ptableAddrSpaceEnd := by
  obtain ⟨orig, t₁, hcheck, hmap, pool, hclear⟩ := h
  have hgranted := granted_of_shareMemoryCheck ht.fromPtable.fits.toValid hend hcheck
  have hin := hgranted.uniform.inSpace
  obtain ⟨ht₁, -⟩ := (mapSender_post (henv 0) ht hin request.modes.1).of_ok hmap
  obtain ⟨hbegin, hend'⟩ := region_other (H := H) ht.fromPtable.fits hin
  have hview := (mapEffect_of_identityMapIn ht₁.hypervisorPtable ht₁.pool (henv 1)
    hclear).ok rfl
  rw [hbegin, hend'] at hview
  constructor
  · exact fun h => hin.le_of_forall fun a hlo hhi => (h a hlo hhi).lt
  · intro hle a hlo hhi
    refine writable_of_view hkind ?_
    rw [hview, mappedView, if_pos ⟨hlo, lt_min hhi (hhi.trans_le hle)⟩]

namespace Hypervisor

variable {M : Machine} {s s' : Hypervisor M}

/-- The hypervisor can read the send page and write the receive page. -/
def Accessible (s : Hypervisor M) (send recv : Nat) : Prop :=
  (∀ a, send ≤ a → a < pageEnd send → s.hypervisorPtable.Readable a) ∧
    ∀ a, recv ≤ a → a < pageEnd recv → s.hypervisorPtable.Writable a

/-- The pages of a mailbox stay mapped as they are. -/
theorem run_unowned_view {as : List (Action M)} (hs : s.Sound) (has : ∀ act ∈ as, act.Ok)
    (hrun : run step as s = some s') {a : Nat} (hun : ∀ k, (s.pageState a k).owned = false) :
    s'.hypervisorPtable.view a = s.hypervisorPtable.view a := by
  refine (run_invariant (fun s' => s'.Sound ∧ s'.pageState a = s.pageState a ∧
    s'.hypervisorPtable.view a = s.hypervisorPtable.view a) (fun s₁ act s₂ hI hact hstep => ?_)
    ⟨hs, rfl, rfl⟩ has hrun).2.2
  obtain ⟨hsound, hstate, hview⟩ := hI
  have hun₁ : ∀ k, (s₁.pageState a k).owned = false := by rwa [hstate]
  obtain ⟨hsound', ⟨P, hmove, -⟩, -⟩ := step_move hsound hact hstep
  exact ⟨hsound', (hmove.unowned hun₁).trans hstate,
    (step_unowned_view hsound hact hstep hun₁).trans hview⟩

/-- What a successful `vm_configure` has done. -/
theorem vmConfigure_done {env : Env} (hs : s.Sound) (henv : env.pool.Ok)
    (howned : ∀ a, Owned (s.pageState a)) {current : VCpuId M} {send recv : Nat} {reply : Reply M}
    (h : s.exec env current (.vmConfigure send recv) = .ok (reply, s'))
    (hret : reply.ret ≠ .int (-1)) :
    s'.Sound ∧ (∀ a, MailboxPages send recv a → ∀ k, (s'.pageState a k).owned = false) ∧
      (∃ origs, configureCheck send recv (s.ptable current.vm) = some origs) ∧
      s'.hypervisorPtable.view = mappedView recv (M.hypervisorStage.updateEnd (pageEnd recv))
          (M.hypervisorStage.modeToAttrs aarch64 Mode.W)
          (mappedView send (M.hypervisorStage.updateEnd (pageEnd send))
            (M.hypervisorStage.modeToAttrs aarch64 Mode.R) s.hypervisorPtable.view) := by
  obtain ⟨⟨⟨r, next⟩, s₂⟩, hconf, h⟩ := bind_eq_ok.mp h
  cases h
  obtain ⟨⟨o, s₁⟩, hconf, h⟩ := bind_eq_ok.mp hconf
  have hview := (configure_view hs henv current.vm send recv).of_ok hconf
  have hstates := (configure_states hs henv send recv current.vm).of_ok hconf
  dsimp only at h hview hstates
  split at h
  · cases h
    exact absurd rfl hret
  · rename_i ho
    obtain ⟨hsound, ⟨herr, -⟩ | ⟨hok, htaken, hframe⟩⟩ := hstates
    · exact absurd herr ho
    have hquiet := ((waiterResult_post env.timer current s₁ current.vm).of_ok h).1
    refine ⟨hsound.congr hquiet.ptable hquiet.hypervisorPtable hquiet.mpool, fun a ha k => ?_,
      (hview.1 hok).1, ?_⟩
    · rw [pageState, hquiet.ptable]
      change (s₁.pageState a k).owned = false
      by_cases hk : k = current.vm
      · rw [hk, (htaken a ha).2]
        rfl
      · rw [hframe a k fun h => hk h.2, (howned a).alone (htaken a ha).1 k hk]
        rfl
    · rw [hquiet.hypervisorPtable]
      exact (hview.1 hok).2

/-- A successful `vm_configure` leaves both pages accessible for the hypervisor
throughout every later run, and memory that is cleared is mapped meanwhile, exactly
if the pages lie in the address space of the hypervisor's table. -/
theorem accessible_iff (hkind : M.hypervisorStage.kind = .stage1) {env : Env} (hs : s.Sound)
    (henv : env.pool.Ok) (howned : ∀ a, Owned (s.pageState a)) :
    (∀ current send recv reply s₁, s.exec env current (.vmConfigure send recv) = .ok (reply, s₁) →
      reply.ret ≠ .int (-1) →
      ((∀ as s', (∀ act ∈ as, act.Ok) → run step as s₁ = some s' → s'.Accessible send recv) ↔
        pageEnd send ≤ M.hypervisorStage.ptableAddrSpaceEnd ∧
          pageEnd recv ≤ M.hypervisorStage.ptableAddrSpaceEnd)) ∧
    (∀ i j request begin endAddr hyp, endAddr < 2 ^ 64 →
      (s.transfer i j).Clears env.pool request begin endAddr hyp →
      ((∀ a, begin ≤ a → a < endAddr → hyp.Writable a) ↔
        endAddr ≤ M.hypervisorStage.ptableAddrSpaceEnd)) := by
  refine ⟨fun current send recv reply s₁ hexec hret => ?_,
    fun i j request begin endAddr hyp hend hclears =>
      Transfer.clears_writable_iff hkind henv (hs.transfer i j) hend hclears⟩
  obtain ⟨hsound, hun, ⟨⟨origSend, origRecv⟩, hcheck⟩, hview⟩ :=
    vmConfigure_done hs henv howned hexec hret
  obtain ⟨hdisj, ⟨hsend, -⟩, hrecv, -⟩ :=
    configureCheck_spec (hs.ptable current.vm).fits.toValid hcheck
  have hinSend := hsend.uniform.inSpace
  have hinRecv := hrecv.uniform.inSpace
  have hfits := (hs.ptable current.vm).fits
  constructor
  · intro h
    obtain ⟨hread, hwrite⟩ := h [] s₁ (fun _ h => absurd h List.not_mem_nil) rfl
    exact ⟨hinSend.le_of_forall fun a hlo hhi => (hread a hlo hhi).lt,
      hinRecv.le_of_forall fun a hlo hhi => (hwrite a hlo hhi).lt⟩
  · rintro ⟨hleSend, hleRecv⟩ as s' has hrun
    have hkept := fun a ha => run_unowned_view hsound has hrun (hun a ha)
    rw [(PageTable.region_other hfits hinSend).2, (PageTable.region_other hfits hinRecv).2,
      Nat.min_eq_left hleSend, Nat.min_eq_left hleRecv] at hview
    refine ⟨fun a hlo hhi => PageTable.readable_of_view hkind ?_,
      fun a hlo hhi => PageTable.writable_of_view hkind ?_⟩
    · rw [hkept a (Or.inl ⟨hlo, hhi⟩), hview, mappedView, if_neg (by omega), mappedView,
        if_pos ⟨hlo, hhi⟩]
    · rw [hkept a (Or.inr ⟨hlo, hhi⟩), hview, mappedView, if_pos ⟨hlo, hhi⟩]

end Hypervisor
/-! ## Examples -/

theorem PageTable.regular_absentTable {S : Stage} (hS : S.Fits) (root : Nat) :
    (absentTable S root).Regular false :=
  ⟨hS, fun _ _ => PageTableEntry.wf_absent, fun _ _ => trivial⟩

/-- Three VMs on a CPU with 40 bits of physical addresses. -/
def armMachine : Machine :=
  { exampleMachine with stage := ofPaBits 40, hypervisorStage := hypervisor }

def armVm (i : Fin 3) : armMachine.VmIndex := i

def armVCpu (i : Fin 3) : VCpuId armMachine := ⟨armVm i, 0, Nat.one_pos⟩

def armPool : MPool := .ofPool ⟨[⟨0x40000, 8⟩], []⟩

open PageTable in
/-- The first of three VMs owns the first gigabyte of one of the two root tables. -/
def armPtable (t : Fin 2) (i : Fin 3) : PageTable (ofPaBits 40) :=
  if i = 0 then sparseTable (ofPaBits 40) 0x20000 (id t) 0 (Mode.R ||| Mode.W ||| Mode.X)
  else absentTable (ofPaBits 40) 0x30000

/-- No VM has a mailbox. -/
def armState (t : Fin 2) (hypervisorPtable : PageTable hypervisor) :
    Hypervisor armMachine where
  mpool := armPool
  hypervisorPtable
  ptable := armPtable t
  mailbox _ := ⟨.empty, 0, 0⟩
  aborting _ := false
  vcpu _ := ⟨.ready, some 0, ⟨[], 0, 0, [], {}⟩, false, .new⟩
  links := ⟨id, id⟩
  mem _ := 0

theorem wf_armPool : armPool.Wf := by decide

theorem fits_armStage : (ofPaBits 40).Fits := fits_ofPaBits (by decide)

open PageTable in
theorem regular_armPtable (t : Fin 2) (i : Fin 3) : (armPtable t i).Regular false := by
  rw [armPtable]
  split
  · exact regular_sparseTable false fits_armStage (by decide) _ _ _ _
  · exact regular_absentTable fits_armStage _

open PageTable in
theorem owned_armPtable (t : Fin 2) (a : Nat) :
    Owned fun i => PageState.ofView ((armPtable t i).view a) := by
  have hrest : ∀ k, k ≠ 0 → (armPtable t k).view a = none := by
    intro k hk
    rw [armPtable, if_neg hk, view_absentTable]
  exact owned_sparseTable fits_armStage rfl (if_pos rfl) hrest

theorem sound_armState (t : Fin 2) {hypervisorPtable : PageTable hypervisor}
    (h : hypervisorPtable.Regular false) : (armState t hypervisorPtable).Sound :=
  ⟨by decide, regular_armPtable t, h, wf_armPool⟩

theorem owned_armState (t : Fin 2) (hypervisorPtable : PageTable hypervisor) (a : Nat) :
    Owned ((armState t hypervisorPtable).pageState a) :=
  owned_armPtable t a

/-- A page is given away that the hypervisor has not mapped. -/
theorem address_space_kept_give :
    Always step (fun s act => s.KeepsSpace act)
      [.call exampleEnv (armVCpu 0) (.shareMemory 2 0x1000 0x1000 0)]
      (armState 0 (PageTable.absentTable _ 0x10000)) :=
  (address_space_kept_iff
    (sound_armState 0 (PageTable.regular_absentTable fits_hypervisor _))
    (by simp only [List.mem_singleton, forall_eq]; exact fun _ _ h => h)).mpr
      ⟨fun a _ => PageTable.view_absentTable _ a, fun _ _ => trivial⟩

/-- The primary VM gives away a page that the hypervisor has mapped since boot, like
the initial RAM disk; the hypervisor has lost it then. -/
theorem boot_page_unmapped :
    let hyp := PageTable.sparseTable hypervisor 0x10000 ⟨0, Nat.one_pos⟩ 0 Mode.R
    (armState 0 hyp).Sound ∧ (∀ a, Owned ((armState 0 hyp).pageState a)) ∧
    (armState 0 hyp).hypervisorPtable.view 0x1000 = some (archMmModeToStage1Attrs Mode.R) ∧
    ∃ reply s', (armState 0 hyp).exec exampleEnv (armVCpu 0) (.shareMemory 2 0x1000 0x1000 0) =
        .ok (reply, s') ∧ reply.ret = .int 0 ∧ s'.hypervisorPtable.view 0x1000 = none := by
  intro hyp
  have hexec : ((armState 0 hyp).exec exampleEnv (armVCpu 0) (.shareMemory 2 0x1000 0x1000 0)).map
      (fun r => (r.1.ret, r.2.hypervisorPtable.view 0x1000)) = .ok (.int 0, none) := by
    decide +kernel
  obtain ⟨⟨reply, s'⟩, hs', hres⟩ := map_eq_ok.mp hexec
  exact ⟨sound_armState 0 (PageTable.regular_sparseTable false fits_hypervisor
    (by decide) _ _ _ _),
    owned_armState 0 _, by decide +kernel, reply, s', hs', congrArg Prod.fst hres,
    congrArg Prod.snd hres⟩

/-- Two pages below the end of the hypervisor's address space become a mailbox. -/
theorem accessible_low :
    ∃ reply s₁, (armState 0 (PageTable.absentTable _ 0x10000)).exec exampleEnv (armVCpu 0)
        (.vmConfigure 0x1000 0x2000) = .ok (reply, s₁) ∧
      ∀ as s', (∀ act ∈ as, act.Ok) → run step as s₁ = some s' →
        s'.Accessible 0x1000 0x2000 := by
  have hexec : ((armState 0 (PageTable.absentTable _ 0x10000)).exec exampleEnv (armVCpu 0)
      (.vmConfigure 0x1000 0x2000)).map (fun r => r.1.ret) = .ok (.int 0) := by
    decide +kernel
  obtain ⟨⟨reply, s₁⟩, hs₁, hret⟩ := map_eq_ok.mp hexec
  refine ⟨reply, s₁, hs₁, ((accessible_iff rfl
    (sound_armState 0 (PageTable.regular_absentTable fits_hypervisor _)) (fun _ _ h => h)
    (owned_armState 0 _)).1 _ _ _ _ _ hs₁ ?_).mpr ⟨by decide, by decide⟩⟩
  rw [hret]
  nofun

/-- A mailbox at the end of the hypervisor's address space is configured without
being mapped, and memory there is cleared without being mapped. -/
theorem mailbox_out_of_reach :
    let s := armState 1 (PageTable.absentTable _ 0x10000)
    s.Sound ∧ (∀ a, Owned (s.pageState a)) ∧
    (∃ reply s', s.exec exampleEnv (armVCpu 0) (.vmConfigure (2 ^ 39) (2 ^ 39 + 0x1000)) =
        .ok (reply, s') ∧ reply.ret = .int 0 ∧ ¬s'.Accessible (2 ^ 39) (2 ^ 39 + 0x1000)) ∧
    ∃ hyp, (s.transfer (armVm 0) (armVm 1)).Clears exampleEnv.pool .give (2 ^ 39)
      (2 ^ 39 + 0x1000) hyp ∧ ¬hyp.Writable (2 ^ 39) := by
  intro s
  have hout : ∀ pt : PageTable hypervisor, pt.view (2 ^ 39) = none := fun pt =>
    pt.view_of_ge (by decide)
  have hexec : (s.exec exampleEnv (armVCpu 0) (.vmConfigure (2 ^ 39) (2 ^ 39 + 0x1000))).map
      (fun r => r.1.ret) = .ok (.int 0) := by
    decide +kernel
  obtain ⟨⟨reply, s'⟩, hs', hret⟩ := map_eq_ok.mp hexec
  refine ⟨sound_armState 1 (PageTable.regular_absentTable fits_hypervisor _),
    owned_armState 1 _, ⟨reply, s', hs', hret, fun h => ?_⟩, ?_⟩
  · obtain ⟨attrs, hview, -⟩ := h.1 (2 ^ 39) le_rfl (by decide)
    cases (hout s'.hypervisorPtable).symm.trans hview
  · have hcheck : (shareMemoryCheck .give (2 ^ 39) (2 ^ 39 + 0x1000) (s.ptable (armVm 0))
        (s.ptable (armVm 1))).isSome = true := by
      decide +kernel
    have hclear : ((s.transfer (armVm 0) (armVm 1)).mapSender (exampleEnv.pool 0) (2 ^ 39)
        (2 ^ 39 + 0x1000) HfShare.give.modes.1).map (fun r => (r.1,
          (r.2.hypervisorPtable.identityMapIn (exampleEnv.pool 1) (2 ^ 39) (2 ^ 39 + 0x1000) Mode.W
            r.2.pool).map Prod.fst)) = .ok (.ok, .ok .ok) := by
      decide +kernel
    obtain ⟨orig, horig⟩ := Option.isSome_iff_exists.mp hcheck
    obtain ⟨⟨_, t₁⟩, hmap, hres⟩ := map_eq_ok.mp hclear
    obtain ⟨rfl, hres⟩ := Prod.mk.inj hres
    obtain ⟨⟨_, hyp, pool⟩, hclear, rfl⟩ := map_eq_ok.mp hres
    refine ⟨hyp, ⟨orig, t₁, horig, hmap, pool, hclear⟩, ?_⟩
    rintro ⟨attrs, hview, -⟩
    cases (hout hyp).symm.trans hview

end Hafnium
