import Hafnium.Support.Run
import Hafnium.Switching

/-!
# Physical CPUs and the vCPUs they run

The system of all physical CPUs: each is off or has a current vCPU, which makes the
calls.  A call that switches saves the registers of the current vCPU in the same step,
and thereby releases its lock if it is of a secondary VM.
-/

namespace Hafnium

open Support Function Hypervisor Option

/-! ## The system -/

/-- The hypervisor with the vCPU that each physical CPU has, if it is on; `issuer` is
the vCPU that called `HF_VCPU_RUN` for a vCPU last. -/
structure System (M : Machine) where
  hyp : Hypervisor M
  current : Fin M.cpuIds.length → Option (VCpuId M)
  issuer : VCpuId M → Option (VCpuId M)

inductive Event (M : Machine)
  /-- A physical CPU comes up, or goes down while the primary VM has it. -/
  | start (p : Fin M.cpuIds.length)
  | stop (p : Fin M.cpuIds.length)
  /-- The current vCPU of a physical CPU calls; `saved` are its timer registers if it is
  switched. -/
  | call (p : Fin M.cpuIds.length) (env : Env) (saved : Timer) (call : Call M)
  /-- Parts of the PSCI calls of secondary VMs. -/
  | resetAndStart (target : VCpuId M) (entry arg : BitVec 64)
  | affinityInfo (target : VCpuId M)
  | guest (mem : Memory)
  | pool (mpool : MPool)

/-- `regsStateSaved` belongs to a switch and is no event. -/
def Call.isSave {M : Machine} : Call M → Bool
  | .regsStateSaved => true
  | _ => false

def Call.isRun {M : Machine} : Call M → Bool
  | .vcpuRun _ _ => true
  | _ => false

theorem VCpuId.eq_primary {M : Machine} {v : VCpuId M} {i : Nat} (hv : v.vm = M.primary)
    (hi : v.index.val = i) (h : i < M.vcpuCount M.primary) : v = ⟨M.primary, i, h⟩ := by
  obtain ⟨vm, index⟩ := v
  dsimp only at hv hi
  subst hv
  subst hi
  rfl

namespace System

variable {M : Machine}

/-- The state after a call of `v` on `p`: a switch comes with the save of the registers
of `v`. -/
def after (p : Fin M.cpuIds.length) (saved : Timer) (v : VCpuId M) (call : Call M)
    (reply : Reply M) (hyp : Hypervisor M) (S : System M) : System M :=
  match reply.next with
  | none => { S with hyp }
  | some next => {
      hyp := hyp.regsStateSaved saved v
      current := update S.current p (some next)
      issuer := if call.isRun then update S.issuer next (some v) else S.issuer }

/-- The state after an event, unless the physical CPU cannot take it, or stops or waits
there. -/
def step (S : System M) : Event M → Option (System M)
  | .start p =>
    match S.current p, S.hyp.cpuMain p with
    | none, .ok (v, hyp) =>
      some { S with hyp, current := update S.current p (some v) }
    | _, _ => none
  | .stop p =>
    match S.current p with
    | some v =>
      if v.vm = M.primary then some { S with current := update S.current p none }
      else none
    | none => none
  | .call p env saved call =>
    match S.current p with
    | none => none
    | some v =>
      if call.isSave then none
      else
        match S.hyp.exec env v call with
        | .error _ => none
        | .ok (reply, hyp) => some (S.after p saved v call reply hyp)
  | .resetAndStart target entry arg =>
    match S.hyp.vcpuSecondaryResetAndStart target entry arg with
    | .ok (_, hyp) => some { S with hyp }
    | .error _ => none
  | .affinityInfo target => some { S with hyp := (S.hyp.affinityInfo target).2 }
  | .guest mem => some { S with hyp := { S.hyp with mem } }
  | .pool mpool => some { S with hyp := { S.hyp with mpool } }

/-- Everything that a step can do to locks and to the current vCPUs. -/
inductive Transition (S : System M) : System M → Prop
  | start {p : Fin M.cpuIds.length} (off : S.current p = none) (h : p < M.vcpuCount M.primary) :
      Transition S { S with
        hyp := S.hyp.setVCpu ⟨M.primary, p, h⟩ { S.hyp.vcpu ⟨M.primary, p, h⟩ with
          cpu := some p.val, regs := S.hyp.resetRegs true ⟨M.primary, p, h⟩ (M.cpuIds.get p) }
        current := update S.current p (some ⟨M.primary, p, h⟩) }
  | stop {p : Fin M.cpuIds.length} {v : VCpuId M} (hp : S.current p = some v)
      (hv : v.vm = M.primary) :
      Transition S { S with current := update S.current p none }
  | steady {hyp : Hypervisor M} (h : S.hyp.Steady hyp) : Transition S { S with hyp }
  | back {p : Fin M.cpuIds.length} {v next : VCpuId M} {ret : HfVCpuRunReturn}
      {hyp : Hypervisor M} (saved : Timer) (hp : S.current p = some v)
      (h : S.hyp.SwitchesBack v next ret hyp) :
      Transition S { S with
        hyp := hyp.regsStateSaved saved v
        current := update S.current p (some next) }
  | run {p : Fin M.cpuIds.length} {v w : VCpuId M} {hyp : Hypervisor M} (saved : Timer)
      (hp : S.current p = some v) (h : S.hyp.Runs v w hyp) :
      Transition S {
        hyp := hyp.regsStateSaved saved v
        current := update S.current p (some w)
        issuer := update S.issuer w (some v) }

variable {S S' : System M}
variable {p : Fin M.cpuIds.length}

theorem step_call_eq_some {env : Env} {saved : Timer} {call : Call M}
    (h : S.step (.call p env saved call) = some S') :
    ∃ v reply hyp, S.current p = some v ∧ call.isSave = false ∧
      S.hyp.exec env v call = .ok (reply, hyp) ∧ S' = S.after p saved v call reply hyp := by
  rw [step] at h
  split at h
  · contradiction
  · next v hp =>
      split at h
      · contradiction
      · next hsave =>
          split at h
          · contradiction
          · next reply hyp hexec =>
              exact ⟨v, reply, hyp, hp, Bool.eq_false_of_not_eq_true hsave, hexec,
                (some.inj h).symm⟩

theorem transition_of_call {env : Env} {saved : Timer} {call : Call M}
    (h : S.step (.call p env saved call) = some S') : S.Transition S' := by
  obtain ⟨v, ⟨ret, next⟩, hyp, hp, hsave, hexec, rfl⟩ := step_call_eq_some h
  by_cases hback : call.switchesBack = true
  · have hrun : call.isRun = false := by
      cases call with
      | vcpuRun => contradiction
      | _ => rfl
    have hswitches := (exec_switches v S.hyp env hback).of_ok hexec
    rw [after, hrun]
    cases hswitches with
    | stays h => exact .steady h
    | back h => exact .back saved hp h
  · cases call with
    | vcpuRun vmId vcpuIdx =>
      obtain ⟨⟨r, hyp⟩, hvcpuRun, hreply⟩ := bind_eq_ok.mp hexec
      obtain ⟨ret, rfl, hsteady⟩ | ⟨w, rfl, -, hruns⟩ :=
        (vcpuRun_runs env.timer v S.hyp vmId vcpuIdx).of_ok hvcpuRun
      · cases hreply
        exact .steady hsteady
      · cases hreply
        exact .run saved hp hruns
    | regsStateSaved => contradiction
    | _ => exact absurd rfl hback

theorem transition_of_step {e : Event M} (h : S.step e = some S') : S.Transition S' := by
  cases e with
  | start p =>
    rw [step] at h
    split at h
    · next v hyp hoff hmain =>
        obtain rfl := some.inj h
        rw [cpuMain] at hmain
        split at hmain
        · next hlt =>
            cases hmain
            exact .start hoff hlt
        · contradiction
    · contradiction
  | stop p =>
    rw [step] at h
    split at h
    · next v hp =>
        split at h
        · next hv =>
            obtain rfl := some.inj h
            exact .stop hp hv
        · contradiction
    · contradiction
  | call p env saved call => exact transition_of_call h
  | resetAndStart target entry arg =>
    rw [step] at h
    split at h
    · next started hyp hstart =>
        obtain rfl := some.inj h
        exact .steady (vcpuSecondaryResetAndStart_steady hstart)
    · contradiction
  | affinityInfo target =>
    obtain rfl := some.inj h
    rw [affinityInfo_eq]
    exact .steady (.refl S.hyp)
  | guest mem =>
    obtain rfl := some.inj h
    exact .steady (.of_eq rfl rfl)
  | pool mpool =>
    obtain rfl := some.inj h
    exact .steady (.of_eq rfl rfl)

/-! ## The invariant -/

/-- A secondary vCPU is locked exactly while a physical CPU has it, which is then
recorded in it; the vCPU of the primary VM that the physical CPU goes back to is the one
with its index, which had the vCPU run. -/
structure Inv (S : System M) : Prop where
  locked : ∀ v, v.vm ≠ M.primary → ((S.hyp.vcpu v).locked = true ↔ ∃ p, S.current p = some v)
  cpu : ∀ p v, S.current p = some v → (S.hyp.vcpu v).cpu = some p.val
  home : ∀ p v, S.current p = some v → ∃ h : p < M.vcpuCount M.primary,
    (S.hyp.vcpu ⟨M.primary, p, h⟩).cpu = some p.val
  index : ∀ p v, S.current p = some v → v.vm = M.primary → v.index.val = p.val
  issuer : ∀ p v, S.current p = some v → v.vm ≠ M.primary →
    ∃ h : p < M.vcpuCount M.primary, S.issuer v = some ⟨M.primary, p, h⟩

/-- No two physical CPUs have the same vCPU. -/
theorem Inv.unique (h : S.Inv) {p q : Fin M.cpuIds.length} {v : VCpuId M}
    (hp : S.current p = some v) (hq : S.current q = some v) : p = q := by
  have hcpu := (h.cpu p v hp).symm.trans (h.cpu q v hq)
  exact Fin.ext (some.inj hcpu)

theorem Inv.primaryVCpu (h : S.Inv) {v next : VCpuId M}
    (hp : S.current p = some v) (hnext : S.hyp.primaryVCpu v = .ok next) :
    ∃ hlt : p < M.vcpuCount M.primary, next = ⟨M.primary, p, hlt⟩ := by
  obtain ⟨hlt, -⟩ := h.home p v hp
  rw [Hypervisor.primaryVCpu, h.cpu p v hp] at hnext
  dsimp only at hnext
  rw [dif_pos hlt] at hnext
  exact ⟨hlt, (Except.ok.inj hnext).symm⟩

theorem Inv.steady {hyp : Hypervisor M} (h : S.Inv) (hsteady : S.hyp.Steady hyp) :
    Inv { S with hyp } where
  locked v hv := by
    dsimp only
    rw [hsteady.locked, h.locked v hv]
  cpu p v hp := (hsteady.cpu v).trans (h.cpu p v hp)
  home p v hp := by
    obtain ⟨hlt, hcpu⟩ := h.home p v hp
    exact ⟨hlt, (hsteady.cpu _).trans hcpu⟩
  index := h.index
  issuer := h.issuer

/-- After `p` got the vCPU `w`, the others have what they had. -/
theorem current_update {p q : Fin M.cpuIds.length} {o : Option (VCpuId M)} {v : VCpuId M}
    (h : update S.current p o q = some v) :
    (q = p ∧ o = some v) ∨ (q ≠ p ∧ S.current q = some v) := by
  by_cases hq : q = p
  · subst hq
    rw [update_self] at h
    exact Or.inl ⟨rfl, h⟩
  · rw [update_of_ne hq] at h
    exact Or.inr ⟨hq, h⟩

/-- Who has a vCPU that is not concerned by a switch on `p`. -/
theorem exists_current_update {o : Option (VCpuId M)} {v : VCpuId M}
    (hold : S.current p ≠ some v) (hnew : o ≠ some v) :
    (∃ q, update S.current p o q = some v) ↔ ∃ q, S.current q = some v := by
  constructor
  · rintro ⟨q, hq⟩
    obtain ⟨-, h⟩ | ⟨-, h⟩ := current_update hq
    · exact absurd h hnew
    · exact ⟨q, h⟩
  · rintro ⟨q, hq⟩
    have hne : q ≠ p := by
      rintro rfl
      exact hold hq
    exact ⟨q, by rw [update_of_ne hne, hq]⟩

theorem Inv.start (h : S.Inv) (hoff : S.current p = none) (hlt : p < M.vcpuCount M.primary) :
    Inv { S with
      hyp := S.hyp.setVCpu ⟨M.primary, p, hlt⟩ { S.hyp.vcpu ⟨M.primary, p, hlt⟩ with
        cpu := some p.val, regs := S.hyp.resetRegs true ⟨M.primary, p, hlt⟩ (M.cpuIds.get p) }
      current := update S.current p (some ⟨M.primary, p, hlt⟩) } := by
  -- the vCPUs of the primary VM on other physical CPUs have other indices
  have hne : ∀ q, q ≠ p → ∀ (hq : q < M.vcpuCount M.primary),
      (⟨M.primary, q, hq⟩ : VCpuId M) ≠ ⟨M.primary, p, hlt⟩ := by
    intro q hqp hq heq
    have hval : q.val = p.val := congrArg (fun v : VCpuId M => v.index.val) heq
    exact hqp (Fin.ext hval)
  have hother : ∀ q v, q ≠ p → S.current q = some v → v ≠ ⟨M.primary, p, hlt⟩ := by
    rintro q v hqp hq rfl
    exact hqp (Fin.ext (h.index q _ hq rfl).symm)
  refine ⟨fun v hv => ?_, fun q v hq => ?_, fun q v hq => ?_, fun q v hq hv => ?_,
    fun q v hq hv => ?_⟩
  · have hvp : v ≠ ⟨M.primary, p, hlt⟩ := by
      rintro rfl
      exact hv rfl
    dsimp only
    rw [exists_current_update (by rw [hoff]; nofun) fun h => hvp (some.inj h).symm,
      setVCpu_vcpu, update_of_ne hvp, h.locked v hv]
  · dsimp only at hq ⊢
    obtain ⟨rfl, heq⟩ | ⟨hqp, hq⟩ := current_update hq
    · obtain rfl := some.inj heq
      rw [setVCpu_vcpu, update_self]
    · rw [setVCpu_vcpu, update_of_ne (hother q v hqp hq), h.cpu q v hq]
  · dsimp only at hq ⊢
    obtain ⟨rfl, -⟩ | ⟨hqp, hq⟩ := current_update hq
    · refine ⟨hlt, ?_⟩
      rw [setVCpu_vcpu, update_self]
    · obtain ⟨hq, hcpu⟩ := h.home q v hq
      refine ⟨hq, ?_⟩
      rw [setVCpu_vcpu, update_of_ne (hne q hqp hq), hcpu]
  · obtain ⟨rfl, heq⟩ | ⟨-, hq⟩ := current_update hq
    · obtain rfl := some.inj heq
      rfl
    · exact h.index q v hq hv
  · obtain ⟨rfl, heq⟩ | ⟨-, hq⟩ := current_update hq
    · obtain rfl := some.inj heq
      exact absurd rfl hv
    · exact h.issuer q v hq hv

theorem Inv.stop (h : S.Inv) {w : VCpuId M} (hp : S.current p = some w) (hw : w.vm = M.primary) :
    Inv { S with current := update S.current p none } := by
  have hold : ∀ q v, update S.current p none q = some v → S.current q = some v := by
    intro q v hq
    obtain ⟨-, hq⟩ | ⟨-, hq⟩ := current_update hq
    · contradiction
    · exact hq
  refine ⟨fun v hv => ?_, fun q v hq => h.cpu q v (hold q v hq),
    fun q v hq => h.home q v (hold q v hq), fun q v hq => h.index q v (hold q v hq),
    fun q v hq => h.issuer q v (hold q v hq)⟩
  have hpv : S.current p ≠ some v := by
    rw [hp]
    rintro ⟨⟩
    exact hv hw
  dsimp only
  rw [exists_current_update (o := none) hpv nofun, h.locked v hv]

theorem Inv.back (h : S.Inv) {v next : VCpuId M}
    {ret : HfVCpuRunReturn} {hyp : Hypervisor M} (saved : Timer) (hp : S.current p = some v)
    (hback : S.hyp.SwitchesBack v next ret hyp) :
    Inv { S with
      hyp := hyp.regsStateSaved saved v
      current := update S.current p (some next) } := by
  obtain ⟨hlt, rfl⟩ := h.primaryVCpu hp hback.primary
  have hcpu : ∀ w, ((hyp.regsStateSaved saved v).vcpu w).cpu = (S.hyp.vcpu w).cpu := fun w => by
    rw [regsStateSaved_cpu, hback.cpu]
  obtain ⟨_, hhome⟩ := h.home p v hp
  refine ⟨fun w hw => ?_, fun q w hq => ?_, fun q w hq => ?_, fun q w hq hw => ?_,
    fun q w hq hw => ?_⟩
  · have hnext : some (⟨M.primary, p, hlt⟩ : VCpuId M) ≠ some w := by
      rintro ⟨⟩
      exact hw rfl
    dsimp only
    by_cases hwv : w = v
    · -- the vCPU that is left is no longer locked, and nobody else has it
      subst hwv
      rw [regsStateSaved_locked saved w hyp hw]
      refine iff_of_false Bool.false_ne_true ?_
      rintro ⟨q, hq⟩
      obtain ⟨-, hq⟩ | ⟨hqp, hq⟩ := current_update hq
      · exact hnext hq
      · exact hqp (h.unique hq hp)
    · rw [regsStateSaved_of_ne saved v hyp hwv, hback.locked, h.locked w hw,
        exists_current_update _ hnext]
      rw [hp]
      exact fun heq => hwv (some.inj heq).symm
  · dsimp only at hq ⊢
    rw [hcpu]
    obtain ⟨rfl, heq⟩ | ⟨-, hq⟩ := current_update hq
    · obtain rfl := some.inj heq
      exact hhome
    · exact h.cpu q w hq
  · dsimp only at hq ⊢
    simp only [hcpu]
    obtain ⟨rfl, -⟩ | ⟨-, hq⟩ := current_update hq
    · exact ⟨hlt, hhome⟩
    · exact h.home q w hq
  · obtain ⟨rfl, heq⟩ | ⟨-, hq⟩ := current_update hq
    · obtain rfl := some.inj heq
      rfl
    · exact h.index q w hq hw
  · obtain ⟨rfl, heq⟩ | ⟨-, hq⟩ := current_update hq
    · obtain rfl := some.inj heq
      exact absurd rfl hw
    · exact h.issuer q w hq hw

theorem Inv.run (h : S.Inv) {v w : VCpuId M} {hyp : Hypervisor M}
    (saved : Timer) (hp : S.current p = some v) (hruns : S.hyp.Runs v w hyp) :
    Inv {
      hyp := hyp.regsStateSaved saved v
      current := update S.current p (some w)
      issuer := update S.issuer w (some v) } := by
  have hwv : w ≠ v := by
    rintro rfl
    exact hruns.secondary hruns.scheduler
  -- a vCPU that can be run is not current anywhere
  have hfree : ∀ q x, S.current q = some x → x ≠ w := by
    rintro q x hq rfl
    have hlocked := (h.locked x hruns.secondary).mpr ⟨q, hq⟩
    cases hlocked.symm.trans hruns.free
  have hcpu : ∀ x, x ≠ w → ((hyp.regsStateSaved saved v).vcpu x).cpu = (S.hyp.vcpu x).cpu := by
    intro x hx
    rw [regsStateSaved_cpu, hruns.others x hx]
  have hprimary : ∀ (i : Nat) (hi : i < M.vcpuCount M.primary),
      (⟨M.primary, i, hi⟩ : VCpuId M) ≠ w := by
    rintro i hi rfl
    exact hruns.secondary rfl
  refine ⟨fun x hx => ?_, fun q x hq => ?_, fun q x hq => ?_, fun q x hq hx => ?_,
    fun q x hq hx => ?_⟩
  · have hxv : x ≠ v := by
      rintro rfl
      exact hx hruns.scheduler
    dsimp only
    rw [regsStateSaved_of_ne saved v hyp hxv]
    by_cases hxw : x = w
    · subst hxw
      exact iff_of_true hruns.locked ⟨p, update_self ..⟩
    · rw [hruns.others x hxw, h.locked x hx, exists_current_update]
      · rw [hp]
        exact fun heq => hxv (some.inj heq).symm
      · exact fun heq => hxw (some.inj heq).symm
  · dsimp only at hq ⊢
    obtain ⟨rfl, heq⟩ | ⟨-, hq⟩ := current_update hq
    · obtain rfl := some.inj heq
      rw [regsStateSaved_cpu, hruns.cpu, h.cpu q v hp]
    · rw [hcpu x (hfree q x hq), h.cpu q x hq]
  · dsimp only at hq ⊢
    simp only [hcpu _ (hprimary _ _)]
    obtain ⟨rfl, -⟩ | ⟨-, hq⟩ := current_update hq
    · exact h.home q v hp
    · exact h.home q x hq
  · obtain ⟨rfl, heq⟩ | ⟨-, hq⟩ := current_update hq
    · obtain rfl := some.inj heq
      exact absurd hx hruns.secondary
    · exact h.index q x hq hx
  · dsimp only at hq ⊢
    obtain ⟨rfl, heq⟩ | ⟨-, hq⟩ := current_update hq
    · obtain rfl := some.inj heq
      obtain ⟨hlt, -⟩ := h.home q v hp
      refine ⟨hlt, ?_⟩
      rw [update_self, VCpuId.eq_primary hruns.scheduler (h.index q v hp hruns.scheduler)]
    · rw [update_of_ne (hfree q x hq)]
      exact h.issuer q x hq hx

theorem Inv.transition (h : S.Inv) (ht : S.Transition S') : S'.Inv := by
  cases ht with
  | start off hlt => exact h.start off hlt
  | stop hp hv => exact h.stop hp hv
  | steady hsteady => exact h.steady hsteady
  | back saved hp hback => exact h.back saved hp hback
  | run saved hp hruns => exact h.run saved hp hruns

theorem Transition.aborting (ht : S.Transition S') {i : M.VmIndex}
    (hi : S.hyp.aborting i = true) : S'.hyp.aborting i = true := by
  cases ht with
  | start off hlt => exact hi
  | stop hp hv => exact hi
  | steady h => exact h.aborting i hi
  | back saved hp h => exact h.aborting i hi
  | run saved hp h => exact h.aborting i hi

/-- All physical CPUs are off, and no vCPU of a secondary VM is locked. -/
structure Booted (S : System M) : Prop where
  off : ∀ p, S.current p = none
  unlocked : ∀ v, v.vm ≠ M.primary → (S.hyp.vcpu v).locked = false

theorem Booted.inv (h : S.Booted) : S.Inv := by
  have hoff : ∀ p v, S.current p ≠ some v := fun p v hp => nomatch (h.off p).symm.trans hp
  refine ⟨fun v hv => iff_of_false ?_ ?_, fun p v hp => absurd hp (hoff p v),
    fun p v hp => absurd hp (hoff p v), fun p v hp => absurd hp (hoff p v),
    fun p v hp => absurd hp (hoff p v)⟩
  · rw [h.unlocked v hv]
    exact Bool.false_ne_true
  · rintro ⟨p, hp⟩
    exact hoff p v hp

theorem Inv.run_inv (h : S.Inv) {events : List (Event M)}
    (hrun : Support.run step events S = some S') : S'.Inv :=
  run_invariant (G := fun _ => True) Inv (fun _ _ _ h _ hstep => h.transition
    (transition_of_step hstep)) h (fun _ _ => trivial) hrun

/-- A VM that aborts does so for the rest of the run. -/
theorem run_aborting {i : M.VmIndex} (hi : S.hyp.aborting i = true) {events : List (Event M)}
    (hrun : Support.run step events S = some S') : S'.hyp.aborting i = true :=
  run_invariant (G := fun _ => True) (fun S => S.hyp.aborting i = true)
    (fun _ _ _ h _ hstep => (transition_of_step hstep).aborting h) hi (fun _ _ => trivial) hrun

theorem aborting_of_abort {v : VCpuId M} {env : Env} {saved : Timer}
    (hp : S.current p = some v) (h : S.step (.call p env saved .abort) = some S') :
    S'.hyp.aborting v.vm = true := by
  obtain ⟨w, reply, hyp, hw, -, hexec, rfl⟩ := step_call_eq_some h
  obtain rfl := some.inj (hp.symm.trans hw)
  obtain ⟨⟨next, hyp⟩, habort, hreply⟩ := bind_eq_ok.mp hexec
  cases hreply
  exact ((abort_switches env.timer v S.hyp).of_ok habort).2

/-- What a physical CPU `p` does when its vCPU `v` is switched back: it goes on with the
vCPU of the primary VM that has its index, which had `v` run, and only that one gets a
result. -/
structure ReturnsTo (S : System M) (p : Fin M.cpuIds.length) (v next : VCpuId M)
    (hyp : Hypervisor M) : Prop where
  primary : next.vm = M.primary
  index : next.index.val = p.val
  issuer : v.vm ≠ M.primary → S.issuer v = some next
  result : ∃ ret : HfVCpuRunReturn,
    (hyp.vcpu next).regs.retvals = ret.intoRaw :: (S.hyp.vcpu next).regs.retvals
  others : ∀ w, w ≠ next → (hyp.vcpu w).regs.retvals = (S.hyp.vcpu w).regs.retvals

theorem Inv.returnsTo (h : S.Inv) {v next : VCpuId M} {env : Env}
    {call : Call M} {ret : Ret} {hyp : Hypervisor M} (hp : S.current p = some v)
    (hcall : call.switchesBack = true)
    (hexec : S.hyp.exec env v call = .ok (⟨ret, some next⟩, hyp)) : S.ReturnsTo p v next hyp := by
  cases (exec_switches v S.hyp env hcall).of_ok hexec with
  | back hback =>
    obtain ⟨hlt, rfl⟩ := h.primaryVCpu hp hback.primary
    refine ⟨rfl, rfl, fun hv => ?_, ⟨_, hback.result⟩, hback.others⟩
    obtain ⟨_, hissuer⟩ := h.issuer p v hp hv
    exact hissuer

/-- In every state that any number of physical CPUs can reach by any interleaving of
calls, a secondary vCPU is locked exactly while one physical CPU has it, which it
records; every switch back leads to where the vCPU was run from; and no vCPU of a VM
runs again after one of them has aborted. -/
theorem vcpus_scheduled {S₀ : System M} (hboot : S₀.Booted) {events : List (Event M)}
    (hrun : Support.run step events S₀ = some S) :
    (∀ v, v.vm ≠ M.primary →
      ((S.hyp.vcpu v).locked = true ↔ ∃! p, S.current p = some v) ∧
      ∀ p, S.current p = some v → (S.hyp.vcpu v).cpu = some p.val) ∧
    (∀ p v env call ret next hyp, S.current p = some v → call.switchesBack = true →
      S.hyp.exec env v call = .ok (⟨ret, some next⟩, hyp) → S.ReturnsTo p v next hyp) ∧
    ∀ p v env saved S₁ later S₂, S.current p = some v →
      S.step (.call p env saved .abort) = some S₁ → Support.run step later S₁ = some S₂ →
      ∀ timer vcpuIdx current w hyp,
        S₂.hyp.vcpuRun timer (M.vmId v.vm) vcpuIdx current ≠ .ok (.ok w, hyp) := by
  have hinv := hboot.inv.run_inv hrun
  refine ⟨fun v hv => ⟨?_, fun p hp => hinv.cpu p v hp⟩, ?_, ?_⟩
  · rw [hinv.locked v hv]
    constructor
    · rintro ⟨p, hp⟩
      exact ⟨p, hp, fun q hq => hinv.unique hq hp⟩
    · rintro ⟨p, hp, -⟩
      exact ⟨p, hp⟩
  · intro p v env call ret next hyp hp hcall hexec
    exact hinv.returnsTo hp hcall hexec
  · intro p v env saved S₁ later S₂ hp habort hlater timer vcpuIdx current w hyp hvcpuRun
    have haborting := run_aborting (aborting_of_abort hp habort) hlater
    obtain ⟨ret, hret, -⟩ | ⟨w', -, hw, hruns⟩ :=
      (Hypervisor.vcpuRun_runs timer current S₂.hyp _ vcpuIdx).of_ok hvcpuRun
    · contradiction
    · have halive := hruns.alive
      rw [Machine.vmId_inj.mp hw, haborting] at halive
      contradiction

/-- The example machine before its physical CPU is turned on. -/
def exampleSystem : System exampleMachine := ⟨exampleState fun _ => 0, fun _ => none, fun _ => none⟩

theorem exampleSystem_booted : exampleSystem.Booted := ⟨fun _ => rfl, fun _ _ => rfl⟩

/-- The physical CPU comes up, and the primary VM runs the vCPU of the first secondary VM
there. -/
def exampleEvents : List (Event exampleMachine) :=
  [.start ⟨0, Nat.one_pos⟩, .call ⟨0, Nat.one_pos⟩ exampleEnv exampleEnv.timer (.vcpuRun 2 0)]

theorem vcpus_scheduled_run :
    ∃ S, Support.run step exampleEvents exampleSystem = some S ∧
      (S.hyp.vcpu (exampleVCpu 1)).locked = true ∧
      ∃! p, S.current p = some (exampleVCpu 1) := by
  obtain ⟨S, hrun, hlocked⟩ : ∃ S, Support.run step exampleEvents exampleSystem = some S ∧
      (S.hyp.vcpu (exampleVCpu 1)).locked = true := ⟨_, rfl, rfl⟩
  refine ⟨S, hrun, hlocked, ?_⟩
  exact ((vcpus_scheduled exampleSystem_booted hrun).1 (exampleVCpu 1) (by decide)).1.mp hlocked

end System
end Hafnium
