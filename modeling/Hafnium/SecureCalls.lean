import Hafnium.DebugRegisters
import Hafnium.Psci

/-!
# Trapped secure monitor calls

The path of an SMC trap through `sync_lower_exception`, `smc_handler` and the PSCI
handlers.  The result of the call is a local of `sync_lower_exception` that is not
initialised, so its first contents are an input of the model.  The firmware is the list
of its answers to the calls that one trap makes; after the last one it does not return.
A trap that waits for the lock of a vCPU looks at it again after steps of other CPUs, in
a list of states that is an input as well.
-/

namespace Hafnium

open Support Hypervisor PsciFunction List Machine

/-- What PSCI calls of the primary VM work on besides the VMs. -/
structure PowerState (M : Machine) where
  hyp : Hypervisor M
  /-- `is_on` of the physical CPUs, by index. -/
  isOn : Nat → Bool
  el3PsciVersion : BitVec 32

/-- A call of the firmware. -/
def smc : List SmcRes → Except Panic SmcRes
  | [] => .error .firmware
  | answer :: _ => .ok answer

/-- Calls `PSCI_CPU_ON` of the firmware until it does not report the CPU as on, and
gives the last result. -/
def smcCpuOn : List SmcRes → Except Panic (BitVec 64)
  | [] => .error .firmware
  | answer :: answers =>
    if answer.res0 = psciErrorAlreadyOn then smcCpuOn answers else .ok answer.res0

theorem smcCpuOn_returns {answers : List SmcRes} :
    (∃ ret, smcCpuOn answers = .ok ret) ↔ ∃ a ∈ answers, a.res0 ≠ psciErrorAlreadyOn := by
  induction answers with
  | nil => simp [smcCpuOn]
  | cons a answers ih =>
    rw [smcCpuOn]
    by_cases h : a.res0 = psciErrorAlreadyOn
    · simp [h, ih]
    · simp [h]

namespace PowerState

variable {M : Machine}

/-- The index of the first physical CPU with an id. -/
def cpuFind (M : Machine) (id : BitVec 64) : Option Nat := M.cpuIds.findIdx? (· == id.toNat)

def cpuOff (c : Nat) (p : PowerState M) : PowerState M :=
  { p with isOn := Function.update p.isOn c false }

/-- Turns a CPU on and returns its previous state. -/
def cpuOn (c : Nat) (entry arg : BitVec 64) (p : PowerState M) :
    Except Panic (Bool × PowerState M) :=
  let prev := p.isOn c
  let p := { p with isOn := Function.update p.isOn c true }
  if prev then .ok (true, p)
  else if h : c < M.vcpuCount M.primary then
    let v : VCpuId M := ⟨M.primary, c, h⟩
    let vcpu := p.hyp.vcpu v
    if vcpu.locked then .error .spin
    else .ok (false, { p with hyp := p.hyp.setVCpu v (vcpu.on entry arg) })
  else .error .primaryVCpu

/-- Handles PSCI calls of the primary VM.  The entry point that `PSCI_CPU_SUSPEND` sets
counts only if the firmware does not return. -/
def psciPrimaryVmHandler (answers : List SmcRes) (func : BitVec 32)
    (arg0 arg1 arg2 ret : BitVec 64) (current : VCpuId M) (p : PowerState M) :
    Except Panic ((Bool × BitVec 64) × PowerState M) :=
  if p.el3PsciVersion = 0 then
    .ok ((func &&& smcccServiceCallMask == smcccStandardSecureServiceCall, smcccErrorUnknown), p)
  else
    match ofFunc func with
    | none => .ok ((false, ret), p)
    | some .version => .ok ((true, psciVersion11), p)
    | some .features =>
      match ofArg arg0 with
      | some .cpuSuspend =>
        if p.el3PsciVersion = psciVersion02 then .ok ((true, 0), p)
        else do
          let smcRes ← smc answers
          return ((true, smcRes.res0 &&& 0x3), p)
      | some .version | some .features | some .systemOff | some .systemReset
      | some .affinityInfo | some .cpuOff | some .cpuOn => .ok ((true, 0), p)
      | _ => .ok ((true, psciErrorNotSupported), p)
    | some .systemOff | some .systemReset => do
        let _ ← smc answers
        .error .psci
    | some .affinityInfo =>
      match cpuFind M arg0 with
      | none => .ok ((true, psciErrorInvalidParameters), p)
      | some c =>
        if arg1 ≠ 0 then .ok ((true, psciErrorNotSupported), p)
        else .ok ((true, if p.isOn c then psciReturnOn else psciReturnOff), p)
    | some .cpuSuspend => do
        let vcpu := p.hyp.vcpu current
        let p := { p with
          hyp := p.hyp.setVCpu current { vcpu with regs := vcpu.regs.setPcArg arg1 arg2 } }
        let smcRes ← smc answers
        return ((true, smcRes.res0), p)
    | some .cpuOff =>
      match (p.hyp.vcpu current).cpu with
      | none => .error .undefined
      | some _ => do
          let _ ← smc answers
          .error .psci
    | some .cpuOn =>
      match cpuFind M arg0 with
      | none => .ok ((true, psciErrorInvalidParameters), p)
      | some c => do
          let (prev, p) ← p.cpuOn c arg1 arg2
          if prev then return ((true, psciErrorAlreadyOn), p)
          let ret ← smcCpuOn answers
          return ((true, ret), if ret ≠ psciReturnSuccess then p.cpuOff c else p)
    | some _ => .ok ((true, psciErrorNotSupported), p)

/-- `psci_handler`: whether the call is one of PSCI, its result, and the vCPU to switch
to. -/
def psciHandler (timer : Timer) (answers : List SmcRes) (func : BitVec 32)
    (arg0 arg1 arg2 ret : BitVec 64) (current : VCpuId M) (p : PowerState M) :
    Except Panic (PsciReply M × PowerState M) := do
  if M.vmId current.vm = hfPrimaryVmId then
    let ((handled, ret), p) ← p.psciPrimaryVmHandler answers func arg0 arg1 arg2 ret current
    return (⟨handled, ret, none⟩, p)
  let (reply, hyp) ← p.hyp.psciSecondaryVmHandler timer func arg0 arg1 arg2 ret current
  return (reply, { p with hyp })

/-- A handler that finds the lock of a vCPU held tries again in each of the later states,
and spins forever after the last one. -/
def retry {α : Type} (handler : PowerState M → Except Panic α) :
    List (Hypervisor M) → PowerState M → Except Panic α
  | [], p => handler p
  | hyp :: later, p =>
    match handler p with
    | .error .spin => retry handler later { p with hyp }
    | r => r

def hfDebugLog : BitVec 32 := 0xbd000000

/-- No VM may have its calls forwarded. -/
def smcCheckClientPrivileges : Bool := false

def smcForwarder (answers : List SmcRes) (ret : SmcRes) : Except Panic (Bool × SmcRes) := do
  if smcCheckClientPrivileges then
    let ret ← smc answers
    return (true, ret)
  return (false, ret)

/-- The characters that `HF_DEBUG_LOG` logs are left out. -/
def smcHandler (timer : Timer) (answers : List SmcRes) (later : List (Hypervisor M))
    (current : VCpuId M) (regs : GuestRegs) (ret : SmcRes) (p : PowerState M) :
    Except Panic ((Bool × SmcRes × Option (VCpuId M)) × PowerState M) := do
  let func := (regs.r 0).setWidth 32
  let (reply, p) ← retry (fun p =>
    p.psciHandler timer answers func (regs.r 1) (regs.r 2) (regs.r 3) ret.res0 current) later p
  let ret := { ret with res0 := reply.ret }
  if reply.handled then return ((true, ret, reply.next), p)
  if func &&& ~~~smcccConventionMask = hfDebugLog then return ((true, ret, reply.next), p)
  let (forwarded, ret) ← smcForwarder answers ret
  return ((forwarded, ret, reply.next), p)

/-- The registers that a VM finds after an SMC. -/
def resume (esr : BitVec 64) (regs : GuestRegs) (ret : SmcRes) : GuestRegs where
  r i := match i with
    | 0 => ret.res0
    | 1 => ret.res1
    | 2 => ret.res2
    | 3 => ret.res3
    | i => regs.r i
  pc := regs.pc + getNextPcInc esr

/-- The case of an SMC in `sync_lower_exception`; `ret` is what the local of that name
holds at first. -/
def smcTrap (timer : Timer) (answers : List SmcRes) (later : List (Hypervisor M))
    (esr : BitVec 64) (current : VCpuId M) (regs : GuestRegs) (ret : SmcRes) (p : PowerState M) :
    Except Panic ((Option (VCpuId M) × GuestRegs) × PowerState M) := do
  let ((handled, ret, next), p) ← p.smcHandler timer answers later current regs ret
  let ret := if handled then ret else { ret with res0 := psciErrorNotSupported }
  return ((next, resume esr regs ret), p)

/-! ## What is left of the local -/

variable {timer : Timer} {answers : List SmcRes} {later : List (Hypervisor M)}
  {esr : BitVec 64} {current next : VCpuId M} {regs : GuestRegs} {ret : SmcRes}
  {p : PowerState M}

/-- The result of a call with the reply `reply` of the PSCI handler. -/
def smcResult (func : BitVec 32) (reply : PsciReply M) (ret : SmcRes) : SmcRes :=
  { ret with
    res0 := if reply.handled ∨ func &&& ~~~smcccConventionMask = hfDebugLog then reply.ret
      else psciErrorNotSupported }

/-- No handler sets more than the first word of the result. -/
theorem smcTrap_eq (timer : Timer) (answers : List SmcRes) (later : List (Hypervisor M))
    (esr : BitVec 64) (current : VCpuId M) (regs : GuestRegs) (ret : SmcRes) (p : PowerState M) :
    p.smcTrap timer answers later esr current regs ret = (do
      let func := (regs.r 0).setWidth 32
      let (reply, p) ← retry (fun p =>
        p.psciHandler timer answers func (regs.r 1) (regs.r 2) (regs.r 3) ret.res0 current) later p
      return ((reply.next, resume esr regs (smcResult func reply ret)), p)) := by
  rw [smcTrap, smcHandler]
  dsimp only
  cases retry _ later p with
  | error e => rfl
  | ok r =>
    obtain ⟨⟨handled, res0, next⟩, p⟩ := r
    simp only [bind, Except.bind, pure, Except.pure, smcResult]
    cases handled with
    | true => simp
    | false =>
      by_cases h : (regs.r 0).setWidth 32 &&& ~~~smcccConventionMask = hfDebugLog
      · simp [h]
      · simp [h, smcForwarder, smcCheckClientPrivileges, pure, Except.pure]

/-- The primary VM's call stops the machine or a CPU, waits, or fails. -/
def StopsPrimary (answers : List SmcRes) (func : BitVec 32) (arg0 : BitVec 64)
    (p : PowerState M) : Prop :=
  p.el3PsciVersion ≠ 0 ∧
    match ofFunc func with
    | some .systemOff | some .systemReset | some .cpuOff => True
    | some .cpuSuspend => answers = []
    | some .features =>
      ofArg arg0 = some .cpuSuspend ∧ p.el3PsciVersion ≠ psciVersion02 ∧ answers = []
    | some .cpuOn =>
      ∃ c, cpuFind M arg0 = some c ∧ p.isOn c = false ∧
        ((∀ h : c < M.vcpuCount M.primary, (p.hyp.vcpu ⟨M.primary, c, h⟩).locked = true) ∨
          ∀ a ∈ answers, a.res0 = psciErrorAlreadyOn)
    | _ => False

/-- The secondary VM's call waits for a running vCPU. -/
def StopsSecondary (func : BitVec 32) (arg0 : BitVec 64) (current : VCpuId M)
    (p : PowerState M) : Prop :=
  ofFunc func = some .cpuOn ∧ ∃ h : vcpuIdToIndex arg0 < M.vcpuCount current.vm,
      (p.hyp.vcpu ⟨current.vm, vcpuIdToIndex arg0, h⟩).locked = true

theorem smc_returns {answers : List SmcRes} : (∃ r, smc answers = .ok r) ↔ answers ≠ [] := by
  cases answers with
  | nil => simp [smc]
  | cons a answers => simp [smc]

theorem cpuOn_on {c : Nat} {entry arg : BitVec 64} (hon : p.isOn c = true) :
    p.cpuOn c entry arg = .ok (true, { p with isOn := Function.update p.isOn c true }) := by
  rw [cpuOn]
  dsimp only
  rw [if_pos hon]

/-- A CPU that is off is turned on if its vCPU of the primary VM can be locked. -/
theorem cpuOn_off {c : Nat} {entry arg : BitVec 64} (hoff : p.isOn c = false)
    {r : Bool × PowerState M} :
    p.cpuOn c entry arg = .ok r → r.1 = false ∧ ∃ h : c < M.vcpuCount M.primary,
      (p.hyp.vcpu ⟨M.primary, c, h⟩).locked = false := by
  rw [cpuOn]
  dsimp only
  rw [if_neg (by simp [hoff])]
  split
  · next h =>
      split
      · nofun
      · next hlocked =>
          intro hr
          cases hr
          exact ⟨rfl, h, Bool.eq_false_of_not_eq_true hlocked⟩
  · nofun

theorem cpuOn_of_unlocked {c : Nat} (entry arg : BitVec 64) (hoff : p.isOn c = false)
    (h : c < M.vcpuCount M.primary) (hlocked : (p.hyp.vcpu ⟨M.primary, c, h⟩).locked = false) :
    ∃ p', p.cpuOn c entry arg = .ok (false, p') := by
  rw [cpuOn]
  dsimp only
  rw [if_neg (by simp [hoff]), dif_pos h, if_neg (by simp [hlocked])]
  exact ⟨_, rfl⟩

/-- When `PSCI_CPU_ON` of the primary VM returns for a CPU that exists. -/
theorem psciCpuOn_returns {c : Nat} {entry arg : BitVec 64} :
    (∃ r : (Bool × BitVec 64) × PowerState M, (do
        let (prev, p) ← p.cpuOn c entry arg
        if prev then return ((true, psciErrorAlreadyOn), p)
        let ret ← smcCpuOn answers
        return ((true, ret), if ret ≠ psciReturnSuccess then p.cpuOff c else p)) = Except.ok r) ↔
      ¬ (p.isOn c = false ∧
        ((∀ h : c < M.vcpuCount M.primary, (p.hyp.vcpu ⟨M.primary, c, h⟩).locked = true) ∨
          ∀ a ∈ answers, a.res0 = psciErrorAlreadyOn)) := by
  cases hon : p.isOn c with
  | true =>
    rw [cpuOn_on hon]
    simp [bind, Except.bind, pure, Except.pure]
  | false =>
    rw [exists_bind_eq_ok]
    simp only [true_and, not_or, not_forall]
    constructor
    · rintro ⟨⟨prev, p'⟩, hcpuOn, r, hr⟩
      obtain ⟨rfl, h, hlocked⟩ := cpuOn_off hon hcpuOn
      obtain ⟨ret, hret, -⟩ := bind_eq_ok.mp hr
      obtain ⟨a, ha, hne⟩ := smcCpuOn_returns.mp ⟨ret, hret⟩
      exact ⟨⟨h, by simp [hlocked]⟩, a, ha, hne⟩
    · rintro ⟨⟨h, hlocked⟩, a, ha, hne⟩
      obtain ⟨p', hp'⟩ := cpuOn_of_unlocked entry arg hon h (Bool.eq_false_of_not_eq_true hlocked)
      obtain ⟨ret, hret⟩ := smcCpuOn_returns.mpr ⟨a, ha, hne⟩
      refine ⟨_, hp', exists_bind_eq_ok.mpr ⟨ret, hret, _, rfl⟩⟩

theorem psciPrimaryVmHandler_returns {func : BitVec 32} {arg0 arg1 arg2 ret : BitVec 64} :
    (∃ r, p.psciPrimaryVmHandler answers func arg0 arg1 arg2 ret current = .ok r) ↔
      ¬ p.StopsPrimary answers func arg0 := by
  have hsmc : ∀ (f : SmcRes → (Bool × BitVec 64) × PowerState M),
      (∃ r, (smc answers >>= fun a => Except.ok (f a)) = Except.ok r) ↔ ¬ answers = [] := by
    intro f
    rw [exists_bind_eq_ok, ← ne_eq, ← smc_returns]
    simp
  have herror : ∀ e : Panic, ¬ ∃ r : (Bool × BitVec 64) × PowerState M,
      (smc answers >>= fun _ => Except.error e) = Except.ok r := by
    rintro e ⟨r, hr⟩
    obtain ⟨_, -, h⟩ := bind_eq_ok.mp hr
    contradiction
  rw [psciPrimaryVmHandler, StopsPrimary]
  by_cases hversion : p.el3PsciVersion = 0
  · simp [hversion]
  rw [if_neg hversion]
  simp only [ne_eq, hversion, not_false_eq_true, true_and]
  cases ofFunc func with
  | none => simp
  | some f =>
    cases f with
    | features =>
      dsimp only
      cases ofArg arg0 with
      | none => simp
      | some g =>
        cases g with
        | cpuSuspend =>
          dsimp only
          by_cases h02 : p.el3PsciVersion = psciVersion02
          · simp [h02]
          · rw [if_neg h02]
            refine (hsmc _).trans ?_
            simp [h02]
        | _ => simp
    | systemOff => simpa using herror .psci
    | systemReset => simpa using herror .psci
    | cpuSuspend => exact hsmc _
    | cpuOff =>
      dsimp only
      cases (p.hyp.vcpu current).cpu with
      | none => simp
      | some c => simpa using herror .psci
    | affinityInfo =>
      dsimp only
      cases cpuFind M arg0 with
      | none => simp
      | some c =>
        dsimp only
        split <;> simp
    | cpuOn =>
      dsimp only
      cases cpuFind M arg0 with
      | none => simp
      | some c =>
        simp only [Option.some.injEq, exists_eq_left']
        exact psciCpuOn_returns
    | _ => simp

theorem psciSecondaryVmHandler_returns {func : BitVec 32} {arg0 arg1 arg2 ret : BitVec 64}
    (hcurrent : current.vm ≠ M.primary) (hnext : p.hyp.primaryVCpu current = .ok next) :
    (∃ r, p.hyp.psciSecondaryVmHandler timer func arg0 arg1 arg2 ret current = .ok r) ↔
      ¬ p.StopsSecondary func arg0 current := by
  rw [StopsSecondary]
  cases hfunc : ofFunc func with
  | none => simp [psciSecondaryVmHandler, hfunc]
  | some f =>
    cases f with
    | features =>
      simp only [psciSecondaryVmHandler, hfunc]
      cases ofArg arg0 with
      | none => simp
      | some g => cases g <;> simp
    | affinityInfo =>
      simp only [psciSecondaryVmHandler, hfunc]
      split
      · simp
      · split <;> simp
    | cpuSuspend =>
      simp only [psciSecondaryVmHandler, hfunc, waitForInterrupt, switchToPrimary_of_ok hnext]
      exact iff_of_true ⟨_, rfl⟩ (by simp)
    | cpuOff =>
      simp only [psciSecondaryVmHandler, hfunc, vcpuOff, switchToPrimary_of_ok hnext]
      exact iff_of_true ⟨_, rfl⟩ (by simp)
    | cpuOn =>
      by_cases h : vcpuIdToIndex arg0 < M.vcpuCount current.vm
      · obtain ⟨hspin, hoff, hon⟩ :=
          psciCpuOn_valid timer arg1 arg2 ret hfunc hcurrent hnext rfl h
        cases hlocked : (p.hyp.vcpu ⟨current.vm, vcpuIdToIndex arg0, h⟩).locked with
        | true => simp [hspin hlocked, h, hlocked]
        | false =>
          simp only [true_and, h, exists_true_left, hlocked, Bool.false_eq_true,
            not_false_eq_true, iff_true]
          by_cases hstate : (p.hyp.vcpu ⟨current.vm, vcpuIdToIndex arg0, h⟩).state = .off
          · obtain ⟨s', hs', -⟩ := hoff hlocked hstate
            exact ⟨_, hs'⟩
          · exact ⟨_, hon hlocked hstate⟩
      · rw [psciCpuOn_invalid hfunc (Nat.le_of_not_lt h)]
        simp [h]
    | _ => simp [psciSecondaryVmHandler, hfunc]

/-- The call does not get past the handlers in this state. -/
def StopsNow (answers : List SmcRes) (current : VCpuId M) (regs : GuestRegs)
    (p : PowerState M) : Prop :=
  let func := (regs.r 0).setWidth 32
  if current.vm = M.primary then p.StopsPrimary answers func (regs.r 1)
  else p.StopsSecondary func (regs.r 1) current

/-- The call does not return to the VM: it stops at once and, if it waits for a lock,
each time it looks again. -/
def Stops (answers : List SmcRes) (later : List (Hypervisor M)) (current : VCpuId M)
    (regs : GuestRegs) (p : PowerState M) : Prop :=
  ∀ hyp ∈ p.hyp :: later, { p with hyp }.StopsNow answers current regs

theorem psciHandler_returns {arg1 arg2 ret : BitVec 64}
    (hnext : p.hyp.primaryVCpu current = .ok next) :
    (∃ r, p.psciHandler timer answers ((regs.r 0).setWidth 32) (regs.r 1) arg1 arg2 ret
      current = .ok r) ↔ ¬ p.StopsNow answers current regs := by
  rw [psciHandler, StopsNow]
  dsimp only
  by_cases hcurrent : current.vm = M.primary
  · rw [if_pos (vmId_eq_primary.mpr hcurrent), if_pos hcurrent,
      ← psciPrimaryVmHandler_returns, exists_bind_eq_ok]
    exact exists_congr fun r => and_iff_left ⟨_, rfl⟩
  · rw [if_neg (mt vmId_eq_primary.mp hcurrent), if_neg hcurrent,
      ← psciSecondaryVmHandler_returns hcurrent hnext]
    refine exists_bind_eq_ok.trans ?_
    exact exists_congr fun r => and_iff_left ⟨_, rfl⟩

/-- The VMs decide whether a call of the primary VM returns only by a lock. -/
theorem psciPrimaryVmHandler_waits {func : BitVec 32} {arg0 arg1 arg2 ret : BitVec 64}
    (hstops : p.StopsPrimary answers func arg0) {hyp : Hypervisor M}
    (hreturns : ¬ { p with hyp }.StopsPrimary answers func arg0) :
    p.psciPrimaryVmHandler answers func arg0 arg1 arg2 ret current = .error .spin := by
  rw [StopsPrimary] at hstops hreturns
  obtain ⟨hversion, hstops⟩ := hstops
  have hreturns := not_and.mp hreturns hversion
  rw [psciPrimaryVmHandler, if_neg hversion]
  cases hfunc : ofFunc func with
  | none => simp [hfunc] at hstops
  | some f =>
    simp only [hfunc] at hstops hreturns ⊢
    cases f with
    | cpuOn =>
      obtain ⟨c, hfind, hoff, hwaits⟩ := hstops
      simp only [hfind, Option.some.injEq, exists_eq_left', hoff, true_and, not_or,
        not_forall] at hreturns ⊢
      obtain ⟨⟨h, -⟩, a, ha, hne⟩ := hreturns
      have hlocked := (hwaits.resolve_right fun hall => hne (hall a ha)) h
      rw [cpuOn]
      simp [hoff, h, hlocked, bind, Except.bind]
    | _ => exact absurd hstops hreturns

theorem psciHandler_waits {arg1 arg2 ret : BitVec 64}
    (hnext : p.hyp.primaryVCpu current = .ok next) (hstops : p.StopsNow answers current regs)
    {hyp : Hypervisor M} (hreturns : ¬ { p with hyp }.StopsNow answers current regs) :
    p.psciHandler timer answers ((regs.r 0).setWidth 32) (regs.r 1) arg1 arg2 ret current =
      .error .spin := by
  rw [StopsNow] at hstops hreturns
  rw [psciHandler]
  by_cases hcurrent : current.vm = M.primary
  · rw [if_pos hcurrent] at hstops hreturns
    rw [if_pos (vmId_eq_primary.mpr hcurrent), psciPrimaryVmHandler_waits hstops hreturns]
    rfl
  · rw [if_neg hcurrent] at hstops
    obtain ⟨hfunc, h, hlocked⟩ := hstops
    rw [if_neg (mt vmId_eq_primary.mp hcurrent),
      (psciCpuOn_valid timer arg1 arg2 ret hfunc hcurrent hnext rfl h).1 hlocked]
    rfl

/-- A handler that only waits for locks returns if it does so in one of the states. -/
theorem retry_returns {α : Type} {handler : PowerState M → Except Panic α}
    (stops : PowerState M → Prop)
    (hreturns : ∀ hyp ∈ p.hyp :: later,
      (∃ r, handler { p with hyp } = .ok r) ↔ ¬ stops { p with hyp })
    (hwaits : ∀ hyp ∈ p.hyp :: later, ∀ hyp', stops { p with hyp } →
      ¬ stops { p with hyp := hyp' } → handler { p with hyp } = .error .spin) :
    (∃ r, retry handler later p = .ok r) ↔ ¬ ∀ hyp ∈ p.hyp :: later, stops { p with hyp } := by
  induction later generalizing p with
  | nil => simpa [retry] using hreturns p.hyp
  | cons hyp later ih =>
    have hnow := hreturns p.hyp mem_cons_self
    have hlater := @ih { p with hyp } (fun hyp' h => hreturns hyp' (mem_cons_of_mem _ h))
      fun hyp' h => hwaits hyp' (mem_cons_of_mem _ h)
    rw [retry]
    by_cases hstops : stops p
    · cases hhandler : handler p with
      | ok r => exact absurd hstops (hnow.mp ⟨r, hhandler⟩)
      | error e =>
        by_cases hspin : e = .spin
        · subst hspin
          refine hlater.trans (not_congr ⟨fun h hyp' hmem => ?_, fun h hyp' hmem =>
            h hyp' (mem_cons_of_mem _ hmem)⟩)
          rcases mem_cons.mp hmem with rfl | hmem
          · exact hstops
          · exact h hyp' hmem
        · -- an error that is no waiting is one in all the states
          have hall : ∀ hyp' ∈ p.hyp :: hyp :: later, stops { p with hyp := hyp' } := by
            intro hyp' _
            by_contra hreturns'
            have h := hwaits p.hyp mem_cons_self hyp' hstops hreturns'
            exact hspin (Except.error.inj (hhandler.symm.trans h))
          refine iff_of_false ?_ (not_not.mpr hall)
          cases e <;> first | exact absurd rfl hspin | simp
    · obtain ⟨r, hr⟩ := hnow.mpr hstops
      have hr : handler p = .ok r := hr
      rw [hr]
      exact iff_of_true ⟨r, rfl⟩ fun h => hstops (h p.hyp mem_cons_self)

theorem psciHandler_retry_returns {arg1 arg2 ret : BitVec 64}
    (hnext : ∀ hyp ∈ p.hyp :: later, hyp.primaryVCpu current = .ok next) :
    (∃ r, retry (fun p => p.psciHandler timer answers ((regs.r 0).setWidth 32) (regs.r 1) arg1
      arg2 ret current) later p = .ok r) ↔ ¬ p.Stops answers later current regs :=
  retry_returns (StopsNow answers current regs)
    (fun hyp h => psciHandler_returns (p := { p with hyp }) (hnext hyp h))
    fun hyp h _ hstops hreturns => psciHandler_waits (p := { p with hyp }) (hnext hyp h) hstops
      hreturns

/-- The trap returns independently of what the local held, and hands the last three
words of it to the VM. -/
theorem smcTrap_returns (ret : SmcRes)
    (hnext : ∀ hyp ∈ p.hyp :: later, hyp.primaryVCpu current = .ok next)
    (hreturns : ¬ p.Stops answers later current regs) :
    ∃ r, p.smcTrap timer answers later esr current regs ret = .ok r ∧
      r.1.2.r 1 = ret.res1 ∧ r.1.2.r 2 = ret.res2 ∧ r.1.2.r 3 = ret.res3 := by
  obtain ⟨⟨reply, p'⟩, hpsci⟩ := (psciHandler_retry_returns hnext).mpr hreturns
  rw [smcTrap_eq]
  dsimp only
  rw [hpsci]
  exact ⟨_, rfl, rfl, rfl, rfl⟩

/-- Two runs of a trap that differ only in what the local `ret` held at first leave the
same results in the registers of the VM. -/
def SameResults (timer : Timer) (answers : List SmcRes) (later : List (Hypervisor M))
    (esr : BitVec 64) (current : VCpuId M) (regs : GuestRegs) (p : PowerState M) : Prop :=
  ∀ ret ret' r r', p.smcTrap timer answers later esr current regs ret = .ok r →
    p.smcTrap timer answers later esr current regs ret' = .ok r' →
    ∀ i : Fin 31, i < 4 → r.1.2.r i = r'.1.2.r i

/-- Every SMC that returns to a VM, if only after it has waited for a lock, hands it words
of the hypervisor's stack. -/
theorem sameResults_iff (timer : Timer) (answers : List SmcRes) (esr : BitVec 64)
    (regs : GuestRegs) (hnext : ∀ hyp ∈ p.hyp :: later, hyp.primaryVCpu current = .ok next) :
    p.SameResults timer answers later esr current regs ↔
      p.Stops answers later current regs := by
  constructor
  · intro hsame
    by_contra hreturns
    obtain ⟨r, hr, h1, -⟩ := smcTrap_returns ⟨0, 0, 0, 0⟩ hnext hreturns
    obtain ⟨r', hr', h1', -⟩ := smcTrap_returns ⟨0, 1, 0, 0⟩ hnext hreturns
    have h := hsame _ _ r r' hr hr' 1 (by decide)
    rw [h1, h1'] at h
    exact absurd h (by decide)
  · intro hstops ret ret' r r' hr
    rw [smcTrap_eq] at hr
    obtain ⟨x, hx, -⟩ := bind_eq_ok.mp hr
    exact absurd hstops ((psciHandler_retry_returns hnext).mp ⟨x, hx⟩)

/-- All physical CPUs are off, and the firmware has PSCI 1.1. -/
def examplePower : PowerState exampleMachine := ⟨exampleState fun _ => 0, fun _ => false, 0x10001⟩

/-- An SMC with the given function and no arguments. -/
def callRegs (func : BitVec 64) : GuestRegs := ⟨fun i => if i = 0 then func else 0, 0⟩

/-- The vCPU of the first secondary VM runs, so that its lock is held. -/
def runningPower : PowerState exampleMachine :=
  { examplePower with
    hyp := examplePower.hyp.setVCpu (exampleVCpu 1)
      { examplePower.hyp.vcpu (exampleVCpu 1) with locked := true } }

/-- A vCPU that turns itself on waits for its own lock, which stays held; once another
vCPU has given its lock back, the call returns. -/
theorem sameResults_cpuOn :
    runningPower.SameResults exampleEnv.timer [] [runningPower.hyp] 0x5e000000 (exampleVCpu 1)
      (callRegs 0x84000003) ∧
    ¬runningPower.SameResults exampleEnv.timer [] [examplePower.hyp] 0x5e000000 (exampleVCpu 1)
      (callRegs 0x84000003) := by
  have hnext : ∀ hyp ∈ [runningPower.hyp, runningPower.hyp, examplePower.hyp],
      hyp.primaryVCpu (exampleVCpu 1) = .ok (exampleVCpu 0) := by
    simp only [forall_mem_cons]
    exact ⟨rfl, rfl, rfl, forall_mem_nil _⟩
  constructor
  · refine (sameResults_iff _ _ _ _ fun hyp h => hnext hyp (by aesop)).mpr ?_
    have hstops : runningPower.StopsNow [] (exampleVCpu 1) (callRegs 0x84000003) :=
      ⟨rfl, Nat.one_pos, rfl⟩
    simp only [Stops, forall_mem_cons]
    exact ⟨hstops, hstops, forall_mem_nil _⟩
  · intro hsame
    have h := (sameResults_iff _ _ _ _ fun hyp h => hnext hyp (by aesop)).mp hsame
    obtain ⟨-, _, hlocked⟩ := h examplePower.hyp (mem_cons_of_mem _ mem_cons_self)
    exact absurd hlocked Bool.false_ne_true

/-- The version call of a secondary VM: the words 1 to 3 are those on the stack. -/
theorem version_leaks :
    ((examplePower.smcTrap exampleEnv.timer [] [] 0x5e000000 (exampleVCpu 1) (callRegs 0x84000000)
        ⟨0, 0, 0, 0⟩).map fun r => [r.1.2.r 0, r.1.2.r 1, r.1.2.r 2, r.1.2.r 3]) =
      .ok [0x10001, 0, 0, 0] ∧
    ((examplePower.smcTrap exampleEnv.timer [] [] 0x5e000000 (exampleVCpu 1) (callRegs 0x84000000)
        ⟨5, 6, 7, 8⟩).map fun r => [r.1.2.r 0, r.1.2.r 1, r.1.2.r 2, r.1.2.r 3]) =
      .ok [0x10001, 6, 7, 8] :=
  ⟨rfl, rfl⟩

end PowerState
end Hafnium
