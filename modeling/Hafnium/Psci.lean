import Hafnium.Calls

/-!
# PSCI calls

The handlers of `psci_handler.c`.  The primary VM controls the physical CPUs, through
the firmware; a secondary VM controls its own vCPUs, through the scheduler in the
primary VM.  A handler is given the location of the result, with what is there
before, and says whether the call is one of PSCI.
-/

namespace Hafnium

open Support VCpu

/-- `smc_res_t`: what a call of the firmware returns, or a VM gets. -/
structure SmcRes where
  res0 : BitVec 64
  res1 : BitVec 64
  res2 : BitVec 64
  res3 : BitVec 64
  deriving DecidableEq, Repr

def smcccConventionMask : BitVec 32 := 0x40000000
def smcccServiceCallMask : BitVec 32 := 0x3f000000
def smcccStandardSecureServiceCall : BitVec 32 := 0x04000000
def smcccErrorUnknown : BitVec 64 := -1

def psciVersion02 : BitVec 32 := 0x00000002
def psciVersion11 : BitVec 64 := 0x00010001

def psciReturnOff : BitVec 64 := 1
def psciReturnOn : BitVec 64 := 0
def psciReturnSuccess : BitVec 64 := 0
def psciErrorNotSupported : BitVec 64 := smcccErrorUnknown
def psciErrorInvalidParameters : BitVec 64 := -2
def psciErrorDenied : BitVec 64 := -3
def psciErrorAlreadyOn : BitVec 64 := -4

/-- The functions of PSCI 1.1. -/
inductive PsciFunction
  | version
  | cpuSuspend
  | cpuOff
  | cpuOn
  | affinityInfo
  | migrate
  | migrateInfoType
  | migrateInfoUpCpu
  | systemOff
  | systemReset
  | features
  | cpuFreeze
  | cpuDefaultSuspend
  | nodeHwState
  | systemSuspend
  | setSyspendMode
  | statResidency
  | statCount
  | systemReset2
  | memProtect
  | memProtectCheckRange
  deriving DecidableEq, Repr

/-- The function with an id, if there is one. -/
def PsciFunction.ofId : Nat → Option PsciFunction
  | 0x84000000 => some version
  | 0x84000001 => some cpuSuspend
  | 0x84000002 => some cpuOff
  | 0x84000003 => some cpuOn
  | 0x84000004 => some affinityInfo
  | 0x84000005 => some migrate
  | 0x84000006 => some migrateInfoType
  | 0x84000007 => some migrateInfoUpCpu
  | 0x84000008 => some systemOff
  | 0x84000009 => some systemReset
  | 0x8400000a => some features
  | 0x8400000b => some cpuFreeze
  | 0x8400000c => some cpuDefaultSuspend
  | 0x8400000d => some nodeHwState
  | 0x8400000e => some systemSuspend
  | 0x8400000f => some setSyspendMode
  | 0x84000010 => some statResidency
  | 0x84000011 => some statCount
  | 0x84000012 => some systemReset2
  | 0x84000013 => some memProtect
  | 0x84000014 => some memProtectCheckRange
  | _ => none

/-- The function that a call names, in either calling convention. -/
def PsciFunction.ofFunc (func : BitVec 32) : Option PsciFunction :=
  ofId (func &&& ~~~smcccConventionMask).toNat

/-- The function that an argument names; its upper half counts. -/
def PsciFunction.ofArg (arg : BitVec 64) : Option PsciFunction :=
  ofId (arg &&& ~~~(smcccConventionMask.setWidth 64)).toNat

/-- What a handler leaves: whether it knows the call, the result, and the vCPU to
switch to. -/
structure PsciReply (M : Machine) where
  handled : Bool
  ret : BitVec 64
  next : Option (VCpuId M)
  deriving DecidableEq

namespace PsciReply

variable {M : Machine}

/-- A handled call. -/
def done (ret : BitVec 64) (next : Option (VCpuId M)) : PsciReply M := ⟨true, ret, next⟩

theorem ret_inj {ret ret' : BitVec 64} {next next' : Option (VCpuId M)} {s s' : Hypervisor M}
    (h : Except.ok (ε := Panic) (done ret next, s) = .ok (done ret' next', s')) : ret = ret' :=
  congrArg (fun x => x.1.ret) (Except.ok.inj h)

end PsciReply

/-! ## Secondary VMs -/

/-- The index of a vCPU with an id: 16 bits of it. -/
def vcpuIdToIndex (vcpuId : BitVec 64) : Nat := (vcpuId.setWidth 16).toNat

namespace Hypervisor

variable {M : Machine}

def psciSecondaryVmHandler (timer : Timer) (func : BitVec 32) (arg0 arg1 arg2 ret : BitVec 64)
    (current : VCpuId M) (s : Hypervisor M) : Except Panic (PsciReply M × Hypervisor M) :=
  match PsciFunction.ofFunc func with
  | none => .ok (⟨false, ret, none⟩, s)
  | some .version => .ok (.done psciVersion11 none, s)
  | some .features =>
    match PsciFunction.ofArg arg0 with
    | some .cpuSuspend => .ok (.done 0x2 none, s)
    | some .version | some .features | some .affinityInfo | some .cpuOff | some .cpuOn =>
      .ok (.done 0 none, s)
    | _ => .ok (.done psciErrorNotSupported none, s)
  | some .affinityInfo =>
    let targetVCpuIndex := vcpuIdToIndex arg0
    if arg1.setWidth 32 ≠ 0 then .ok (.done psciErrorInvalidParameters none, s)
    else if h : targetVCpuIndex < M.vcpuCount current.vm then
      let (off, s) := s.affinityInfo ⟨current.vm, targetVCpuIndex, h⟩
      .ok (.done (if off then psciReturnOff else psciReturnOn) none, s)
    else .ok (.done psciErrorInvalidParameters none, s)
  | some .cpuSuspend => do
      let (next, s) ← s.waitForInterrupt timer current
      return (.done psciReturnSuccess (some next), s)
  | some .cpuOff => do
      let (next, s) ← s.vcpuOff timer current
      return (.done psciErrorDenied (some next), s)
  | some .cpuOn =>
    let targetVCpuIndex := vcpuIdToIndex arg0
    if h : targetVCpuIndex < M.vcpuCount current.vm then do
      let target : VCpuId M := ⟨current.vm, targetVCpuIndex, h⟩
      let (wasOff, s) ← s.vcpuSecondaryResetAndStart target arg1 arg2
      if wasOff then
        let (next, s) ← s.wakeUp timer current target
        return (.done psciReturnSuccess (some next), s)
      return (.done psciErrorAlreadyOn none, s)
    else .ok (.done psciErrorInvalidParameters none, s)
  | some _ => .ok (.done psciErrorNotSupported none, s)

/-! ## The vCPU that a call addresses -/

variable {timer : Timer} {current target p : VCpuId M} {entry arg : BitVec 64}
  {s : Hypervisor M}

/-- The lock is given back, so only the answer is left. -/
theorem affinityInfo_eq (target : VCpuId M) (s : Hypervisor M) :
    s.affinityInfo target = (!(s.vcpu target).locked && (s.vcpu target).isOff, s) := by
  rw [affinityInfo, vcpuTryLock]
  cases hlocked : (s.vcpu target).locked with
  | true => simp
  | false =>
    have hvcpu : { s.vcpu target with locked := false } = s.vcpu target := by
      rw [← hlocked]
    simp [vcpuUnlock, setVCpu, isOff, hvcpu]

/-- The state after `target` was started, before the scheduler is told. -/
def started (target : VCpuId M) (entry arg : BitVec 64) (s : Hypervisor M) : Hypervisor M :=
  let regs := s.resetRegs false target target.index
  s.setVCpu target ({ s.vcpu target with regs }.on entry arg)

theorem vcpuSecondaryResetAndStart_eq (htarget : target.vm ≠ M.primary) :
    s.vcpuSecondaryResetAndStart target entry arg =
      if (s.vcpu target).locked then .error .spin
      else if (s.vcpu target).isOff then .ok (true, s.started target entry arg)
      else .ok (false, s) := by
  rw [vcpuSecondaryResetAndStart, if_neg (mt Machine.vmId_eq_primary.mp htarget)]
  dsimp only
  by_cases hlocked : (s.vcpu target).locked = true
  · rw [if_pos hlocked, if_pos hlocked]
    rfl
  · rw [if_neg hlocked, if_neg hlocked]
    rfl

theorem primaryVCpu_started : (s.started target entry arg).primaryVCpu current =
    s.primaryVCpu current := by
  have hcpu : ((s.started target entry arg).vcpu current).cpu = (s.vcpu current).cpu := by
    rw [started, setVCpu_vcpu, Function.update_apply]
    split
    · next h => rw [h, on]
    · rfl
  rw [primaryVCpu, primaryVCpu, hcpu]

/-- `target` was started for `current`, whose physical CPU goes on with `next`, the
scheduler's vCPU. -/
structure Started (timer : Timer) (current target next : VCpuId M) (entry arg : BitVec 64)
    (s s' : Hypervisor M) : Prop where
  ready : (s'.vcpu target).state = .ready
  regs : (s'.vcpu target).regs =
    (s.resetRegs false target target.index).setPcArg entry arg
  /-- Apart from `target`, only the switch to the scheduler shows. -/
  woken : (s.started target entry arg).wakeUp timer current target = .ok (next, s')

theorem exists_started (timer : Timer) (target : VCpuId M) (entry arg : BitVec 64)
    (htarget : target.vm ≠ M.primary)
    (hp : s.primaryVCpu current = .ok p) :
    ∃ s', s.Started timer current target p entry arg s' := by
  have hprimary : p.vm = M.primary := (s.primaryVCpu_post current).of_ok hp
  have hne : target ≠ p := by
    rintro rfl
    exact htarget hprimary
  rw [← primaryVCpu_started] at hp
  refine ⟨_, ?_, ?_, switchToPrimary_of_ok hp⟩
  · by_cases hcurrent : target = current
    · simp [switched, hcurrent]
    · simp [switched, hcurrent, hne, started, on]
  · by_cases hcurrent : target = current
    · subst hcurrent
      simp [switched, hne, started, on]
    · simp [switched, hcurrent, hne, started, on]

section Addressing

variable {timer : Timer} {func : BitVec 32} {id entry arg ret : BitVec 64}

/-- `PSCI_CPU_ON` with a target id does what it should for the vCPU with that id. -/
structure CpuOnExact (timer : Timer) (func : BitVec 32) (id entry arg ret : BitVec 64)
    (current next : VCpuId M) (s : Hypervisor M) : Prop where
  invalid : s.psciSecondaryVmHandler timer func id entry arg ret current =
      .ok (.done psciErrorInvalidParameters none, s) ↔ M.vcpuCount current.vm ≤ id.toNat
  off : ∀ h : id.toNat < M.vcpuCount current.vm, (s.vcpu ⟨current.vm, id.toNat, h⟩).state = .off →
      ∃ s', s.psciSecondaryVmHandler timer func id entry arg ret current =
          .ok (.done psciReturnSuccess (some next), s') ∧
        s.Started timer current ⟨current.vm, id.toNat, h⟩ next entry arg s'
  on : ∀ h : id.toNat < M.vcpuCount current.vm, (s.vcpu ⟨current.vm, id.toNat, h⟩).state ≠ .off →
      s.psciSecondaryVmHandler timer func id entry arg ret current =
        .ok (.done psciErrorAlreadyOn none, s)

/-- `PSCI_AFFINITY_INFO` with a target id answers for the vCPU with that id. -/
structure AffinityInfoExact (timer : Timer) (func : BitVec 32) (id level arg ret : BitVec 64)
    (current : VCpuId M) (s : Hypervisor M) : Prop where
  invalid : s.psciSecondaryVmHandler timer func id level arg ret current =
      .ok (.done psciErrorInvalidParameters none, s) ↔ M.vcpuCount current.vm ≤ id.toNat
  valid : ∀ h : id.toNat < M.vcpuCount current.vm,
    let target := s.vcpu ⟨current.vm, id.toNat, h⟩
    s.psciSecondaryVmHandler timer func id level arg ret current =
      .ok (.done (if target.state = .off ∧ target.locked = false then psciReturnOff
        else psciReturnOn) none, s)

/-- An id that the handler does not mistake for a smaller one. -/
def Distinguished (id : BitVec 64) (vcpuCount : Nat) : Prop :=
  id.toNat < 2 ^ 16 ∨ vcpuCount ≤ id.toNat % 2 ^ 16

theorem vcpuIdToIndex_eq (id : BitVec 64) : vcpuIdToIndex id = id.toNat % 2 ^ 16 := by
  rw [vcpuIdToIndex, BitVec.toNat_setWidth]

theorem vcpuIdToIndex_of_lt (h : id.toNat < 2 ^ 16) : vcpuIdToIndex id = id.toNat := by
  rw [vcpuIdToIndex_eq, Nat.mod_eq_of_lt h]

/-- The handler finds a vCPU exactly if it should, for a distinguished id. -/
theorem distinguished_iff {n : Nat} (hn : n ≤ 2 ^ 16) :
    Distinguished id n ↔ (vcpuIdToIndex id < n → id.toNat < n) := by
  rw [Distinguished, vcpuIdToIndex_eq]
  constructor
  · intro h hlt
    obtain h | h := h
    · rwa [Nat.mod_eq_of_lt h] at hlt
    · exact absurd hlt (Nat.not_lt.mpr h)
  · intro h
    by_cases hlt : id.toNat % 2 ^ 16 < n
    · exact Or.inl (Nat.lt_of_lt_of_le (h hlt) hn)
    · exact Or.inr (Nat.le_of_not_lt hlt)

theorem psciCpuOn_invalid (hfunc : PsciFunction.ofFunc func = some .cpuOn)
    (h : M.vcpuCount current.vm ≤ vcpuIdToIndex id) :
    s.psciSecondaryVmHandler timer func id entry arg ret current =
      .ok (.done psciErrorInvalidParameters none, s) := by
  simp only [psciSecondaryVmHandler, hfunc]
  rw [dif_neg (Nat.not_lt.mpr h)]

variable (timer entry arg ret) in
/-- What `PSCI_CPU_ON` does for an index that the VM has. -/
theorem psciCpuOn_valid (hfunc : PsciFunction.ofFunc func = some .cpuOn)
    (hcurrent : current.vm ≠ M.primary) (hp : s.primaryVCpu current = .ok p) {i : Nat}
    (hi : vcpuIdToIndex id = i) (h : i < M.vcpuCount current.vm) :
    let target : VCpuId M := ⟨current.vm, i, h⟩
    let r := s.psciSecondaryVmHandler timer func id entry arg ret current
    ((s.vcpu target).locked = true → r = .error .spin) ∧
    ((s.vcpu target).locked = false → (s.vcpu target).state = .off →
      ∃ s', r = .ok (.done psciReturnSuccess (some p), s') ∧
        s.Started timer current target p entry arg s') ∧
    ((s.vcpu target).locked = false → (s.vcpu target).state ≠ .off →
      r = .ok (.done psciErrorAlreadyOn none, s)) := by
  subst hi
  intro target r
  have hr : r = s.vcpuSecondaryResetAndStart target entry arg >>= fun x =>
      if x.1 then x.2.wakeUp timer current target >>= fun y =>
        pure (.done psciReturnSuccess (some y.1), y.2)
      else pure (.done psciErrorAlreadyOn none, x.2) := by
    simp only [r, psciSecondaryVmHandler, hfunc]
    rw [dif_pos h]
  rw [hr, vcpuSecondaryResetAndStart_eq (show target.vm ≠ M.primary from hcurrent)]
  refine ⟨fun hlocked => ?_, fun hlocked hoff => ?_, fun hlocked hon => ?_⟩
  · rw [if_pos hlocked]
    rfl
  · obtain ⟨s', hs'⟩ := exists_started timer target entry arg hcurrent hp
    refine ⟨s', ?_, hs'⟩
    rw [hlocked, if_neg Bool.false_ne_true, isOff, hoff, if_pos (beq_self_eq_true _)]
    change (s.started target entry arg).wakeUp timer current target >>= _ = _
    rw [hs'.woken]
    rfl
  · rw [hlocked, if_neg Bool.false_ne_true, isOff, if_neg (by simpa using hon)]
    rfl

variable (timer entry arg ret) in
/-- An index that the VM has is not invalid. -/
theorem psciCpuOn_ne_invalid (hfunc : PsciFunction.ofFunc func = some .cpuOn)
    (hcurrent : current.vm ≠ M.primary) (hp : s.primaryVCpu current = .ok p)
    (h : vcpuIdToIndex id < M.vcpuCount current.vm) :
    s.psciSecondaryVmHandler timer func id entry arg ret current ≠
      .ok (.done psciErrorInvalidParameters none, s) := by
  obtain ⟨hspin, hoff, hon⟩ := psciCpuOn_valid timer entry arg ret hfunc hcurrent hp rfl h
  intro heq
  cases hlocked : (s.vcpu ⟨current.vm, vcpuIdToIndex id, h⟩).locked with
  | true => exact nomatch heq.symm.trans (hspin hlocked)
  | false =>
    by_cases hstate : (s.vcpu ⟨current.vm, vcpuIdToIndex id, h⟩).state = .off
    · obtain ⟨s', hs', -⟩ := hoff hlocked hstate
      exact absurd (PsciReply.ret_inj (heq.symm.trans hs')) (by decide)
    · exact absurd (PsciReply.ret_inj (heq.symm.trans (hon hlocked hstate))) (by decide)

variable (timer id arg ret current s) in
theorem psciAffinityInfo_eq (hfunc : PsciFunction.ofFunc func = some .affinityInfo)
    (hlevel : entry.setWidth 32 = 0#32) :
    s.psciSecondaryVmHandler timer func id entry arg ret current =
      .ok (.done (if h : vcpuIdToIndex id < M.vcpuCount current.vm then
          let target := s.vcpu ⟨current.vm, vcpuIdToIndex id, h⟩
          if target.state = .off ∧ target.locked = false then psciReturnOff else psciReturnOn
        else psciErrorInvalidParameters) none, s) := by
  simp only [psciSecondaryVmHandler, hfunc]
  rw [if_neg fun h => h hlevel]
  split
  · next h =>
      rw [affinityInfo_eq]
      simp [isOff, and_comm]
  · rfl

/-- `PSCI_CPU_ON` addresses the named vCPU exactly if the id is not mistaken for a
smaller one and the vCPU is not running. -/
theorem cpuOnExact_iff (hfunc : PsciFunction.ofFunc func = some .cpuOn)
    (hcurrent : current.vm ≠ M.primary) (hp : s.primaryVCpu current = .ok p)
    (hcount : M.vcpuCount current.vm ≤ 2 ^ 16) :
    s.CpuOnExact timer func id entry arg ret current p ↔ Distinguished id (M.vcpuCount current.vm) ∧
        ∀ h : id.toNat < M.vcpuCount current.vm,
          (s.vcpu ⟨current.vm, id.toNat, h⟩).locked = false := by
  have hne := fun h : vcpuIdToIndex id < M.vcpuCount current.vm =>
    psciCpuOn_ne_invalid timer entry arg ret hfunc hcurrent hp h
  have hvalid := fun h : id.toNat < M.vcpuCount current.vm =>
    psciCpuOn_valid timer entry arg ret hfunc hcurrent hp
      (vcpuIdToIndex_of_lt (Nat.lt_of_lt_of_le h hcount)) h
  rw [distinguished_iff hcount]
  constructor
  · intro hexact
    constructor
    · intro hlt
      by_contra hge
      exact hne hlt (hexact.invalid.mpr (Nat.le_of_not_lt hge))
    · intro h
      obtain ⟨hspin, -, -⟩ := hvalid h
      by_contra hlocked
      have hr := hspin (Bool.eq_true_of_not_eq_false hlocked)
      by_cases hstate : (s.vcpu ⟨current.vm, id.toNat, h⟩).state = .off
      · obtain ⟨s', hs', -⟩ := hexact.off h hstate
        exact nomatch hr.symm.trans hs'
      · exact nomatch hr.symm.trans (hexact.on h hstate)
  · rintro ⟨hdistinguished, hlocked⟩
    refine ⟨⟨fun h => ?_, fun h => ?_⟩, fun h => (hvalid h).2.1 (hlocked h),
      fun h => (hvalid h).2.2 (hlocked h)⟩
    · by_contra hlt
      have hlt := Nat.lt_of_not_le hlt
      refine hne ?_ h
      rwa [vcpuIdToIndex_of_lt (Nat.lt_of_lt_of_le hlt hcount)]
    · apply psciCpuOn_invalid hfunc
      by_contra hlt
      exact absurd (hdistinguished (Nat.lt_of_not_le hlt)) (Nat.not_lt.mpr h)

theorem affinityInfoExact_iff (hfunc : PsciFunction.ofFunc func = some .affinityInfo)
    (hlevel : entry.setWidth 32 = 0#32) (hcount : M.vcpuCount current.vm ≤ 2 ^ 16) :
    s.AffinityInfoExact timer func id entry arg ret current ↔
      Distinguished id (M.vcpuCount current.vm) := by
  have hr := psciAffinityInfo_eq current s timer id arg ret hfunc hlevel
  have hinvalid : s.psciSecondaryVmHandler timer func id entry arg ret current =
      .ok (.done psciErrorInvalidParameters none, s) ↔
        M.vcpuCount current.vm ≤ vcpuIdToIndex id := by
    rw [hr]
    constructor
    · intro h
      have hret := PsciReply.ret_inj h
      by_contra hlt
      rw [dif_pos (Nat.lt_of_not_le hlt)] at hret
      dsimp only at hret
      split at hret
      · exact absurd hret (by decide)
      · exact absurd hret (by decide)
    · intro h
      rw [dif_neg (Nat.not_lt.mpr h)]
  rw [distinguished_iff hcount]
  constructor
  · intro hexact hlt
    by_contra hge
    have := hinvalid.mp (hexact.invalid.mpr (Nat.le_of_not_lt hge))
    exact absurd hlt (Nat.not_lt.mpr this)
  · intro hdistinguished
    have hindex : ∀ h : id.toNat < M.vcpuCount current.vm, vcpuIdToIndex id = id.toNat :=
      fun h => vcpuIdToIndex_of_lt (Nat.lt_of_lt_of_le h hcount)
    refine ⟨hinvalid.trans ⟨fun h => ?_, fun h => ?_⟩, fun h => ?_⟩
    · by_contra hlt
      rw [hindex (Nat.lt_of_not_le hlt)] at h
      exact hlt h
    · by_contra hlt
      exact absurd (hdistinguished (Nat.lt_of_not_le hlt)) (Nat.not_lt.mpr h)
    · rw [hr]
      simp only [hindex h, h, ↓reduceDIte]

/-- PSCI calls of a secondary VM address the named vCPU exactly for ids that are not
mistaken for smaller ones; `PSCI_CPU_ON` moreover returns only once the vCPU is not
running. -/
theorem psci_addresses_iff (hcurrent : current.vm ≠ M.primary)
    (hp : s.primaryVCpu current = .ok p) (hcount : M.vcpuCount current.vm < 2 ^ 16)
    (timer : Timer) (id : BitVec 64) :
    (∀ func entry arg ret, PsciFunction.ofFunc func = some .cpuOn →
      (s.CpuOnExact timer func id entry arg ret current p ↔
        Distinguished id (M.vcpuCount current.vm) ∧
          ∀ h : id.toNat < M.vcpuCount current.vm,
            (s.vcpu ⟨current.vm, id.toNat, h⟩).locked = false)) ∧
    ∀ func level arg ret, PsciFunction.ofFunc func = some .affinityInfo →
      level.setWidth 32 = 0#32 →
      (s.AffinityInfoExact timer func id level arg ret current ↔
        Distinguished id (M.vcpuCount current.vm)) := by
  constructor
  · intro func entry arg ret hfunc
    exact cpuOnExact_iff hfunc hcurrent hp hcount.le
  · intro func level arg ret hfunc hlevel
    exact affinityInfoExact_iff hfunc hlevel hcount.le

end Addressing

/-- A vCPU of the first secondary VM runs, and the other VMs' vCPUs do not. -/
def runningState : Hypervisor exampleMachine :=
  (exampleState fun _ => 0).setVCpu (exampleVCpu 1)
    ⟨.ready, some 0, ⟨[], 0, 0, [], {}⟩, true, .new⟩

/-- Of the vCPUs of the first secondary VM one runs, one is off, and one waits to be run. -/
def pairRunning : Hypervisor pairMachine :=
  (pairState.setVCpu (pairVCpu 1 0) ⟨.ready, some 0, ⟨[], 0, 0, [], {}⟩, true, .new⟩).setVCpu
    (pairVCpu 1 1) ⟨.off, some 0, ⟨[], 0, 0, [], {}⟩, false, .new⟩

/-- The call on a vCPU that is off, on one that is on, and on an id that no vCPU has. -/
theorem psci_addresses_unknown :
    (pairRunning.vcpu (pairVCpu 1 1)).state = .off ∧
    (pairRunning.vcpu (pairVCpu 1 2)).state ≠ .off ∧
      ∀ id : BitVec 64, id = 1 ∨ id = 2 ∨ id = 5 →
        pairRunning.CpuOnExact exampleEnv.timer 0x84000003 id 0 0 0 (pairVCpu 1 0)
          (pairVCpu 0 0) := by
  have hp : pairRunning.primaryVCpu (pairVCpu 1 0) = .ok (pairVCpu 0 0) := by decide
  refine ⟨by decide, by decide, fun id hid => ?_⟩
  refine ((psci_addresses_iff (by decide) hp (by decide) exampleEnv.timer id).1 0x84000003 0 0 0
    (by decide)).mpr ?_
  rcases hid with rfl | rfl | rfl
  · exact ⟨.inl (by decide), fun _ => rfl⟩
  · exact ⟨.inl (by decide), fun _ => rfl⟩
  · exact ⟨.inl (by decide), fun h => absurd h (by decide)⟩

/-- The id 0x10000 is taken for the vCPU 0: the caller waits for itself forever, and is
told that the vCPU is on. -/
theorem psci_addresses_wraps :
    ¬ (0x10000 : BitVec 64).toNat < exampleMachine.vcpuCount (exampleVm 1) ∧
    runningState.psciSecondaryVmHandler exampleEnv.timer 0x84000003 0x10000 0 0 0
      (exampleVCpu 1) = .error .spin ∧
    runningState.psciSecondaryVmHandler exampleEnv.timer 0x84000004 0x10000 0 0 0
      (exampleVCpu 1) = .ok (.done psciReturnOn none, runningState) := by
  refine ⟨by decide, ?_, ?_⟩
  · rfl
  · rfl

end Hypervisor
end Hafnium
