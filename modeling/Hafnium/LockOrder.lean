import Hafnium.Psci
import Hafnium.SecureCalls

/-!
# The order of locks

Every way into the hypervisor as the sequence of locks it takes and releases: the lock
of a vCPU, which a physical CPU keeps while it runs a vCPU of a secondary VM, the locks
of VMs, of the interrupts of vCPUs, of the stage-1 page table and of the on/off state of
physical CPUs.  What a call reads elsewhere is left open: the outcomes that decide about
locks are part of the call, so that every state of mailboxes, interrupts and memory is
covered.  A panic is a physical CPU that makes no further step.

The locks are taken in the order of `Lock.rank`, the VMs' in the order of their
addresses, with one exception: `PSCI_CPU_ON` of a secondary VM waits for the lock of a
vCPU while it holds that of its own.
-/

namespace Hafnium

inductive Lock (M : Machine)
  | cpu (c : Fin M.cpuIds.length)
  | exec (v : VCpuId M)
  | vm (i : M.VmIndex)
  | interrupts (v : VCpuId M)
  | stage1
  deriving DecidableEq

/-- The order in which locks are taken.  The VMs are in an array, so that the order of
their indices is that of their addresses. -/
def Lock.rank {M : Machine} : Lock M → Nat
  | .cpu _ => 0
  | .exec _ => 1
  | .vm i => i + 2
  | .interrupts _ => M.vmCount + 2
  | .stage1 => M.vmCount + 3

/-- What a physical CPU still does before it returns to a VM. -/
inductive LockProg (M : Machine)
  /-- Returns to the current vCPU. -/
  | done
  | lock (l : Lock M) (k : LockProg M)
  | tryLock (l : Lock M) (success failure : LockProg M)
  | unlock (l : Lock M) (k : LockProg M)
  /-- Saves the registers of the current vCPU, which releases its lock if it is of a
  secondary VM, and returns to another one. -/
  | switchTo (next : VCpuId M)
  /-- The firmware turns the physical CPU off. -/
  | off
  /-- Never returns. -/
  | halt

/-- The vCPU of the primary VM that runs on a physical CPU. -/
def homeVCpu (M : Machine) (p : Fin M.cpuIds.length) : Option (VCpuId M) :=
  if h : p < M.vcpuCount M.primary then some ⟨M.primary, p, h⟩ else none

namespace LockProg

variable {M : Machine}

/-- A lock whose guard is a temporary. -/
def guarded (l : Lock M) (k : LockProg M) : LockProg M := .lock l (.unlock l k)

/-- A lock that is taken in some cases only. -/
def guardedIf (b : Bool) (l : Lock M) (k : LockProg M) : LockProg M :=
  if b then guarded l k else k

/-- `SpinLock::lock_both` takes the lock of the lower address first. -/
def lockBoth (i j : M.VmIndex) (k : LockProg M) : LockProg M :=
  if i < j then .lock (.vm i) (.lock (.vm j) k) else .lock (.vm j) (.lock (.vm i) k)

/-- The end of every call that goes to `switch_to_primary`. -/
def switchToPrimary (p : Fin M.cpuIds.length) : LockProg M :=
  match homeVCpu M p with
  | some next => .switchTo next
  | none => .halt

/-- `update_vi` at the end of `hvc_handler`, of the vCPU that runs next. -/
def answer (p : Fin M.cpuIds.length) (current : VCpuId M) (switches : Bool) : LockProg M :=
  if switches then
    match homeVCpu M p with
    | some next => guarded (.interrupts next) (.switchTo next)
    | none => .halt
  else guarded (.interrupts current) .done

end LockProg

/-- The ways into the hypervisor, with the outcomes of what they read that decide about
locks. -/
inductive HypEntry (M : Machine)
  /-- `HF_VM_GET_ID`, `HF_VM_GET_COUNT`, `HF_VCPU_GET_COUNT`, `SPCI_VERSION` and unknown
  hypercalls. -/
  | plain
  | spciYield
  | vcpuRun (vcpu : VCpuId M) (blockedMailbox checksInterrupts runs timerPending : Bool)
  | vmConfigure (maps waiters : Bool)
  /-- The recipient, unless the call is refused before it locks both VMs. -/
  | spciMsgSend (recipient : Option M.VmIndex) (sent : Bool)
  | spciMsgRecv (blocks interrupted : Bool)
  | mailboxWritableGet
  /-- The VM that is looked up, and the one that waits for it. -/
  | mailboxWaiterGet (vm waiting : Option M.VmIndex)
  | mailboxClear (waiters : Bool)
  | interruptEnable
  | interruptGet
  | interruptInject (target : Option (VCpuId M)) (injected : Bool)
  | shareMemory (recipient : Option M.VmIndex) (clears : Bool)
  | debugLog
  /-- `HF_DEBUG_LOG` by SMC. -/
  | smcDebugLog
  /-- An SMC that is forwarded or refused. -/
  | smcForward
  | irqLower
  | serrLower
  | waitForInterrupt
  | waitForEvent
  | pageFault (resume : Bool)
  | unknownException
  | systemRegisterAccess (handled : Bool)
  /-- The PSCI calls that lock nothing and return, or turn the system off. -/
  | psciPlain (returns : Bool)
  | psciAffinityInfo (arg0 arg1 : BitVec 64)
  | psciCpuSuspend (returns : Bool)
  | psciCpuOff
  | psciCpuOn (arg0 : BitVec 64) (prev started : Bool)

namespace HypEntry

variable {M : Machine}

open LockProg

/-- Has a secondary VM called? -/
def bySecondary (current : VCpuId M) : Bool := decide (current.vm ≠ M.primary)

/-- `PSCI_AFFINITY_INFO` for the primary VM. -/
def primaryAffinityInfo (arg0 arg1 : BitVec 64) : LockProg M :=
  match PowerState.cpuFind M arg0 with
  | none => .done
  | some c =>
    if h : c < M.cpuIds.length ∧ arg1 = 0 then guarded (.cpu ⟨c, h.1⟩) .done else .done

/-- `PSCI_CPU_ON` for the primary VM: `cpu_on` locks the CPU, and the vCPU while it holds
that lock; if the firmware fails, `cpu_off` locks the CPU again. -/
def primaryCpuOn (arg0 : BitVec 64) (prev started : Bool) : LockProg M :=
  match PowerState.cpuFind M arg0 with
  | none => .done
  | some c =>
    if h : c < M.cpuIds.length then
      let cpu : Lock M := .cpu ⟨c, h⟩
      .lock cpu
        (if prev then .unlock cpu .done
        else
          match homeVCpu M ⟨c, h⟩ with
          | none => .halt
          | some v => guarded (.exec v) (.unlock cpu (guardedIf (!started) cpu .done)))
    else .done

/-- `PSCI_AFFINITY_INFO` for a secondary VM. -/
def secondaryAffinityInfo (arg0 arg1 : BitVec 64) (current : VCpuId M) : LockProg M :=
  if h : vcpuIdToIndex arg0 < M.vcpuCount current.vm ∧ arg1.setWidth 32 = 0 then
    let target : VCpuId M := ⟨current.vm, vcpuIdToIndex arg0, h.1⟩
    .tryLock (.exec target) (.unlock (.exec target) .done) .done
  else .done

/-- The vCPU that a `PSCI_CPU_ON` of a secondary VM addresses. -/
def cpuOnTarget (arg0 : BitVec 64) (current : VCpuId M) : Option (VCpuId M) :=
  if h : vcpuIdToIndex arg0 < M.vcpuCount current.vm then
    some ⟨current.vm, vcpuIdToIndex arg0, h⟩
  else none

/-- `PSCI_CPU_ON` for a secondary VM: `vcpu_secondary_reset_and_start` waits for the lock
of the target. -/
def secondaryCpuOn (p : Fin M.cpuIds.length) (arg0 : BitVec 64) (started : Bool)
    (current : VCpuId M) : LockProg M :=
  match cpuOnTarget arg0 current with
  | some target =>
    guarded (.exec target) (if started then switchToPrimary p else .done)
  | none => .done

/-- `abort`; that of the primary VM does not return. -/
def abort (p : Fin M.cpuIds.length) (current : VCpuId M) : LockProg M :=
  if bySecondary current then switchToPrimary p else .halt

/-- The locks that an entry takes and releases, on the physical CPU `p` that runs
`current`. -/
def prog (p : Fin M.cpuIds.length) (current : VCpuId M) : HypEntry M → LockProg M
  | .plain => answer p current false
  | .spciYield => answer p current (bySecondary current)
  | .vcpuRun vcpu blockedMailbox checksInterrupts runs timerPending =>
    if bySecondary current || !bySecondary vcpu then answer p current false
    else
      .tryLock (.exec vcpu)
        (guardedIf blockedMailbox (.vm vcpu.vm)
          (guardedIf checksInterrupts (.interrupts vcpu)
            (if runs then
              guardedIf timerPending (.interrupts vcpu)
                (guarded (.interrupts vcpu) (.switchTo vcpu))
            else .unlock (.exec vcpu) (answer p current false))))
        (answer p current false)
  | .vmConfigure maps waiters =>
    .lock (.vm current.vm)
      (guardedIf maps .stage1
        (.unlock (.vm current.vm) (answer p current (waiters && bySecondary current))))
  | .spciMsgSend recipient sent =>
    guarded (.vm current.vm)
      (match recipient with
      | some recipient =>
        if recipient = current.vm then answer p current false
        else
          lockBoth recipient current.vm
            (.unlock (.vm current.vm)
              (.unlock (.vm recipient) (answer p current (sent && bySecondary current))))
      | none => answer p current false)
  | .spciMsgRecv blocks interrupted =>
    if bySecondary current then
      .lock (.vm current.vm)
        (guardedIf blocks (.interrupts current)
          (.unlock (.vm current.vm) (answer p current (blocks && !interrupted))))
    else answer p current false
  | .mailboxWritableGet => guarded (.vm current.vm) (answer p current false)
  | .mailboxWaiterGet vm waiting =>
    if bySecondary current then answer p current false
    else
      match vm, waiting with
      | some vm, some waiting =>
        guarded (.vm vm) (guarded (.vm waiting) (answer p current false))
      | some vm, none => guarded (.vm vm) (answer p current false)
      | none, _ => answer p current false
  | .mailboxClear waiters =>
    guarded (.vm current.vm) (answer p current (waiters && bySecondary current))
  | .interruptEnable => guarded (.interrupts current) (answer p current false)
  | .interruptGet => guarded (.interrupts current) (answer p current false)
  | .interruptInject target injected =>
    match target with
    | some target =>
      guarded (.interrupts target)
        (answer p current (injected && bySecondary current && decide (current ≠ target)))
    | none => answer p current false
  | .shareMemory recipient clears =>
    match recipient with
    | some recipient =>
      if recipient = current.vm then answer p current false
      else
        lockBoth current.vm recipient
          (guardedIf clears .stage1
            (.unlock (.vm recipient) (.unlock (.vm current.vm) (answer p current false))))
    | none => answer p current false
  | .debugLog => guarded (.vm current.vm) (answer p current false)
  | .smcDebugLog => guarded (.vm current.vm) .done
  | .smcForward => .done
  | .irqLower | .waitForInterrupt => switchToPrimary p
  -- `spci_yield` sets no next vCPU for the primary VM, and `sync_lower_exception` then
  -- returns what is not initialised
  | .waitForEvent => if bySecondary current then switchToPrimary p else .halt
  | .serrLower | .unknownException => abort p current
  | .pageFault resume =>
    guarded (.vm current.vm) (if resume then .done else abort p current)
  | .systemRegisterAccess handled => if handled then .done else abort p current
  | .psciPlain returns => if returns then .done else .halt
  | .psciAffinityInfo arg0 arg1 =>
    if bySecondary current then secondaryAffinityInfo arg0 arg1 current
    else primaryAffinityInfo arg0 arg1
  | .psciCpuSuspend returns =>
    if bySecondary current then switchToPrimary p else if returns then .done else .off
  | .psciCpuOff =>
    if bySecondary current then switchToPrimary p else guarded (.cpu p) .off
  | .psciCpuOn arg0 prev started =>
    if bySecondary current then secondaryCpuOn p arg0 started current
    else primaryCpuOn arg0 prev started

end HypEntry

/-! ## Programs that keep to the order -/

/-- The lock that a physical CPU holds while a vCPU runs. -/
def runLocks {M : Machine} (v : VCpuId M) : Set (Lock M) :=
  {l | v.vm ≠ M.primary ∧ l = .exec v}

/-- The lock of a vCPU of a secondary VM. -/
def Lock.IsGuest {M : Machine} (l : Lock M) : Prop :=
  ∃ t : VCpuId M, l = .exec t ∧ t.vm ≠ M.primary

/-- A lock may be taken after the locks that are held. -/
def Lock.After {M : Machine} (l : Lock M) (held : Set (Lock M)) : Prop :=
  ∀ l' ∈ held, l'.rank < l.rank

namespace Lock

variable {M : Machine} {v : VCpuId M} {l l' : Lock M} {held : Set (Lock M)}

theorem After.notMem (h : l.After held) : l ∉ held := fun hl => (h l hl).false

theorem After.insert (h : l.After held) (hl : l'.rank < l.rank) : l.After (insert l' held) := by
  rintro l'' (rfl | hl'')
  · exact hl
  · exact h l'' hl''

theorem after_runLocks (hl : 2 ≤ l.rank) : l.After (runLocks v) := by
  rintro _ ⟨-, rfl⟩
  exact hl

theorem not_isGuest (hl : 2 ≤ l.rank) : ¬ l.IsGuest := by
  rintro ⟨t, rfl, -⟩
  exact Nat.not_succ_le_self 1 hl

theorem two_le_rank_interrupts : 2 ≤ (interrupts v).rank := Nat.le_add_left _ _

theorem two_le_rank_vm (i : M.VmIndex) : 2 ≤ (vm i).rank := Nat.le_add_left _ _

theorem rank_vm_lt_interrupts (i : M.VmIndex) : (vm i).rank < (interrupts v).rank :=
  Nat.add_lt_add_right i.isLt 2

theorem rank_vm_lt_stage1 (i : M.VmIndex) : (vm i).rank < (stage1 : Lock M).rank :=
  Nat.add_lt_add i.isLt (by decide)

end Lock

theorem runLocks_of_primary {M : Machine} {v : VCpuId M} (h : v.vm = M.primary) :
    runLocks v = ∅ := by
  simp [runLocks, h]

theorem runLocks_of_ne {M : Machine} {v : VCpuId M} (h : v.vm ≠ M.primary) :
    runLocks v = {.exec v} := by
  simp [runLocks, h]

namespace LockProg

open Lock

variable {M : Machine} {v w : VCpuId M} {p : Fin M.cpuIds.length} {l : Lock M}
  {k : LockProg M} {held : Set (Lock M)}

/-- With these locks held, the program waits only for locks that come after them and are
not of secondary vCPUs, releases only what it holds, and in the end holds the lock of the
vCPU that runs then. -/
def Ordered (v : VCpuId M) : LockProg M → Set (Lock M) → Prop
  | .done, held => held = runLocks v
  | .lock l k, held => l.After held ∧ ¬ l.IsGuest ∧ k.Ordered v (insert l held)
  | .tryLock l k k', held => (l ∉ held → k.Ordered v (insert l held)) ∧ k'.Ordered v held
  | .unlock l k, held => l ∈ held ∧ k.Ordered v (held \ {l})
  | .switchTo next, held => runLocks v ⊆ held ∧ held \ runLocks v = runLocks next
  | .off, held => held = ∅
  | .halt, _ => True

theorem ordered_unlock (hl : l ∉ held) (hk : k.Ordered v held) :
    (unlock l k).Ordered v (insert l held) := by
  constructor
  · exact Set.mem_insert l held
  · rw [Set.insert_sdiff_self_of_notMem hl]
    exact hk

theorem ordered_guarded (hl : l.After held) (hguest : ¬ l.IsGuest) (hk : k.Ordered v held) :
    (guarded l k).Ordered v held :=
  ⟨hl, hguest, ordered_unlock hl.notMem hk⟩

theorem ordered_guardedIf {b : Bool} (hl : l.After held) (hguest : ¬ l.IsGuest)
    (hk : k.Ordered v held) : (guardedIf b l k).Ordered v held := by
  unfold guardedIf
  split
  · exact ordered_guarded hl hguest hk
  · exact hk

/-- Locks of VMs, interrupts and page tables may be taken while a vCPU is locked. -/
theorem ordered_guarded_run (hl : 2 ≤ l.rank) (hk : k.Ordered v (runLocks w)) :
    (guarded l k).Ordered v (runLocks w) :=
  ordered_guarded (after_runLocks hl) (not_isGuest hl) hk

theorem ordered_guardedIf_run {b : Bool} (hl : 2 ≤ l.rank) (hk : k.Ordered v (runLocks w)) :
    (guardedIf b l k).Ordered v (runLocks w) :=
  ordered_guardedIf (after_runLocks hl) (not_isGuest hl) hk

theorem homeVCpu_vm {next : VCpuId M} (h : homeVCpu M p = some next) : next.vm = M.primary := by
  unfold homeVCpu at h
  split at h
  · cases h
    rfl
  · cases h

theorem ordered_switchTo_home {next : VCpuId M} (h : homeVCpu M p = some next) :
    (switchTo next).Ordered v (runLocks v) := by
  constructor
  · exact subset_rfl
  · rw [runLocks_of_primary (homeVCpu_vm h), Set.sdiff_self]

theorem ordered_switchToPrimary : (switchToPrimary p).Ordered v (runLocks v) := by
  unfold switchToPrimary
  split
  next next h => exact ordered_switchTo_home h
  next => trivial

theorem ordered_answer {b : Bool} : (answer p v b).Ordered v (runLocks v) := by
  unfold answer
  split
  · split
    next next h => exact ordered_guarded_run two_le_rank_interrupts (ordered_switchTo_home h)
    next => trivial
  · exact ordered_guarded_run two_le_rank_interrupts rfl

/-- Two VMs are locked in the order of their indices, whichever comes first. -/
theorem ordered_lockBoth {i j : M.VmIndex} (hne : i ≠ j)
    (hk : k.Ordered v (insert (.vm i) (insert (.vm j) (runLocks v)))) :
    (lockBoth i j k).Ordered v (runLocks v) := by
  have hafter : ∀ i : M.VmIndex, (Lock.vm i).After (runLocks v) :=
    fun i => after_runLocks (two_le_rank_vm i)
  have hguest : ∀ i : M.VmIndex, ¬ (Lock.vm i).IsGuest :=
    fun i => not_isGuest (two_le_rank_vm i)
  unfold lockBoth
  split
  next hlt =>
    have hrank : (Lock.vm i).rank < (Lock.vm j).rank := Nat.add_lt_add_right hlt 2
    refine ⟨hafter i, hguest i, (hafter j).insert hrank, hguest j, ?_⟩
    rw [Set.insert_comm]
    exact hk
  next hle =>
    have hlt : j < i := lt_of_le_of_ne (not_lt.mp hle) hne.symm
    have hrank : (Lock.vm j).rank < (Lock.vm i).rank := Nat.add_lt_add_right hlt 2
    exact ⟨hafter j, hguest j, (hafter i).insert hrank, hguest i, hk⟩

end LockProg

namespace HypEntry

open Lock LockProg

variable {M : Machine} {v t : VCpuId M} {p : Fin M.cpuIds.length} {e : HypEntry M}

/-- The vCPU for whose lock a secondary VM's `PSCI_CPU_ON` waits. -/
def awaited (current : VCpuId M) : HypEntry M → Option (VCpuId M)
  | .psciCpuOn arg0 _ _ => if bySecondary current then cpuOnTarget arg0 current else none
  | _ => none

theorem bySecondary_iff : bySecondary v = true ↔ v.vm ≠ M.primary := decide_eq_true_iff

theorem vm_of_not_bySecondary (h : ¬ bySecondary v = true) : v.vm = M.primary :=
  not_not.mp (bySecondary_iff.not.mp h)

theorem ordered_abort : (abort p v).Ordered v (runLocks v) := by
  unfold abort
  split
  · exact ordered_switchToPrimary
  · trivial

theorem ordered_primaryAffinityInfo {arg0 arg1 : BitVec 64} (hv : v.vm = M.primary) :
    (primaryAffinityInfo arg0 arg1 : LockProg M).Ordered v (runLocks v) := by
  rw [runLocks_of_primary hv]
  have hdone : (done : LockProg M).Ordered v ∅ := (runLocks_of_primary hv).symm
  unfold primaryAffinityInfo
  split
  · exact hdone
  · split
    · exact ordered_guarded nofun nofun hdone
    · exact hdone

theorem ordered_primaryCpuOn {arg0 : BitVec 64} {prev started : Bool} (hv : v.vm = M.primary) :
    (primaryCpuOn arg0 prev started : LockProg M).Ordered v (runLocks v) := by
  rw [runLocks_of_primary hv]
  have hdone : (done : LockProg M).Ordered v ∅ := (runLocks_of_primary hv).symm
  unfold primaryCpuOn
  split
  · exact hdone
  next c _ =>
    split
    next hc =>
      refine ⟨nofun, nofun, ?_⟩
      split
      · exact ordered_unlock nofun hdone
      · split
        · trivial
        next home hhome =>
          -- the vCPU is of the primary VM, and comes after the CPU
          apply ordered_guarded
          · rintro _ (rfl | hl)
            · exact Nat.one_pos
            · exact hl.elim
          · rintro ⟨t, ht, hne⟩
            cases ht
            exact hne (homeVCpu_vm hhome)
          · exact ordered_unlock nofun (ordered_guardedIf nofun nofun hdone)
    next => exact hdone

theorem ordered_secondaryAffinityInfo {arg0 arg1 : BitVec 64} :
    (secondaryAffinityInfo arg0 arg1 v).Ordered v (runLocks v) := by
  unfold secondaryAffinityInfo
  split
  · exact ⟨fun hnot => ordered_unlock hnot rfl, rfl⟩
  · rfl

theorem ordered_vcpuRun {vcpu : VCpuId M}
    {blockedMailbox checksInterrupts runs timerPending : Bool} :
    (prog p v (.vcpuRun vcpu blockedMailbox checksInterrupts runs timerPending)).Ordered v
      (runLocks v) := by
  rw [prog]
  split
  next => exact ordered_answer
  next h =>
    rw [Bool.or_eq_true, Bool.not_eq_true', not_or, Bool.not_eq_false] at h
    have hvcpu := runLocks_of_ne (bySecondary_iff.mp h.2)
    have hv := runLocks_of_primary (vm_of_not_bySecondary h.1)
    refine ⟨fun _ => ?_, ordered_answer⟩
    -- what is held now is what is held while `vcpu` runs
    rw [hv, insert_empty_eq, ← hvcpu]
    apply ordered_guardedIf_run (two_le_rank_vm _)
    apply ordered_guardedIf_run two_le_rank_interrupts
    split
    · apply ordered_guardedIf_run two_le_rank_interrupts
      apply ordered_guarded_run two_le_rank_interrupts
      rw [Ordered, hv, Set.sdiff_empty]
      exact ⟨Set.empty_subset _, rfl⟩
    · have hanswer : (answer p v false).Ordered v ∅ := by
        rw [← hv]
        exact ordered_answer
      rw [hvcpu, ← insert_empty_eq]
      exact ordered_unlock (Set.notMem_empty _) hanswer

/-- While the VM of `current` is locked, one more lock is taken. -/
theorem ordered_lock_vm {l : Lock M} {k : LockProg M} {b : Bool} {i : M.VmIndex}
    (hl : (Lock.vm i).rank < l.rank) (hk : k.Ordered v (runLocks v)) :
    (lock (.vm i) (guardedIf b l (unlock (.vm i) k))).Ordered v (runLocks v) := by
  have hvm : (Lock.vm i).After (runLocks v) := after_runLocks (two_le_rank_vm i)
  have htwo : 2 ≤ l.rank := (two_le_rank_vm i).trans hl.le
  refine ⟨hvm, not_isGuest (two_le_rank_vm i), ?_⟩
  exact ordered_guardedIf ((after_runLocks htwo).insert hl) (not_isGuest htwo)
    (ordered_unlock hvm.notMem hk)

theorem ordered_unlock_both {k : LockProg M} {i j : M.VmIndex} (hne : i ≠ j)
    (hk : k.Ordered v (runLocks v)) :
    (unlock (.vm i) (unlock (.vm j) k)).Ordered v
      (insert (.vm i) (insert (.vm j) (runLocks v))) := by
  have hnot : ∀ i : M.VmIndex, Lock.vm i ∉ runLocks v :=
    fun i => (after_runLocks (two_le_rank_vm i)).notMem
  refine ordered_unlock ?_ (ordered_unlock (hnot j) hk)
  rintro (heq | hmem)
  · cases heq
    exact hne rfl
  · exact hnot i hmem

theorem ordered_spciMsgSend {recipient : Option M.VmIndex} {sent : Bool} :
    (prog p v (.spciMsgSend recipient sent)).Ordered v (runLocks v) := by
  dsimp only [prog]
  apply ordered_guarded_run (two_le_rank_vm _)
  split
  · split
    · exact ordered_answer
    next recipient hne =>
      apply ordered_lockBoth hne
      rw [Set.insert_comm]
      exact ordered_unlock_both (Ne.symm hne) ordered_answer
  · exact ordered_answer

theorem ordered_shareMemory {recipient : Option M.VmIndex} {clears : Bool} :
    (prog p v (.shareMemory recipient clears)).Ordered v (runLocks v) := by
  dsimp only [prog]
  split
  · split
    · exact ordered_answer
    next recipient hne =>
      apply ordered_lockBoth (Ne.symm hne)
      rw [Set.insert_comm]
      have htwo : 2 ≤ (Lock.stage1 : Lock M).rank := Nat.le_add_left 2 _
      refine ordered_guardedIf ?_ (not_isGuest htwo) (ordered_unlock_both hne ordered_answer)
      exact ((after_runLocks htwo).insert (rank_vm_lt_stage1 _)).insert (rank_vm_lt_stage1 _)
  · exact ordered_answer

/-- Every entry but one keeps to the order. -/
theorem prog_ordered (h : e.awaited v = none) : (e.prog p v).Ordered v (runLocks v) := by
  cases e with
  | plain => exact ordered_answer
  | spciYield => exact ordered_answer
  | vcpuRun => exact ordered_vcpuRun
  | vmConfigure => exact ordered_lock_vm (rank_vm_lt_stage1 _) ordered_answer
  | spciMsgSend => exact ordered_spciMsgSend
  | spciMsgRecv =>
    rw [prog]
    split
    · exact ordered_lock_vm (rank_vm_lt_interrupts _) ordered_answer
    · exact ordered_answer
  | mailboxWritableGet => exact ordered_guarded_run (two_le_rank_vm _) ordered_answer
  | mailboxWaiterGet =>
    dsimp only [prog]
    split
    · exact ordered_answer
    · split
      · apply ordered_guarded_run (two_le_rank_vm _)
        exact ordered_guarded_run (two_le_rank_vm _) ordered_answer
      · exact ordered_guarded_run (two_le_rank_vm _) ordered_answer
      · exact ordered_answer
  | mailboxClear => exact ordered_guarded_run (two_le_rank_vm _) ordered_answer
  | interruptEnable => exact ordered_guarded_run two_le_rank_interrupts ordered_answer
  | interruptGet => exact ordered_guarded_run two_le_rank_interrupts ordered_answer
  | interruptInject =>
    dsimp only [prog]
    split
    · exact ordered_guarded_run two_le_rank_interrupts ordered_answer
    · exact ordered_answer
  | shareMemory => exact ordered_shareMemory
  | debugLog => exact ordered_guarded_run (two_le_rank_vm _) ordered_answer
  | smcDebugLog => exact ordered_guarded_run (two_le_rank_vm _) rfl
  | smcForward => rfl
  | irqLower => exact ordered_switchToPrimary
  | serrLower => exact ordered_abort
  | waitForInterrupt => exact ordered_switchToPrimary
  | waitForEvent =>
    rw [prog]
    split
    · exact ordered_switchToPrimary
    · trivial
  | pageFault =>
    rw [prog]
    apply ordered_guarded_run (two_le_rank_vm _)
    split
    · rfl
    · exact ordered_abort
  | unknownException => exact ordered_abort
  | systemRegisterAccess =>
    rw [prog]
    split
    · rfl
    · exact ordered_abort
  | psciPlain =>
    rw [prog]
    split
    · rfl
    · trivial
  | psciAffinityInfo =>
    rw [prog]
    split
    · exact ordered_secondaryAffinityInfo
    next hv => exact ordered_primaryAffinityInfo (vm_of_not_bySecondary hv)
  | psciCpuSuspend =>
    rw [prog]
    split
    · exact ordered_switchToPrimary
    next hv =>
      split
      · rfl
      · exact runLocks_of_primary (vm_of_not_bySecondary hv)
  | psciCpuOff =>
    rw [prog]
    split
    · exact ordered_switchToPrimary
    next hv =>
      rw [runLocks_of_primary (vm_of_not_bySecondary hv)]
      exact ordered_guarded nofun nofun rfl
  | psciCpuOn =>
    rw [prog]
    split
    next hv =>
      rw [awaited, if_pos hv] at h
      rw [secondaryCpuOn, h]
      rfl
    next hv => exact ordered_primaryCpuOn (vm_of_not_bySecondary hv)

/-- The exception: it waits for the lock of a secondary vCPU. -/
theorem prog_of_awaited (h : e.awaited v = some t) :
    ∃ k, e.prog p v = .lock (.exec t) k ∧ t.vm ≠ M.primary ∧
      (Lock.exec t ∉ runLocks v → k.Ordered v (insert (.exec t) (runLocks v))) := by
  cases e with
  | psciCpuOn arg0 prev started =>
    rw [awaited] at h
    split at h
    next hv =>
      rw [prog, if_pos hv, secondaryCpuOn, h]
      refine ⟨_, rfl, ?_, fun hnot => ordered_unlock hnot ?_⟩
      · unfold cpuOnTarget at h
        split at h
        · cases h
          exact bySecondary_iff.mp hv
        · cases h
      · split
        · exact ordered_switchToPrimary
        · rfl
    next => cases h
  | _ => cases h

end HypEntry

end Hafnium
