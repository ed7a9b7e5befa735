import Hafnium.Vm

/-!
# Hypercalls

The methods of `Hypervisor` in `hypervisor.rs`, with the handling of architected
messages.  Each takes the vCPU that makes the call, is atomic under the locks it
takes, and returns its result, the vCPU to switch to if there is one, and the
next state.  Log output is not modelled.
-/

namespace Hafnium

open Support

/-- How long the scheduler may sleep: until the timer fires, if it runs. -/
def HfVCpuRunReturn.sleepUntil (timer : Timer) : HfVCpuRunReturn → HfVCpuRunReturn
  | .waitForInterrupt _ => .waitForInterrupt (sleepNs timer)
  | .waitForMessage _ => .waitForMessage (sleepNs timer)
  | ret => ret
where
  sleepNs (timer : Timer) : BitVec 64 :=
    if timer.enabledCurrent then timer.remainingNsCurrent else hfSleepIndefinite

namespace Hypervisor

variable {M : Machine}

/-! ## Switching to the primary VM -/

/-- The vCPU of the primary VM that corresponds to the physical CPU of a vCPU. -/
def primaryVCpu (current : VCpuId M) (s : Hypervisor M) : Except Panic (VCpuId M) :=
  match (s.vcpu current).cpu with
  | some cpu =>
    if h : cpu < M.vcpuCount M.primary then .ok ⟨M.primary, cpu, h⟩ else .error .primaryVCpu
  | none => .error .primaryVCpu

def switchToPrimary (timer : Timer) (current : VCpuId M) (primaryRet : HfVCpuRunReturn)
    (secondaryState : VCpuStatus) (s : Hypervisor M) : Except Panic (VCpuId M × Hypervisor M) := do
  let next ← s.primaryVCpu current
  let primaryRet := primaryRet.sleepUntil timer
  let vcpu := s.vcpu next
  let s := s.setVCpu next { vcpu with regs := vcpu.regs.setRetval primaryRet.intoRaw }
  return (next, s.setVCpu current { s.vcpu current with state := secondaryState })

def preempt (timer : Timer) (current : VCpuId M) (s : Hypervisor M) :
    Except Panic (VCpuId M × Hypervisor M) :=
  s.switchToPrimary timer current .preempted .ready

def waitForInterrupt (timer : Timer) (current : VCpuId M) (s : Hypervisor M) :
    Except Panic (VCpuId M × Hypervisor M) :=
  s.switchToPrimary timer current (.waitForInterrupt hfSleepIndefinite) .blockedInterrupt

def vcpuOff (timer : Timer) (current : VCpuId M) (s : Hypervisor M) :
    Except Panic (VCpuId M × Hypervisor M) :=
  s.switchToPrimary timer.disableCurrent current (.waitForInterrupt hfSleepIndefinite) .off

def spciYield (timer : Timer) (current : VCpuId M) (s : Hypervisor M) :
    Except Panic (Option (VCpuId M) × Hypervisor M) := do
  if M.vmId current.vm = hfPrimaryVmId then return (none, s)
  let (next, s) ← s.switchToPrimary timer current .yield .ready
  return (some next, s)

def wakeUp (timer : Timer) (current target : VCpuId M) (s : Hypervisor M) :
    Except Panic (VCpuId M × Hypervisor M) :=
  s.switchToPrimary timer current (.wakeUp (M.vmId target.vm) target.index) .ready

def abort (timer : Timer) (current : VCpuId M) (s : Hypervisor M) :
    Except Panic (VCpuId M × Hypervisor M) :=
  if M.vmId current.vm = hfPrimaryVmId then .error .spin
  else
    { s with aborting := Function.update s.aborting current.vm true }.switchToPrimary timer current
      .aborted .aborted

/-! ## Running vCPUs -/

/-- The number of vCPUs of a VM, or nothing if there is no such VM or the caller
is not the primary VM. -/
def vcpuGetCount (vmId : Nat) (current : VCpuId M) : Except Panic (Option Nat) := do
  if M.vmId current.vm ≠ hfPrimaryVmId then return none
  let vm ← M.get vmId
  return vm.map M.vcpuCount

def internalInterruptInject (timer : Timer) (target : VCpuId M) (intid : Nat)
    (current : VCpuId M) (s : Hypervisor M) :
    Except Panic ((Int × Option (VCpuId M)) × Hypervisor M) := do
  let vcpu := s.vcpu target
  let (r, interrupts) := vcpu.interrupts.inject intid
  let s := s.setVCpu target { vcpu with interrupts }
  if r = .ok then
    if M.vmId current.vm = hfPrimaryVmId then return ((1, none), s)
    if current ≠ target then
      let (next, s) ← s.wakeUp timer current target
      return ((0, some next), s)
  return ((0, none), s)

/-- The end of `vcpu_prepare_run` when the vCPU is not ready to run. -/
def declinedRun (timer : Timer) (vcpu : VCpu) (runRet : HfVCpuRunReturn) : HfVCpuRunReturn :=
  if !vcpu.regs.timerEnabled then runRet
  else if vcpu.state = .blockedMailbox then .waitForMessage (vcpu.regs.timerRemainingNs timer)
  else .waitForInterrupt (vcpu.regs.timerRemainingNs timer)

/-- Decides whether a vCPU can run.  Its lock is held afterwards if it can; a
pending message is delivered to a vCPU that waits for it. -/
def vcpuPrepareRun (timer : Timer) (current v : VCpuId M) (runRet : HfVCpuRunReturn)
    (s : Hypervisor M) : Option HfVCpuRunReturn × Hypervisor M :=
  let vcpu := s.vcpu v
  if vcpu.locked then (some runRet, s)
  else if s.aborting v.vm then (some runRet, s.setVCpu v { vcpu with state := .aborted })
  else if vcpu.state = .off ∨ vcpu.state = .aborted then (some runRet, s)
  else if vcpu.state = .blockedMailbox ∧ (s.mailbox v.vm).tryRead.1 = .ok then
    let s := s.setMailbox v.vm (s.mailbox v.vm).tryRead.2
    let regs := vcpu.regs.setRetval SpciReturn.success.toReg
    (none, s.setVCpu v { vcpu with regs, cpu := (s.vcpu current).cpu, locked := true })
  else if (vcpu.state = .blockedMailbox ∨ vcpu.state = .blockedInterrupt) ∧
      !vcpu.interrupts.isInterrupted ∧ !vcpu.regs.timerPending timer then
    (some (declinedRun timer vcpu runRet), s)
  else (none, s.setVCpu v { vcpu with cpu := (s.vcpu current).cpu, locked := true })

/-- Makes the timer interrupt pending if the timer of a vCPU has expired, and
masks it so that it does not fire again. -/
def injectTimer (timer : Timer) (v : VCpuId M) (s : Hypervisor M) :
    Except Panic (Hypervisor M) := do
  if (s.vcpu v).regs.timerPending timer then
    let (_, s) ← s.internalInterruptInject timer v hfVirtualTimerIntid v
    let vcpu := s.vcpu v
    return s.setVCpu v { vcpu with regs := vcpu.regs.timerMask }
  return s

/-- Runs a vCPU: the result is the vCPU to switch to, or what the scheduler is
told instead. -/
def vcpuRun (timer : Timer) (vmId vcpuIdx : Nat) (current : VCpuId M) (s : Hypervisor M) :
    Except Panic (Except HfVCpuRunReturn (VCpuId M) × Hypervisor M) := do
  let ret := HfVCpuRunReturn.waitForInterrupt hfSleepIndefinite
  if M.vmId current.vm ≠ hfPrimaryVmId then return (.error ret, s)
  if vmId = hfPrimaryVmId then return (.error ret, s)
  match ← M.get vmId with
  | none => return (.error ret, s)
  | some vm =>
    if h : vcpuIdx < M.vcpuCount vm then
      let v : VCpuId M := ⟨vm, vcpuIdx, h⟩
      match s.vcpuPrepareRun timer current v ret with
      | (some ret, s) => return (.error ret, s)
      | (none, s) => return (.ok v, ← s.injectTimer timer v)
    else return (.error ret, s)

/-- The registers of a vCPU have been saved, with those of the timer; a vCPU of a
secondary VM can then run elsewhere. -/
def regsStateSaved (timer : Timer) (current : VCpuId M) (s : Hypervisor M) : Hypervisor M :=
  let vcpu := s.vcpu current
  let regs := { vcpu.regs with cntvCtl := timer.cntvCtl, cntvCval := timer.cntvCval }
  let locked := if M.vmId current.vm ≠ hfPrimaryVmId then false else vcpu.locked
  s.setVCpu current { vcpu with regs, locked }

/-! ## Starting vCPUs -/

def vcpuTryLock (v : VCpuId M) (s : Hypervisor M) : Bool × Hypervisor M :=
  let vcpu := s.vcpu v
  if vcpu.locked then (false, s) else (true, s.setVCpu v { vcpu with locked := true })

def vcpuUnlock (v : VCpuId M) (s : Hypervisor M) : Hypervisor M :=
  s.setVCpu v { s.vcpu v with locked := false }

/-- Whether `PSCI_AFFINITY_INFO` reports a vCPU of the caller's VM as off.  A vCPU
that runs somewhere is locked and thus on. -/
def affinityInfo (target : VCpuId M) (s : Hypervisor M) : Bool × Hypervisor M :=
  match s.vcpuTryLock target with
  | (false, s) => (false, s)
  | (true, s) => ((s.vcpu target).isOff, s.vcpuUnlock target)

/-- `ArchRegs::reset` of a vCPU, with the id that it is to see. -/
def resetRegs (isPrimary : Bool) (v : VCpuId M) (id : Nat) (s : Hypervisor M) : ArchRegs :=
  (s.vcpu v).regs.reset isPrimary (M.vmId v.vm) id (s.ptable v.vm).root

/-- Starts a vCPU of a secondary VM if it is off.  While the vCPU runs its lock is
held, and the caller spins. -/
def vcpuSecondaryResetAndStart (target : VCpuId M) (entry arg : BitVec 64) (s : Hypervisor M) :
    Except Panic (Bool × Hypervisor M) := do
  if M.vmId target.vm = hfPrimaryVmId then throw .secondary
  let vcpu := s.vcpu target
  if vcpu.locked then throw .spin
  if vcpu.isOff then
    let vcpu := { vcpu with regs := s.resetRegs false target target.index }
    return (true, s.setVCpu target (vcpu.on entry arg))
  return (false, s)

/-- `cpu_main`: the vCPU of the primary VM that a physical CPU runs at first. -/
def cpuMain (cpu : Fin M.cpuIds.length) (s : Hypervisor M) :
    Except Panic (VCpuId M × Hypervisor M) :=
  if h : cpu < M.vcpuCount M.primary then
    let v : VCpuId M := ⟨M.primary, cpu, h⟩
    .ok (v, s.setVCpu v { s.vcpu v with
      cpu := some cpu, regs := s.resetRegs true v (M.cpuIds.get cpu) })
  else .error .primaryVCpu

/-! ## Mailboxes -/

/-- What a VM is told when its mailbox has become writable.  If there are
waiters, the primary VM has to wake them up. -/
def waiterResult (timer : Timer) (i : M.VmIndex) (current : VCpuId M) (s : Hypervisor M) :
    Except Panic ((Int × Option (VCpuId M)) × Hypervisor M) := do
  if s.isWaiterListEmpty i then return ((0, none), s)
  if M.vmId i = hfPrimaryVmId then return ((1, none), s)
  let (next, s) ← s.switchToPrimary timer current .notifyWaiters .ready
  return ((0, some next), s)

def vmConfigure (env : Env) (send recv : Nat) (current : VCpuId M) (s : Hypervisor M) :
    Except Panic ((Int × Option (VCpuId M)) × Hypervisor M) := do
  let (r, s) ← s.configure env send recv current.vm
  if r = .err then return ((-1, none), s)
  s.waiterResult env.timer current.vm current

def spciMsgRecv (timer : Timer) (block : Bool) (current : VCpuId M) (s : Hypervisor M) :
    Except Panic ((SpciReturn × Option (VCpuId M)) × Hypervisor M) := do
  if M.vmId current.vm = hfPrimaryVmId then return ((.interrupted, none), s)
  let (r, mailbox) := (s.mailbox current.vm).tryRead
  if r = .ok then return ((.success, none), s.setMailbox current.vm mailbox)
  if !block then return ((.retry, none), s)
  if !(s.vcpu current).interrupts.isInterrupted then
    let (next, s) ← s.switchToPrimary timer current (.waitForMessage hfSleepIndefinite)
      .blockedMailbox
    return ((.interrupted, some next), s)
  return ((.interrupted, none), s)

def mailboxWritableGet (current : VCpuId M) (s : Hypervisor M) :
    Except Panic (Option Nat × Hypervisor M) := s.dequeueReadyList current.vm

def mailboxWaiterGet (vmId : Nat) (current : VCpuId M) (s : Hypervisor M) :
    Except Panic (Option Nat × Hypervisor M) := do
  if M.vmId current.vm ≠ hfPrimaryVmId then return (none, s)
  match ← M.get vmId with
  | none => return (none, s)
  | some vm =>
    match ← s.fetchWaiter vm with
    | (none, s) => return (none, s)
    | (some (waitingVm, slot), s) =>
      let s := if s.links.isEmpty (.readyLinks waitingVm slot) then
        s.enqueueReadyList waitingVm slot else s
      return (some (M.vmId waitingVm), s)

def mailboxClear (timer : Timer) (current : VCpuId M) (s : Hypervisor M) :
    Except Panic ((Int × Option (VCpuId M)) × Hypervisor M) :=
  let mailbox := s.mailbox current.vm
  match mailbox.state with
  | .empty => .ok ((0, none), s)
  | .received => .ok ((-1, none), s)
  | .read => (s.setMailbox current.vm { mailbox with state := .empty }).waiterResult timer
      current.vm current

/-! ## Interrupts -/

def interruptEnable (intid : Nat) (enable : Bool) (current : VCpuId M) (s : Hypervisor M) :
    Outcome × Hypervisor M :=
  let vcpu := s.vcpu current
  let (r, interrupts) := vcpu.interrupts.enable intid enable
  (r, s.setVCpu current { vcpu with interrupts })

def interruptGet (current : VCpuId M) (s : Hypervisor M) : Nat × Hypervisor M :=
  let vcpu := s.vcpu current
  let (intid, interrupts) := vcpu.interrupts.get
  (intid, s.setVCpu current { vcpu with interrupts })

/-- The primary VM may inject interrupts into any VM, other VMs only into
their own vCPUs. -/
def isInjectionAllowed (targetVmId : Nat) (current : VCpuId M) : Bool :=
  M.vmId current.vm == hfPrimaryVmId || M.vmId current.vm == targetVmId

def interruptInject (timer : Timer) (targetVmId targetVCpuIdx intid : Nat) (current : VCpuId M)
    (s : Hypervisor M) : Except Panic ((Int × Option (VCpuId M)) × Hypervisor M) := do
  match ← M.get targetVmId with
  | none => return ((-1, none), s)
  | some vm =>
    if intid ≥ hfNumIntids then return ((-1, none), s)
    if !isInjectionAllowed targetVmId current then return ((-1, none), s)
    if h : targetVCpuIdx < M.vcpuCount vm then
      s.internalInterruptInject timer ⟨vm, targetVCpuIdx, h⟩ intid current
    else return ((-1, none), s)

/-! ## Sharing memory -/

def shareMemory (env : Env) (vmId addr size : Nat) (request : HfShare) (current : VCpuId M)
    (s : Hypervisor M) : Except Panic (Outcome × Hypervisor M) := do
  if vmId = M.vmId current.vm then return (.err, s)
  match ← M.get vmId with
  | none => return (.err, s)
  | some j =>
    let (r, t) ← Hafnium.shareMemory env.pool request addr ((addr + size) % 2 ^ 64)
      (s.transfer current.vm j)
    return (r, s.putTransfer current.vm j t)

/-! ## Messages -/

/-- `spci_validate_call_share_memory`: the declared number of constituents has to
match the length of the message. -/
def spciValidateCallShareMemory (env : Env) (i j : M.VmIndex) (region memoryShareSize : Nat)
    (memoryToAttributes : Mode) (share : SpciMemoryShare) (s : Hypervisor M) :
    Except Panic (SpciReturn × Hypervisor M) := do
  let memoryRegion := SpciMemoryRegion.read s.mem region
  if memoryShareSize ≠ spciMemoryRegionSize +
      spciMemoryRegionConstituentSize * memoryRegion.count then
    return (.invalidParameters, s)
  -- reflexive shares are disallowed
  if i = j then return (.invalidParameters, s)
  let (r, t) ← spciShareMemory env.pool memoryRegion.constituent memoryToAttributes share
    (s.transfer i j)
  return (r, s.putTransfer i j t)

/-- The sharing that an architected message asks for, by its type. -/
def spciMsgShareMemory (env : Env) (i j : M.VmIndex) (buffer length : Nat)
    (share : SpciMemoryShare) (s : Hypervisor M) : Except Panic (SpciReturn × Hypervisor M) :=
  let payload := buffer + spciArchitectedMessageHeaderSize
  let size := (length + 2 ^ 64 - spciArchitectedMessageHeaderSize) % 2 ^ 64
  match share with
  | .donate | .relinquish =>
    s.spciValidateCallShareMemory env i j payload size (Mode.R ||| Mode.W ||| Mode.X) share
  | .lend =>
    let borrowerAttributes := s.mem.readLe (payload + 2) 2
    s.spciValidateCallShareMemory env i j (payload + spciMemoryLendSize)
      ((size + 2 ^ 64 - spciMemoryLendSize) % 2 ^ 64) (spciMemoryAttrsToMode borrowerAttributes)
      share

/-- `spci_msg_handle_architected_message`.  The message in the buffer is copied to
the recipient in units of its header; the header of the message is written
whatever the result. -/
def spciMsgHandleArchitectedMessage (env : Env) (i j : M.VmIndex) (buffer : Nat)
    (msg : SpciMessage) (toMsg : Nat) (s : Hypervisor M) :
    Except Panic (SpciReturn × Hypervisor M) := do
  let share ← orPanic .undefined (SpciMemoryShare.ofCode (s.mem.readLe buffer 2))
  let (ret, s) ← s.spciMsgShareMemory env i j buffer msg.length share
  let mem := if ret = .success then
    s.mem.copy buffer (toMsg + spciMessageSize) (msg.length * spciArchitectedMessageHeaderSize)
    else s.mem
  return (ret, { s with mem := mem.write toMsg spciMessageSize msg })

/-- `cpu_get_buffer`: the message buffer of the physical CPU that a vCPU runs on. -/
def cpuGetBuffer (current : VCpuId M) (s : Hypervisor M) : Except Panic Nat := do
  let cpuId ← orPanic .undefined ((s.vcpu current).cpu.bind fun cpu => M.cpuIds[cpu]?)
  if cpuId < maxCpus then return M.messageBuffer + cpuId * pageSize
  throw .cpuBuffer

/-- Delivers a message to a mailbox that is ready for it. -/
def deliver (env : Env) (i j : M.VmIndex) (msg : SpciMessage) (current : VCpuId M)
    (s : Hypervisor M) : Except Panic (SpciReturn × Hypervisor M) := do
  let fromMsg := (s.mailbox i).send
  let toMsg := (s.mailbox j).recv
  if msg.isImpdef then
    let mem := s.mem.write toMsg spciMessageSize msg
    return (.success, { s with
      mem := mem.copy (fromMsg + spciMessageSize) (toMsg + spciMessageSize) msg.length })
  let buffer ← s.cpuGetBuffer current
  if msg.length > pageSize then return (.invalidParameters, s)
  if msg.length < spciArchitectedMessageHeaderSize then return (.invalidParameters, s)
  let s := { s with mem := s.mem.copy (fromMsg + spciMessageSize) buffer msg.length }
  s.spciMsgHandleArchitectedMessage env i j buffer msg toMsg

/-- The header of the message in the send page of a VM, and the recipient; nothing
if the VM has no send page or the header is not acceptable. -/
def spciMsgSendCheck (i : M.VmIndex) (s : Hypervisor M) :
    Except Panic (Option (SpciMessage × M.VmIndex)) := do
  if (s.mailbox i).send = 0 then return none
  let msg := SpciMessage.read s.mem (s.mailbox i).send
  if msg.sourceVmId ≠ M.vmId i then return none
  if msg.length > spciMsgPayloadMax then return none
  if msg.targetVmId = M.vmId i then return none
  let j ← M.get msg.targetVmId
  return j.map fun j => (msg, j)

/-- Marks the mailbox of the recipient of a message and tells the primary VM.
Messages for the primary VM are delivered directly. -/
def spciMsgNotify (timer : Timer) (i j : M.VmIndex) (current : VCpuId M) (s : Hypervisor M) :
    Except Panic (Option (VCpuId M) × Hypervisor M) := do
  let primaryRet := HfVCpuRunReturn.message (M.vmId j)
  if M.vmId j = hfPrimaryVmId then
    let s := s.setMailbox j { s.mailbox j with state := .read }
    let (next, s) ← s.switchToPrimary timer current primaryRet .ready
    return (some next, s)
  let s := s.setMailbox j { s.mailbox j with state := .received }
  if M.vmId i ≠ hfPrimaryVmId then
    let (next, s) ← s.switchToPrimary timer current primaryRet .ready
    return (some next, s)
  return (none, s)

def spciMsgSend (env : Env) (notify : Bool) (current : VCpuId M) (s : Hypervisor M) :
    Except Panic ((SpciReturn × Option (VCpuId M)) × Hypervisor M) := do
  match ← s.spciMsgSendCheck current.vm with
  | none => return ((.invalidParameters, none), s)
  | some (msg, j) =>
    if !(s.mailbox j).isEmpty || !(s.mailbox j).isConfigured then
      if notify then return ((.busy, none), ← s.waitFor current.vm j)
      return ((.busy, none), s)
    let (ret, s) ← s.deliver env current.vm j msg current
    if ret ≠ .success then return ((ret, none), s)
    let (next, s) ← s.spciMsgNotify env.timer current.vm j current
    return ((.success, next), s)

end Hypervisor
end Hafnium
