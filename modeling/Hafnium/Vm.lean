import Hafnium.Cpu
import Hafnium.Sharing
import Hafnium.Support.Links

/-!
# The state of the hypervisor

The VMs of `vm.rs` with their mailboxes and the lists of VMs that wait for them,
their vCPUs, the page tables, the page pool and memory.  What is fixed at boot
is a `Machine`; the fields of all VMs are functions of the index of the VM.
-/

namespace Hafnium

open Support
open Function (update)

/-- What does not change after boot. -/
structure Machine where
  vmCount : Nat
  vmCount_pos : 0 < vmCount
  vmCount_le : vmCount ≤ maxVms
  vcpuCount : Fin vmCount → Nat
  /-- The ids of the physical CPUs, by index. -/
  cpuIds : List Nat
  /-- The address of `MESSAGE_BUFFER`, a page for each CPU id. -/
  messageBuffer : Nat
  /-- The stage of the VMs' page tables. -/
  stage : Stage
  hypervisorStage : Stage

abbrev Machine.VmIndex (M : Machine) := Fin M.vmCount

namespace Machine

variable (M : Machine)

def vmId (i : M.VmIndex) : Nat := i + hfVmIdOffset

/-- The primary VM always exists. -/
def primary : M.VmIndex := ⟨0, M.vmCount_pos⟩

/-- `VmManager::get`; ids below the offset are reserved and panic. -/
def get (id : Nat) : Except Panic (Option M.VmIndex) :=
  if id < hfVmIdOffset then .error .vmId
  else if h : id - hfVmIdOffset < M.vmCount then .ok (some ⟨id - hfVmIdOffset, h⟩)
  else .ok none

variable {M}

theorem vmId_eq_primary {i : M.VmIndex} : M.vmId i = hfPrimaryVmId ↔ i = M.primary := by
  rw [vmId, hfPrimaryVmId, Nat.add_eq_right, primary, Fin.ext_iff]

theorem vmId_inj {i j : M.VmIndex} : M.vmId i = M.vmId j ↔ i = j := by
  rw [vmId, vmId, Nat.add_right_cancel_iff, Fin.ext_iff]

theorem get_eq_some {id : Nat} {i : M.VmIndex} : M.get id = .ok (some i) ↔ M.vmId i = id := by
  rw [get, vmId]
  split
  · simp only [reduceCtorEq, false_iff]
    omega
  · split
    · rw [Except.ok.injEq, Option.some.injEq, Fin.ext_iff]
      dsimp only
      omega
    · simp only [Except.ok.injEq, reduceCtorEq, false_iff]
      omega

end Machine

/-- A vCPU: its VM and its index there. -/
structure VCpuId (M : Machine) where
  vm : M.VmIndex
  index : Fin (M.vcpuCount vm)
  deriving DecidableEq

inductive MailboxState
  | empty
  | received
  | read
  deriving DecidableEq, Repr

/-- A mailbox with the addresses of its pages; 0 is the null pointer. -/
structure Mailbox where
  state : MailboxState
  recv : Nat
  send : Nat
  deriving DecidableEq, Repr

namespace Mailbox

def isConfigured (self : Mailbox) : Bool := self.send != 0 && self.recv != 0

def isEmpty (self : Mailbox) : Bool := self.state == .empty

/-- Marks a pending message as read; fails if there is none. -/
def tryRead (self : Mailbox) : Outcome × Mailbox :=
  if self.state = .received then (.ok, { self with state := .read }) else (.err, self)

end Mailbox

/-- The list links in the VMs: the heads of the two lists of each mailbox, and
the two links of each wait entry. -/
inductive ListEntry (M : Machine)
  | waiterList (vm : M.VmIndex)
  | readyList (vm : M.VmIndex)
  | waitLinks (vm : M.VmIndex) (slot : Fin maxVms)
  | readyLinks (vm : M.VmIndex) (slot : Fin maxVms)
  deriving DecidableEq

structure Hypervisor (M : Machine) where
  mpool : MPool
  hypervisorPtable : PageTable M.hypervisorStage
  ptable : M.VmIndex → PageTable M.stage
  mailbox : M.VmIndex → Mailbox
  aborting : M.VmIndex → Bool
  vcpu : VCpuId M → VCpu
  links : Links (ListEntry M)
  mem : Memory

/-- What a call depends on besides the state: the timer of the physical CPU, and
what other CPUs do to the page pool during the call. -/
structure Env where
  timer : Timer
  pool : Interference

namespace Hypervisor

variable {M : Machine}

def setVCpu (v : VCpuId M) (vcpu : VCpu) (s : Hypervisor M) : Hypervisor M :=
  { s with vcpu := update s.vcpu v vcpu }

def setMailbox (i : M.VmIndex) (mailbox : Mailbox) (s : Hypervisor M) : Hypervisor M :=
  { s with mailbox := update s.mailbox i mailbox }

@[simp] theorem setVCpu_vcpu (v : VCpuId M) (vcpu : VCpu) (s : Hypervisor M) :
    (s.setVCpu v vcpu).vcpu = update s.vcpu v vcpu := rfl

@[simp] theorem setMailbox_mailbox (i : M.VmIndex) (mailbox : Mailbox) (s : Hypervisor M) :
    (s.setMailbox i mailbox).mailbox = update s.mailbox i mailbox := rfl

/-! ## Transfers -/

/-- What a transfer works on, with a new local pool. -/
def transfer (i j : M.VmIndex) (s : Hypervisor M) : Transfer M.stage M.hypervisorStage where
  fromPtable := s.ptable i
  toPtable := s.ptable j
  hypervisorPtable := s.hypervisorPtable
  mem := s.mem
  pool := .newWithFallback s.mpool

/-- The state after a transfer.  The local pool is dropped; it always has a
fallback. -/
def putTransfer (i j : M.VmIndex) (t : Transfer M.stage M.hypervisorStage) (s : Hypervisor M) :
    Hypervisor M :=
  { s with
    ptable := update (update s.ptable j t.toPtable) i t.fromPtable
    hypervisorPtable := t.hypervisorPtable
    mem := t.mem
    mpool := t.pool.drop.getD s.mpool }

def mailboxSetup (i : M.VmIndex) (s : Hypervisor M) : MailboxSetup M.stage M.hypervisorStage where
  ptable := s.ptable i
  hypervisorPtable := s.hypervisorPtable
  pool := .newWithFallback s.mpool

def putMailboxSetup (i : M.VmIndex) (t : MailboxSetup M.stage M.hypervisorStage)
    (s : Hypervisor M) : Hypervisor M :=
  { s with
    ptable := update s.ptable i t.ptable
    hypervisorPtable := t.hypervisorPtable
    mpool := t.pool.drop.getD s.mpool }

/-- `VmInner::configure`: the pages can only be set up once. -/
def configure (env : Env) (send recv : Nat) (i : M.VmIndex) (s : Hypervisor M) :
    Except Panic (Outcome × Hypervisor M) := do
  if (s.mailbox i).isConfigured then return (.err, s)
  let (r, t) ← (s.mailboxSetup i).configure env.pool send recv
  let s := s.putMailboxSetup i t
  if r = .err then return (.err, s)
  return (.ok, s.setMailbox i { s.mailbox i with send, recv })

/-! ## Waiting for a mailbox -/

/-- `wait_for`: appends an entry of the sender to the waiter list of the target,
unless it is there already. -/
def waitFor (i j : M.VmIndex) (s : Hypervisor M) : Except Panic (Hypervisor M) :=
  if h : M.vmId j < maxVms then
    let entry := ListEntry.waitLinks i ⟨M.vmId j, h⟩
    if !s.links.isEmpty entry then .ok s
    else .ok { s with links := s.links.append (.waiterList j) entry }
  else .error .waitEntry

def isWaiterListEmpty (i : M.VmIndex) (s : Hypervisor M) : Bool := s.links.isEmpty (.waiterList i)

/-- `fetch_waiter`: takes the next entry from the waiter list of a writable
mailbox. -/
def fetchWaiter (i : M.VmIndex) (s : Hypervisor M) :
    Except Panic (Option (M.VmIndex × Fin maxVms) × Hypervisor M) :=
  if (s.mailbox i).state ≠ .empty ∨ (s.mailbox i).recv = 0 ∨ s.isWaiterListEmpty i then
    .ok (none, s)
  else
    let (node, links) := s.links.popFront (.waiterList i)
    match node with
    | .waitLinks vm slot => .ok (some (vm, slot), { s with links })
    -- `container_of` on a link that is not in a wait entry
    | _ => .error .undefined

/-- `enqueue_ready_list`. -/
def enqueueReadyList (i : M.VmIndex) (slot : Fin maxVms) (s : Hypervisor M) : Hypervisor M :=
  { s with links := s.links.append (.readyList i) (.readyLinks i slot) }

/-- `dequeue_ready_list`: the index of an entry of the VM is the id of the VM
whose mailbox became writable. -/
def dequeueReadyList (i : M.VmIndex) (s : Hypervisor M) :
    Except Panic (Option Nat × Hypervisor M) :=
  if s.links.isEmpty (.readyList i) then .ok (none, s)
  else
    let (node, links) := s.links.popFront (.readyList i)
    match node with
    | .readyLinks vm slot =>
      if vm = i then .ok (some slot, { s with links }) else .error .undefined
    | _ => .error .undefined

end Hypervisor
end Hafnium
