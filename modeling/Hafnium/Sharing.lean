import Hafnium.Abi
import Hafnium.Mm.PageTable
import Hafnium.Support.Post

/-!
# Sharing memory

The functions that move memory between VMs: `share_memory` and `clear_memory`
of `hypervisor.rs`, `spci_share_memory` with its transition tables, and the
configuration of mailbox pages in `vm.rs`.  All of them change a stage-2 table
first and undo the change if a later step fails, with a local page pool that
keeps freed tables from other CPUs.

The VMs are locked throughout, but the page pool behind the local pool is not:
whatever other CPUs do to it between two uses is an argument, so that results
hold for every interleaving with them.
-/

namespace Hafnium

open Support

/-- Where the hypervisor stops (`panic = abort`). -/
inductive Panic
  /-- Root tables sliced past their end in `map_root`. -/
  | mapRoot
  /-- `unwrap` of an `identity_map` that restores a stage-2 table. -/
  | restore
  /-- `unwrap` of an `unmap` in the hypervisor's table. -/
  | unmap
  /-- `assert!(vm_id >= HF_VM_ID_OFFSET)`. -/
  | vmId
  /-- Index into `wait_entries` out of bounds. -/
  | waitEntry
  /-- Index into the vCPUs of the primary VM out of bounds. -/
  | primaryVCpu
  /-- `assert!(cpu_id < MAX_CPUS)` in `cpu_get_buffer`. -/
  | cpuBuffer
  /-- `assert!(vm.id != HF_PRIMARY_VM_ID)` in `vcpu_secondary_reset_and_start`. -/
  | secondary
  /-- A `CHECK` of the handlers. -/
  | check
  /-- A PSCI call from which the firmware should not return. -/
  | psci
  /-- Not a panic: the firmware does not return. -/
  | firmware
  /-- Not a panic: the physical CPU spins forever. -/
  | spin
  /-- Not a panic: the behaviour of the program is undefined. -/
  | undefined
  deriving DecidableEq, Repr

/-- The value, or a panic if there is none. -/
def orPanic {α : Type} (p : Panic) : Option α → Except Panic α
  | none => .error p
  | some a => .ok a

/-- `Result::unwrap` on an outcome with a state. -/
def unwrap {α : Type} (p : Panic) : Outcome × α → Except Panic α
  | (.ok, a) => .ok a
  | (.err, _) => .error p

section Lemmas

variable {α : Type} {p q : Panic} {a : α}

@[simp] theorem orPanic_eq_ok {o : Option α} : orPanic p o = .ok a ↔ o = some a := by
  cases o <;> simp [orPanic]

@[simp] theorem orPanic_eq_error {o : Option α} : orPanic p o = .error q ↔ o = none ∧ q = p := by
  cases o <;> simp [orPanic, eq_comm]

@[simp] theorem unwrap_eq_ok {r : Outcome × α} : unwrap p r = .ok a ↔ r = (.ok, a) := by
  obtain ⟨_ | _, b⟩ := r <;> simp [unwrap]

end Lemmas

/-- What other CPUs do to the pools behind a local pool, by the number of uses
of the local pool before. -/
abbrev Interference := Nat → Pool → Pool

def MPool.interfere (m : MPool) (f : Pool → Pool) : MPool :=
  { m with fallback := m.fallback.map f }

variable {S H : Stage}

/-- `identity_map` with a pool shared with other CPUs. -/
def PageTable.identityMapIn (env : Pool → Pool) (pt : PageTable S) (begin endAddr : Nat)
    (mode : Mode) (pool : MPool) : Except Panic (Outcome × PageTable S × MPool) :=
  orPanic .mapRoot (pt.identityMap aarch64 begin endAddr mode (pool.interfere env))

/-- `unmap` with a pool shared with other CPUs. -/
def PageTable.unmapIn (env : Pool → Pool) (pt : PageTable S) (begin endAddr : Nat)
    (pool : MPool) : Except Panic (Outcome × PageTable S × MPool) :=
  orPanic .mapRoot (pt.unmap aarch64 begin endAddr (pool.interfere env))

/-- What a transfer of memory works on: the tables of the two VMs, that of the
hypervisor, memory, and the local pool.  `S` is the stage of the VMs, `H` that of
the hypervisor. -/
structure Transfer (S H : Stage) where
  fromPtable : PageTable S
  toPtable : PageTable S
  hypervisorPtable : PageTable H
  mem : Memory
  pool : MPool

namespace Transfer

/-- Maps the range in the sender's table. -/
def mapSender (env : Pool → Pool) (begin endAddr : Nat) (mode : Mode) (t : Transfer S H) :
    Except Panic (Outcome × Transfer S H) := do
  let (r, fromPtable, pool) ← t.fromPtable.identityMapIn env begin endAddr mode t.pool
  return (r, { t with fromPtable, pool })

/-- Maps the range in the recipient's table. -/
def mapRecipient (env : Pool → Pool) (begin endAddr : Nat) (mode : Mode) (t : Transfer S H) :
    Except Panic (Outcome × Transfer S H) := do
  let (r, toPtable, pool) ← t.toPtable.identityMapIn env begin endAddr mode t.pool
  return (r, { t with toPtable, pool })

/-- Gives the sender's range its original mode back. -/
def restoreSender (env : Pool → Pool) (begin endAddr : Nat) (origMode : Mode) (t : Transfer S H) :
    Except Panic (Transfer S H) := do
  unwrap .restore (← t.mapSender env begin endAddr origMode)

def defragSender (t : Transfer S H) : Transfer S H :=
  { t with
    fromPtable := (t.fromPtable.defrag aarch64 t.pool).1
    pool := (t.fromPtable.defrag aarch64 t.pool).2 }

def defragHypervisor (t : Transfer S H) : Transfer S H :=
  { t with
    hypervisorPtable := (t.hypervisorPtable.defrag aarch64 t.pool).1
    pool := (t.hypervisorPtable.defrag aarch64 t.pool).2 }

/-- Clears a range of physical memory, through a temporary mapping. -/
def clearMemory (env : Interference) (begin endAddr : Nat) (t : Transfer S H) :
    Except Panic (Outcome × Transfer S H) := do
  let (r, hypervisorPtable, pool) ←
    t.hypervisorPtable.identityMapIn (env 0) begin endAddr Mode.W t.pool
  match r with
  | .err =>
    return (.err, { t with hypervisorPtable, pool }.defragHypervisor)
  | .ok =>
    let mem := t.mem.write begin (endAddr - begin) fun _ => 0
    let (hypervisorPtable, pool) ←
      unwrap .unmap (← hypervisorPtable.unmapIn (env 1) begin endAddr pool)
    return (.ok, { t with hypervisorPtable, mem, pool })

/-- Completes a transfer by mapping the range into the recipient.  On failure any
memory consumed is recovered and the sender's mapping restored. -/
def complete (env : Interference) (begin endAddr : Nat) (origFromMode toMode : Mode)
    (t : Transfer S H) : Except Panic (Outcome × Transfer S H) := do
  let (r, t) ← t.mapRecipient (env 0) begin endAddr toMode
  if r = .err then return (.err, ← t.defragSender.restoreSender (env 1) begin endAddr origFromMode)
  return (.ok, t)

end Transfer

/-! ## `share_memory` -/

/-- The modes of sender and recipient after a transfer. -/
def HfShare.modes : HfShare → Mode × Mode
  | give => (Mode.INVALID ||| Mode.UNOWNED, Mode.R ||| Mode.W ||| Mode.X)
  | lend => (Mode.INVALID, Mode.R ||| Mode.W ||| Mode.X ||| Mode.UNOWNED)
  | share => (Mode.R ||| Mode.W ||| Mode.X ||| Mode.SHARED,
      Mode.R ||| Mode.W ||| Mode.X ||| Mode.UNOWNED ||| Mode.SHARED)

def isAligned (addr : Nat) : Bool := addr % pageSize == 0

/-- The checks of `share_memory` on the range: the original mode of the sender
if it may share the range. -/
def shareMemoryCheck (request : HfShare) (begin endAddr : Nat) (fromPtable toPtable : PageTable S) :
    Option Mode :=
  if !isAligned begin || !isAligned endAddr then none
  else
    (fromPtable.getMode aarch64 begin endAddr).bind fun origFromMode =>
      if origFromMode.contains Mode.INVALID then none
      else if origFromMode.contains Mode.UNOWNED then
        -- the sender gives memory back to its owner
        (toPtable.getMode aarch64 begin endAddr).bind fun toMode =>
          if toMode.contains Mode.UNOWNED then none
          else if request ≠ .give then none
          else some origFromMode
      else if origFromMode.contains Mode.SHARED then none
      else some origFromMode

/-- The updates of `share_memory`. -/
def shareMemoryUpdate (env : Interference) (request : HfShare) (begin endAddr : Nat)
    (origFromMode : Mode) (t : Transfer S H) : Except Panic (Outcome × Transfer S H) := do
  let (r, t) ← t.mapSender (env 0) begin endAddr request.modes.1
  if r = .err then return (.err, t)
  let (r, t) ← t.clearMemory (fun k => env (k + 1)) begin endAddr
  if r = .err then return (.err, ← t.restoreSender (env 3) begin endAddr origFromMode)
  t.complete (fun k => env (k + 3)) begin endAddr origFromMode request.modes.2

/-- `share_memory` under the locks of both VMs. -/
@[irreducible] def shareMemory (env : Interference) (request : HfShare) (begin endAddr : Nat)
    (t : Transfer S H) : Except Panic (Outcome × Transfer S H) :=
  match shareMemoryCheck request begin endAddr t.fromPtable t.toPtable with
  | none => .ok (.err, t)
  | some origFromMode => shareMemoryUpdate env request begin endAddr origFromMode t

/-! ## `spci_share_memory` -/

structure SpciMemTransitions where
  origFromMode : Mode
  origToMode : Mode
  fromMode : Mode
  toMode : Mode
  deriving DecidableEq, Repr

def donateTransitions : List SpciMemTransitions :=
  [⟨0, Mode.INVALID ||| Mode.UNOWNED, Mode.INVALID ||| Mode.UNOWNED, 0⟩,
    ⟨Mode.INVALID, Mode.UNOWNED, Mode.INVALID ||| Mode.UNOWNED, 0⟩,
    ⟨Mode.SHARED, Mode.UNOWNED ||| Mode.SHARED, Mode.INVALID ||| Mode.UNOWNED, 0⟩,
    ⟨0, Mode.INVALID ||| Mode.UNOWNED ||| Mode.SHARED,
      Mode.INVALID ||| Mode.UNOWNED ||| Mode.SHARED, 0⟩]

def relinquishTransitions : List SpciMemTransitions :=
  [⟨Mode.UNOWNED, Mode.INVALID, Mode.INVALID ||| Mode.UNOWNED ||| Mode.SHARED, 0⟩,
    ⟨Mode.UNOWNED ||| Mode.SHARED, Mode.SHARED, Mode.INVALID ||| Mode.UNOWNED ||| Mode.SHARED, 0⟩]

def sharedLendTransitions : List SpciMemTransitions :=
  [⟨0, Mode.INVALID ||| Mode.UNOWNED ||| Mode.SHARED, Mode.SHARED, Mode.UNOWNED ||| Mode.SHARED⟩,
    ⟨0, Mode.INVALID ||| Mode.UNOWNED, Mode.SHARED, Mode.UNOWNED ||| Mode.SHARED⟩]

def SpciMemoryShare.transitions : SpciMemoryShare → List SpciMemTransitions
  | donate => donateTransitions
  | relinquish => relinquishTransitions
  | lend => sharedLendTransitions

/-- The next modes of sender and recipient, by the first transition that their
states match. -/
def spciMsgGetNextState (transitions : List SpciMemTransitions)
    (memoryToAttributes origFromMode origToMode : Mode) : Option (Mode × Mode) :=
  let origFromState := origFromMode &&& Mode.stateMask
  let origToState := origToMode &&& Mode.stateMask
  transitions.findSome? fun transition =>
    if origFromState = transition.origFromMode ∧ origToState = transition.origToMode then
      some (transition.fromMode ||| ((Mode.all &&& ~~~Mode.stateMask) &&& origFromMode),
        transition.toMode ||| memoryToAttributes)
    else none

/-- The original mode of the sender and the next modes of both VMs, if the
transition is lawful. -/
def spciMsgCheckTransition (toPtable fromPtable : PageTable S) (share : SpciMemoryShare)
    (begin endAddr : Nat) (memoryToAttributes : Mode) : Option (Mode × Mode × Mode) :=
  if !isAligned begin || !isAligned endAddr then none
  else
    (fromPtable.getMode aarch64 begin endAddr).bind fun origFromMode =>
      (toPtable.getMode aarch64 begin endAddr).bind fun origToMode =>
        (spciMsgGetNextState share.transitions memoryToAttributes origFromMode origToMode).map
          fun (fromMode, toMode) => (origFromMode, fromMode, toMode)

/-- The first and the last address of the range to share. -/
def SpciMemoryRegionConstituent.range (c : SpciMemoryRegionConstituent) : Nat × Nat :=
  (c.address, (c.address + c.pageCount * pageSize) % 2 ^ 64)

/-- The updates of `spci_share_memory`. -/
def spciShareMemoryUpdate (env : Interference) (begin endAddr : Nat)
    (origFromMode fromMode toMode : Mode) (t : Transfer S H) :
    Except Panic (SpciReturn × Transfer S H) := do
  let (r, t) ← t.mapSender (env 0) begin endAddr fromMode
  if r = .err then return (.noMemory, t)
  let (r, t) ← t.complete (fun k => env (k + 1)) begin endAddr origFromMode toMode
  return (if r = .err then .noMemory else .success, t)

/-- `spci_share_memory` with the first constituent of the memory region. -/
@[irreducible] def spciShareMemory (env : Interference) (constituent : SpciMemoryRegionConstituent)
    (memoryToAttributes : Mode) (share : SpciMemoryShare) (t : Transfer S H) :
    Except Panic (SpciReturn × Transfer S H) :=
  match spciMsgCheckTransition t.toPtable t.fromPtable share constituent.range.1
      constituent.range.2 memoryToAttributes with
  | none => .ok (.invalidParameters, t)
  | some (origFromMode, fromMode, toMode) =>
    spciShareMemoryUpdate env constituent.range.1 constituent.range.2 origFromMode fromMode
      toMode t

/-! ## Mailbox pages -/

/-- What the configuration of a mailbox works on: the VM's table, that of the
hypervisor, and the local pool. -/
structure MailboxSetup (S H : Stage) where
  ptable : PageTable S
  hypervisorPtable : PageTable H
  pool : MPool

namespace MailboxSetup

/-- Maps a range in the VM's table. -/
def map (env : Pool → Pool) (begin endAddr : Nat) (mode : Mode) (t : MailboxSetup S H) :
    Except Panic (Outcome × MailboxSetup S H) := do
  let (r, ptable, pool) ← t.ptable.identityMapIn env begin endAddr mode t.pool
  return (r, { t with ptable, pool })

/-- The scope guard that gives a page its original mode back. -/
def restore (env : Pool → Pool) (begin endAddr : Nat) (origMode : Mode) (t : MailboxSetup S H) :
    Except Panic (MailboxSetup S H) := do
  unwrap .restore (← t.map env begin endAddr origMode)

def defrag (t : MailboxSetup S H) : MailboxSetup S H :=
  { t with
    ptable := (t.ptable.defrag aarch64 t.pool).1
    pool := (t.ptable.defrag aarch64 t.pool).2 }

def defragHypervisor (t : MailboxSetup S H) : MailboxSetup S H :=
  { t with
    hypervisorPtable := (t.hypervisorPtable.defrag aarch64 t.pool).1
    pool := (t.hypervisorPtable.defrag aarch64 t.pool).2 }

/-- Maps a range in the hypervisor's table. -/
def mapHypervisor (env : Pool → Pool) (begin endAddr : Nat) (mode : Mode) (t : MailboxSetup S H) :
    Except Panic (Outcome × MailboxSetup S H) := do
  let (r, hypervisorPtable, pool) ←
    t.hypervisorPtable.identityMapIn env begin endAddr mode t.pool
  return (r, { t with hypervisorPtable, pool })

/-- The scope guard that removes the send page from the hypervisor's table. -/
def unmapHypervisor (env : Pool → Pool) (begin endAddr : Nat) (t : MailboxSetup S H) :
    Except Panic (MailboxSetup S H) := do
  let (hypervisorPtable, pool) ←
    unwrap .unmap (← t.hypervisorPtable.unmapIn env begin endAddr t.pool)
  return { t with hypervisorPtable, pool }

/-- Maps the send and receive pages in the hypervisor's table. -/
def configureStage1 (env : Interference) (sendBegin sendEnd recvBegin recvEnd : Nat)
    (t : MailboxSetup S H) : Except Panic (Outcome × MailboxSetup S H) := do
  let (r, t) ← t.mapHypervisor (env 0) sendBegin sendEnd Mode.R
  if r = .err then return (.err, t.defragHypervisor)
  let (r, t) ← t.mapHypervisor (env 1) recvBegin recvEnd Mode.W
  if r = .err then return (.err, ← t.defragHypervisor.unmapHypervisor (env 2) sendBegin sendEnd)
  return (.ok, t)

/-- Configures the send and receive pages in the VM's and the hypervisor's
table. -/
def configurePages (env : Interference) (sendBegin sendEnd : Nat) (origSendMode : Mode)
    (recvBegin recvEnd : Nat) (origRecvMode : Mode) (t : MailboxSetup S H) :
    Except Panic (Outcome × MailboxSetup S H) := do
  let (r, t) ← t.map (env 0) sendBegin sendEnd
    (Mode.UNOWNED ||| Mode.SHARED ||| Mode.R ||| Mode.W)
  if r = .err then return (.err, t)
  let (r, t) ← t.map (env 1) recvBegin recvEnd (Mode.UNOWNED ||| Mode.SHARED ||| Mode.R)
  if r = .err then return (.err, ← t.defrag.restore (env 2) sendBegin sendEnd origSendMode)
  let (r, t) ← t.configureStage1 (fun k => env (k + 2)) sendBegin sendEnd recvBegin recvEnd
  if r = .err then
    -- the guards run in the reverse order of their creation
    let t ← t.restore (env 5) recvBegin recvEnd origRecvMode
    return (.err, ← t.restore (env 6) sendBegin sendEnd origSendMode)
  return (.ok, t)

end MailboxSetup

/-- The end of the page at an address. -/
def pageEnd (addr : Nat) : Nat := (addr + pageSize) % 2 ^ 64

/-- The checks of `configure` on the pages: their original modes if the VM owns
them exclusively and has the required access. -/
def configureCheck (send recv : Nat) (ptable : PageTable S) : Option (Mode × Mode) :=
  if !isAligned send || !isAligned recv then none
  else if send = recv then none
  else
    (ptable.getMode aarch64 send (pageEnd send)).bind fun origSendMode =>
      if !(origSendMode.validOwnedExclusive && origSendMode.contains (Mode.R ||| Mode.W)) then none
      else
        (ptable.getMode aarch64 recv (pageEnd recv)).bind fun origRecvMode =>
          if !(origRecvMode.validOwnedExclusive && origRecvMode.contains Mode.R) then none
          else some (origSendMode, origRecvMode)

/-- `configure` for a VM without mailbox pages. -/
@[irreducible] def MailboxSetup.configure (env : Interference) (send recv : Nat)
    (t : MailboxSetup S H) : Except Panic (Outcome × MailboxSetup S H) :=
  match configureCheck send recv t.ptable with
  | none => .ok (.err, t)
  | some (origSendMode, origRecvMode) =>
    t.configurePages env send (pageEnd send) origSendMode recv (pageEnd recv) origRecvMode

end Hafnium
