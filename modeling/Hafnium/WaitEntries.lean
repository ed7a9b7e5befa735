import Hafnium.MailboxProtocol
import Hafnium.Notifications

/-!
# Wait entries

A VM has an array of wait entries, one for each VM it may wait for, indexed by the
id of that VM; the id is recovered from the place of the entry in the array.  Ids
start at 1, so the array has no entry for the last of `MAX_VMS` VMs.
-/

namespace Hafnium

open Support Queue

namespace Hypervisor

variable {M : Machine} {s s' : Hypervisor M} {q : Queue M → List M.VmIndex}

/-- The VM is told that it has to wait, its entry is on the list of the target, and
from then on it identifies both: whenever the entry is the first one on the list of
the target and the mailbox is writable, the primary VM is told the VM that waits and
the entry goes to the ready list of that VM; and whenever it is the first one there,
the VM is told the target.  Entries for other targets are other ones. -/
def Serves (env : Env) (current : VCpuId M) (target : M.VmIndex) (s : Hypervisor M) : Prop :=
  (∃ s₁ q₁, s.spciMsgSend env true current = .ok ((.busy, none), s₁) ∧ s₁.Queued q₁ ∧
    current.vm ∈ q₁ (.waiters target) ∧
    ∀ as s₂ q₂ is, run step as s₁ = some s₂ → s₂.Queued q₂ →
      q₂ (.waiters target) = current.vm :: is →
      (s₂.mailbox target).state = .empty → (s₂.mailbox target).recv ≠ 0 →
      ∀ p : VCpuId M, p.vm = M.primary →
        ∃ s₃ q₃, s₂.mailboxWaiterGet (M.vmId target) p = .ok (some (M.vmId current.vm), s₃) ∧
          s₃.Queued q₃ ∧ target ∈ q₃ (.ready current.vm) ∧
          ∀ as s₄ q₄ is, run step as s₃ = some s₄ → s₄.Queued q₄ →
            q₄ (.ready current.vm) = target :: is →
            ∃ s₅, s₄.mailboxWritableGet current = .ok (some (M.vmId target), s₅)) ∧
  ∀ other, other ≠ target →
    (waiters other).node current.vm ≠ (waiters target).node current.vm ∧
    (ready current.vm).node other ≠ (ready current.vm).node target

/-- The first waiter for a writable mailbox is the one that the primary VM is told. -/
theorem mailboxWaiterGet_front {vm target : M.VmIndex} {is : List M.VmIndex} (hq : s.Queued q)
    (hlist : q (.waiters target) = vm :: is) (hstate : (s.mailbox target).state = .empty)
    (hrecv : (s.mailbox target).recv ≠ 0) {p : VCpuId M} (hp : p.vm = M.primary) :
    ∃ s', s.mailboxWaiterGet (M.vmId target) p = .ok (some (M.vmId vm), s') := by
  have hprimary : ¬M.vmId p.vm ≠ hfPrimaryVmId := by
    rw [not_not, Machine.vmId_eq_primary]
    exact hp
  have hne : ¬s.isWaiterListEmpty target = true := by
    intro hempty
    have hnil : q (.waiters target) = [] := (hq.isEmpty_head (.waiters target)).mp hempty
    rw [hlist] at hnil
    exact absurd hnil (List.cons_ne_nil _ _)
  have hwritable : ¬((s.mailbox target).state ≠ .empty ∨ (s.mailbox target).recv = 0 ∨
      s.isWaiterListEmpty target = true) := by
    rintro (h | h | h)
    · exact h hstate
    · exact hrecv h
    · exact hne h
  obtain ⟨hnode, -⟩ := hq.popFront hlist
  rw [head, node] at hnode
  rw [mailboxWaiterGet, if_neg hprimary, Machine.get_eq_some.mpr rfl]
  dsimp only [bind, Except.bind]
  rw [fetchWaiter, if_neg hwritable]
  dsimp only
  rw [hnode]
  exact ⟨_, rfl⟩

/-- The first entry on the ready list of a VM is that of the VM it is told. -/
theorem mailboxWritableGet_front {current : VCpuId M} {target : M.VmIndex} {is : List M.VmIndex}
    (hq : s.Queued q) (hlist : q (.ready current.vm) = target :: is) :
    ∃ s', s.mailboxWritableGet current = .ok (some (M.vmId target), s') := by
  have hne : ¬s.links.isEmpty (.readyList current.vm) = true := by
    intro hempty
    have hnil : q (.ready current.vm) = [] := (hq.isEmpty_head (.ready current.vm)).mp hempty
    rw [hlist] at hnil
    exact absurd hnil (List.cons_ne_nil _ _)
  have hslot : M.vmId target < maxVms := by
    by_contra hslot
    exact (hq.slots target hslot).2 current.vm (hlist ▸ List.mem_cons_self)
  obtain ⟨hnode, -⟩ := hq.popFront hlist
  rw [head, node] at hnode
  rw [mailboxWritableGet, dequeueReadyList, if_neg hne]
  dsimp only
  rw [hnode]
  dsimp only
  rw [if_pos rfl, Machine.slot_eq hslot]
  exact ⟨_, rfl⟩

variable {env : Env} {current : VCpuId M} {target : M.VmIndex} {msg : SpciMessage}

theorem mem_waiters_of_busy (hq : s.Queued q) (haccepted : s.Accepted current.vm msg target)
    (hsend : s.spciMsgSend env true current = .ok ((.busy, none), s')) :
    ∃ q', s'.Queued q' ∧ current.vm ∈ q' (.waiters target) := by
  obtain ⟨q', hq', -⟩ := spciMsgSend_queue hq hsend
  refine ⟨q', hq', ?_⟩
  have hexec : s.exec env current (.spciMsgSend true) = .ok (⟨.spci .busy, none⟩, s') := by
    rw [exec, hsend]
    rfl
  have hstep : s.step (.call env current (.spciMsgSend true)) = some s' :=
    step_call_eq_some.mpr ⟨_, hexec⟩
  apply (registers hq _ s' q' hstep hq' current.vm target).1
  have htarget : (s.header current.vm).targetVmId = M.vmId target := by
    rw [header, ← haccepted.header, haccepted.target]
  rw [notified, hexec]
  dsimp only
  rw [if_pos ⟨rfl, htarget⟩]
  exact List.mem_singleton.mpr rfl

/-- A waiter that the primary VM is told has the target on its ready list. -/
theorem mem_ready_of_waiterGet {vm : M.VmIndex} (env : Env) (hq : s.Queued q)
    (hget : s.mailboxWaiterGet (M.vmId target) current = .ok (some (M.vmId vm), s')) :
    ∃ q', s'.Queued q' ∧ target ∈ q' (.ready vm) := by
  obtain ⟨q', hq', -⟩ := mailboxWaiterGet_queue hq hget
  refine ⟨q', hq', ?_⟩
  have hexec : s.exec env current (.mailboxWaiterGet (M.vmId target)) =
      .ok (⟨Ret.ofId (some (M.vmId vm)), none⟩, s') := by
    rw [exec, hget]
    rfl
  have hstep : s.step (.call env current (.mailboxWaiterGet (M.vmId target))) = some s' :=
    step_call_eq_some.mpr ⟨_, hexec⟩
  apply (registers hq _ s' q' hstep hq' vm target).2
  rw [returned, hexec]
  dsimp only
  rw [returnedOf_waiters_waiterGet, if_pos rfl, vmOfRet_vmId]
  exact List.mem_singleton.mpr rfl

/-- A VM whose message to a busy mailbox is refused can wait for it if and only if
there is an entry for the id of the target. -/
theorem wait_entries_iff (hq : s.Queued q) (haccepted : s.Accepted current.vm msg target)
    (hbusy : (s.mailbox target).isReady = false) :
    s.Serves env current target ↔ M.vmId target < maxVms := by
  constructor
  · rintro ⟨⟨s₁, -, hsend, -⟩, -⟩
    exact (busy_iff haccepted hbusy).mp ⟨s₁, hsend⟩ rfl
  · intro hslot
    obtain ⟨s₁, hsend⟩ : ∃ s₁, s.spciMsgSend env true current = .ok ((.busy, none), s₁) :=
      (busy_iff haccepted hbusy).mpr fun _ => hslot
    constructor
    · obtain ⟨q₁, hq₁, hmem⟩ := mem_waiters_of_busy hq haccepted hsend
      refine ⟨s₁, q₁, hsend, hq₁, hmem, ?_⟩
      intro as s₂ q₂ is _ hq₂ hlist hstate hrecv p hp
      obtain ⟨s₃, hget⟩ := mailboxWaiterGet_front hq₂ hlist hstate hrecv hp
      obtain ⟨q₃, hq₃, htarget⟩ := mem_ready_of_waiterGet env hq₂ hget
      refine ⟨s₃, q₃, hget, hq₃, htarget, ?_⟩
      intro as s₄ q₄ is _ hq₄ hlist
      exact mailboxWritableGet_front hq₄ hlist
    · intro other hother
      constructor
      · intro h
        exact hother (waiters.inj (node_inj.mp h).1)
      · intro h
        exact hother (node_inj.mp h).2

end Hypervisor

/-! ## Examples -/

/-- Sixteen VMs, of which only the primary one has set up its mailbox; its send page
holds a message to the VM of an id. -/
def waitState (id : BitVec 8) : Hypervisor fullMachine :=
  { fullState with mem := fun a => if a = 0x11008 then id else if a = 0x1100a then 1 else 0 }

/-- The vCPU of the primary VM. -/
def waitVCpu : VCpuId fullMachine := ⟨fullMachine.primary, 0, Nat.one_pos⟩

theorem wait_entries_second : (waitState 2).Serves exampleEnv waitVCpu (1 : Fin 16) := by
  have haccepted : (waitState 2).Accepted fullMachine.primary
      ((waitState 2).header fullMachine.primary) (1 : Fin 16) :=
    ⟨by decide, rfl, by decide +kernel, by decide +kernel, by decide +kernel,
      fun h => absurd (congrArg Fin.val h) (by decide)⟩
  have hiff : (waitState 2).Serves exampleEnv waitVCpu (1 : Fin 16) ↔
      fullMachine.vmId (1 : Fin 16) < maxVms :=
    Hypervisor.wait_entries_iff (queued_of_links rfl) haccepted (by decide)
  exact hiff.mpr (by decide)

/-- There is no entry for the last of sixteen VMs. -/
theorem last_vm_has_no_entry :
    (waitState 16).Queued (fun _ => []) ∧
    (waitState 16).Accepted fullMachine.primary ((waitState 16).header fullMachine.primary)
      (15 : Fin 16) ∧
    ((waitState 16).mailbox (15 : Fin 16)).isReady = false ∧
    (waitState 16).spciMsgSend exampleEnv true waitVCpu = .error .waitEntry ∧
    ¬(waitState 16).Serves exampleEnv waitVCpu (15 : Fin 16) := by
  have hsend : (waitState 16).spciMsgSend exampleEnv true waitVCpu = .error .waitEntry := rfl
  refine ⟨queued_of_links rfl, ⟨by decide, rfl, by decide +kernel, by decide +kernel,
    by decide +kernel, fun h => absurd (congrArg Fin.val h) (by decide)⟩, by decide, hsend, ?_⟩
  rintro ⟨⟨s₁, -, hok, -⟩, -⟩
  rw [hsend] at hok
  contradiction

end Hafnium
