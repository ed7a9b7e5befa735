import Hafnium.Mailboxes

/-!
# Notifications of writable mailboxes

A VM that finds a mailbox busy can wait for it: its entry for the other VM goes to
the waiter list of that VM, from there to its own ready list when the primary VM
asks for waiters, and leaves it when the VM asks for writable mailboxes.  The lists
are linked through the entries; here they are queues of VMs, from which each step
takes at the front and to which it appends.
-/

namespace Hafnium

open Support List Function Hypervisor Machine Option

/-- The wait entry of a VM for another one.  Entries are indexed by id, so the last
of sixteen VMs has none. -/
def Machine.slot {M : Machine} (i : M.VmIndex) : Fin maxVms :=
  ⟨M.vmId i % maxVms, Nat.mod_lt _ (by decide)⟩

theorem Machine.slot_inj {M : Machine} {i j : M.VmIndex} : slot i = slot j ↔ i = j := by
  refine ⟨fun h => ?_, fun h => by rw [h]⟩
  have hi := i.isLt
  have hj := j.isLt
  have hle := M.vmCount_le
  have hmod := congrArg Fin.val h
  rw [Fin.ext_iff]
  simp only [slot, vmId, maxVms, hfVmIdOffset] at hmod hle
  omega

theorem Machine.slot_eq {M : Machine} {i : M.VmIndex} (h : M.vmId i < maxVms) :
    slot i = ⟨M.vmId i, h⟩ := Fin.ext (Nat.mod_eq_of_lt h)

theorem Machine.get_join {M : Machine} {id : Nat} {i : M.VmIndex} :
    (M.get id).toOption.join = some i ↔ M.vmId i = id := by
  rw [← get_eq_some]
  cases M.get id with
  | error p => simp [Except.toOption]
  | ok o => simp [Except.toOption]

/-- The two lists of each mailbox. -/
inductive Queue (M : Machine)
  | waiters (vm : M.VmIndex)
  | ready (vm : M.VmIndex)
  deriving DecidableEq

namespace Queue

variable {M : Machine}

def head : Queue M → ListEntry M
  | waiters target => .waiterList target
  | ready vm => .readyList vm

/-- The link by which a VM is on a list. -/
def node : Queue M → M.VmIndex → ListEntry M
  | waiters target, vm => .waitLinks vm (slot target)
  | ready vm, target => .readyLinks vm (slot target)

theorem node_inj {k k' : Queue M} {i i' : M.VmIndex} : k.node i = k'.node i' ↔ k = k' ∧ i = i' := by
  cases k <;> cases k' <;> simp [node, slot_inj, and_comm]

theorem node_ne_head (k k' : Queue M) (i : M.VmIndex) : k.node i ≠ k'.head := by
  cases k <;> cases k' <;> exact nofun

end Queue

/-- The calls that change the lists. -/
def Call.movesLinks {M : Machine} : Call M → Bool
  | .spciMsgSend _ | .mailboxWritableGet | .mailboxWaiterGet _ => true
  | _ => false

namespace Hypervisor

variable {M : Machine} {s s' : Hypervisor M} {q : Queue M → List M.VmIndex}

/-- The links of the VMs form these queues.  VMs without a wait entry are on none. -/
structure Queued (s : Hypervisor M) (q : Queue M → List M.VmIndex) : Prop where
  links : s.links.Represents Queue.head fun k => (q k).map k.node
  slots : ∀ target, ¬M.vmId target < maxVms →
    q (.waiters target) = [] ∧ ∀ vm, target ∉ q (.ready vm)

namespace Queued

variable (h : s.Queued q)
include h

theorem congr (hlinks : s'.links = s.links) : s'.Queued q := ⟨hlinks ▸ h.links, h.slots⟩

theorem nodup (k : Queue M) : (q k).Nodup :=
  ((nodup_cons.mp (h.links.nodup k)).2).of_map _

theorem isEmpty_head (k : Queue M) : s.links.isEmpty k.head = true ↔ q k = [] := by
  rw [h.links.isEmpty_head k, map_eq_nil_iff]

theorem isEmpty_node (k : Queue M) (i : M.VmIndex) :
    s.links.isEmpty (k.node i) = true ↔ i ∉ q k := by
  rw [h.links.isEmpty_node (k.node i) fun k' => k.node_ne_head k' i]
  constructor
  · exact fun hfree hi => hfree k (mem_map_of_mem hi)
  · intro hi k' hmem
    obtain ⟨i', hi', heq⟩ := mem_map.mp hmem
    obtain ⟨rfl, rfl⟩ := Queue.node_inj.mp heq
    exact hi hi'

theorem append {k : Queue M} {i : M.VmIndex} (hi : i ∉ q k)
    (hslot : M.vmId (match k with | .waiters target => target | .ready _ => i) < maxVms)
    (hlinks : s'.links = s.links.append k.head (k.node i)) :
    s'.Queued (update q k (q k ++ [i])) := by
  have hnode : ∀ k', k.node i ∉ k'.head :: (q k').map k'.node := by
    intro k' hmem
    rcases mem_cons.mp hmem with hhead | hmem
    · exact k.node_ne_head k' i hhead
    · obtain ⟨i', hi', heq⟩ := mem_map.mp hmem
      obtain ⟨rfl, rfl⟩ := Queue.node_inj.mp heq
      exact hi hi'
  refine ⟨?_, fun target htarget => ⟨?_, fun vm => ?_⟩⟩
  · rw [hlinks]
    refine (congrArg (Links.Represents _ Queue.head) ?_).mpr (h.links.append k hnode)
    funext k'
    by_cases hk : k' = k
    · subst hk
      simp
    · simp [hk]
  · by_cases hk : Queue.waiters target = k
    · subst hk
      exact absurd hslot htarget
    · rw [update_of_ne hk]
      exact (h.slots target htarget).1
  · by_cases hk : Queue.ready vm = k
    · subst hk
      rw [update_self, mem_append, mem_singleton]
      rintro (hmem | rfl)
      · exact (h.slots target htarget).2 vm hmem
      · exact htarget hslot
    · rw [update_of_ne hk]
      exact (h.slots target htarget).2 vm

theorem popFront {k : Queue M} {i : M.VmIndex} {is : List M.VmIndex} (hk : q k = i :: is) :
    (s.links.popFront k.head).1 = k.node i ∧
      { s with links := (s.links.popFront k.head).2 }.Queued (update q k is) := by
  have hlist : (q k).map k.node = k.node i :: is.map k.node := by rw [hk, map_cons]
  have hpop := h.links.popFront hlist
  refine ⟨hpop.1, ?_, fun target htarget => ⟨?_, fun vm => ?_⟩⟩
  · refine (congrArg (Links.Represents _ Queue.head) ?_).mpr hpop.2
    funext k'
    by_cases hk' : k' = k
    · subst hk'
      simp
    · simp [hk']
  · by_cases hk' : Queue.waiters target = k
    · subst hk'
      cases hk.symm.trans (h.slots target htarget).1
    · rw [update_of_ne hk']
      exact (h.slots target htarget).1
  · by_cases hk' : Queue.ready vm = k
    · subst hk'
      rw [update_self]
      intro hmem
      exact (h.slots target htarget).2 vm (hk ▸ mem_cons_of_mem _ hmem)
    · rw [update_of_ne hk']
      exact (h.slots target htarget).2 vm

end Queued

/-! ## What calls append and return -/

/-- The VM whose id a call returns. -/
def vmOfRet (ret : Ret) : Option M.VmIndex :=
  match ret with
  | .int id => (M.get id.toNat).toOption.join
  | _ => none

theorem vmOfRet_vmId (i : M.VmIndex) : vmOfRet (Ret.ofId (some (M.vmId i))) = some i := by
  rw [Ret.ofId, vmOfRet, Int.toNat_natCast, get_eq_some.mpr rfl]
  rfl

theorem vmOfRet_none : vmOfRet (Ret.ofId none) = (none : Option M.VmIndex) := rfl

/-- The VMs that a call appends to a list: one that asks for a notification to the
waiters, and the target of a waiter that is returned to its ready list, unless they
are there already. -/
def appendedOf (k : Queue M) (current : VCpuId M) (call : Call M) (s : Hypervisor M)
    (reply : Reply M) : List M.VmIndex :=
  match k, call with
  | .waiters target, .spciMsgSend true =>
    if reply.ret = .spci .busy ∧ (s.header current.vm).targetVmId = M.vmId target ∧
        s.links.isEmpty (k.node current.vm) = true then [current.vm]
    else []
  | .ready vm, .mailboxWaiterGet id =>
    match (M.get id).toOption.join with
    | some target =>
      if vmOfRet reply.ret = some vm ∧ s.links.isEmpty (k.node target) = true then [target]
      else []
    | none => []
  | _, _ => []

/-- The VMs that a call returns from a list. -/
def returnedOf (k : Queue M) (current : VCpuId M) (call : Call M) (reply : Reply M) :
    List M.VmIndex :=
  match k, call with
  | .waiters target, .mailboxWaiterGet id =>
    if M.vmId target = id then (vmOfRet reply.ret).toList else []
  | .ready vm, .mailboxWritableGet =>
    if current.vm = vm then (vmOfRet reply.ret).toList else []
  | _, _ => []

section WaiterGet

variable {vm target : M.VmIndex} {current : VCpuId M} {id : Nat} {reply : Reply M}

@[simp] theorem appendedOf_waiters_waiterGet :
    s.appendedOf (.waiters target) current (.mailboxWaiterGet id) reply = [] := rfl

@[simp] theorem returnedOf_ready_waiterGet :
    returnedOf (.ready vm) current (.mailboxWaiterGet id) reply = [] := rfl

@[simp] theorem returnedOf_waiters_waiterGet :
    returnedOf (.waiters target) current (.mailboxWaiterGet id) reply =
      if M.vmId target = id then (vmOfRet reply.ret).toList else [] := rfl

theorem appendedOf_ready_waiterGet (hget : M.get id = .ok (some target)) :
    s.appendedOf (.ready vm) current (.mailboxWaiterGet id) reply =
      if vmOfRet reply.ret = some vm ∧ s.links.isEmpty ((Queue.ready vm).node target) = true then
        [target]
      else [] := by
  rw [appendedOf, hget]
  rfl

theorem appendedOf_of_vmOfRet_eq_none (k : Queue M)
    (hret : vmOfRet reply.ret = (none : Option M.VmIndex)) :
    s.appendedOf k current (.mailboxWaiterGet id) reply = [] := by
  cases k with
  | waiters target => rfl
  | ready vm =>
    rw [appendedOf]
    split
    · rw [hret, if_neg fun h => absurd h.1 nofun]
    · rfl

end WaiterGet

/-- The queues after a call. -/
def QueueMove (q : Queue M → List M.VmIndex) (current : VCpuId M) (call : Call M)
    (s : Hypervisor M) (reply : Reply M) (s' : Hypervisor M) : Prop :=
  ∃ q', s'.Queued q' ∧
    ∀ k, q k ++ s.appendedOf k current call reply = returnedOf k current call reply ++ q' k

variable {env : Env} {current : VCpuId M}

theorem Delivery.ne_busy {i j : M.VmIndex} {msg : SpciMessage} {ret : SpciReturn}
    (h : s.Delivery env i j msg current ret s') : ret ≠ .busy := by
  cases h with
  | impdef | short | mismatch => exact nofun
  | shared _ _ _ _ _ call => exact (spciShareMemory_ret _ _ _ _ _).of_ok call

theorem waitFor_queue {i j : M.VmIndex} (hq : s.Queued q) (h : s.waitFor i j = .ok s') :
    (i ∈ q (.waiters j) ∧ s' = s) ∨ (i ∉ q (.waiters j) ∧
        s'.Queued (update q (.waiters j) (q (.waiters j) ++ [i]))) := by
  rw [waitFor] at h
  split at h
  · rename_i hj
    have hnode : ListEntry.waitLinks i ⟨M.vmId j, hj⟩ = (Queue.waiters j).node i := by
      rw [Queue.node, slot_eq hj]
    dsimp only at h
    rw [hnode] at h
    have hempty := hq.isEmpty_node (.waiters j) i
    split at h
    · rename_i hlinked
      rw [Bool.not_eq_true'] at hlinked
      cases h
      refine Or.inl ⟨?_, rfl⟩
      by_contra hi
      rw [hempty.mpr hi] at hlinked
      contradiction
    · rename_i hfree
      rw [Bool.not_eq_true', Bool.not_eq_false] at hfree
      cases h
      exact Or.inr ⟨hempty.mp hfree, hq.append (hempty.mp hfree) hj rfl⟩
  · cases h

/-- What a message that is refused as busy appends. -/
theorem appendedOf_busy {j : M.VmIndex} {next : Option (VCpuId M)} (hq : s.Queued q)
    (htarget : (s.header current.vm).targetVmId = M.vmId j) (k : Queue M) :
    s.appendedOf k current (.spciMsgSend true) ⟨.spci .busy, next⟩ =
      if k = .waiters j ∧ current.vm ∉ q k then [current.vm] else [] := by
  cases k with
  | ready vm =>
    rw [if_neg fun h => absurd h.1 nofun]
    rfl
  | waiters target =>
    refine if_congr ?_ rfl rfl
    rw [htarget, hq.isEmpty_node, vmId_inj, Queue.waiters.injEq, eq_comm (a := j)]
    exact and_iff_right rfl

theorem spciMsgSend_queue {notify : Bool} {ret : SpciReturn} {next : Option (VCpuId M)}
    (hq : s.Queued q) (h : s.spciMsgSend env notify current = .ok ((ret, next), s')) :
    s.QueueMove q current (.spciMsgSend notify) ⟨.spci ret, next⟩ s' := by
  have hreturned : ∀ k : Queue M,
      returnedOf k current (.spciMsgSend notify) ⟨.spci ret, next⟩ = [] := by
    intro k
    cases k <;> rfl
  have hother : ret ≠ .busy → s'.links = s.links →
      s.QueueMove q current (.spciMsgSend notify) ⟨.spci ret, next⟩ s' := by
    intro hret hlinks
    refine ⟨q, hq.congr hlinks, fun k => ?_⟩
    have happended : s.appendedOf k current (.spciMsgSend notify) ⟨.spci ret, next⟩ = [] := by
      cases k with
      | ready vm => rfl
      | waiters target =>
        cases notify with
        | false => rfl
        | true => exact if_neg fun h => hret (Ret.spci.inj h.1)
    rw [happended, hreturned, append_nil, nil_append]
  cases spciMsgSend_cases h with
  | refused => exact hother nofun rfl
  | failed _ _ delivery _ => exact hother delivery.ne_busy delivery.sameVms.links
  | sent _ _ delivery notified =>
    have hquiet := (spciMsgNotify_post env.timer current.vm _ current _).of_ok notified
    exact hother nofun (hquiet.links.trans delivery.sameVms.links)
  | @busy msg j _ check _ wait =>
    have haccepted := spciMsgSendCheck_eq_some.mp check
    have htarget : (s.header current.vm).targetVmId = M.vmId j := by
      rw [header, ← haccepted.header, haccepted.target]
    cases notify with
    | false =>
      obtain rfl : s' = s := wait
      refine ⟨q, hq, fun k => ?_⟩
      cases k <;> exact append_nil _
    | true =>
      rcases waitFor_queue hq wait with ⟨hmem, rfl⟩ | ⟨hnot, hq'⟩
      · refine ⟨q, hq, fun k => ?_⟩
        have hlisted : ¬(k = .waiters j ∧ current.vm ∉ q k) := by
          rintro ⟨rfl, h⟩
          exact h hmem
        rw [appendedOf_busy hq htarget, if_neg hlisted, hreturned, append_nil, nil_append]
      · refine ⟨_, hq', fun k => ?_⟩
        rw [appendedOf_busy hq htarget, hreturned, nil_append]
        by_cases hk : k = .waiters j
        · subst hk
          rw [if_pos ⟨rfl, hnot⟩, update_self]
        · rw [if_neg fun h => hk h.1, update_of_ne hk, append_nil]

theorem mailboxWritableGet_queue {id : Option Nat} (hq : s.Queued q)
    (h : s.mailboxWritableGet current = .ok (id, s')) :
    s.QueueMove q current .mailboxWritableGet ⟨Ret.ofId id, none⟩ s' := by
  have happended : ∀ k : Queue M,
      s.appendedOf k current .mailboxWritableGet ⟨Ret.ofId id, none⟩ = [] := by
    intro k
    cases k <;> rfl
  rw [mailboxWritableGet, dequeueReadyList] at h
  split at h
  · cases h
    refine ⟨q, hq, fun k => ?_⟩
    rw [happended, append_nil]
    cases k with
    | waiters target => rfl
    | ready vm =>
      rw [returnedOf, vmOfRet_none, toList_none, ite_self, nil_append]
  · rename_i hne
    obtain ⟨target, is, hlist⟩ : ∃ target is, q (.ready current.vm) = target :: is :=
      exists_cons_of_ne_nil fun hnil => hne ((hq.isEmpty_head (.ready current.vm)).mpr hnil)
    have hslot : M.vmId target < maxVms := by
      by_contra hslot
      exact (hq.slots target hslot).2 current.vm (hlist ▸ mem_cons_self)
    obtain ⟨hnode, hq'⟩ := hq.popFront hlist
    rw [Queue.head] at hnode hq'
    dsimp only at h
    rw [hnode, Queue.node] at h
    dsimp only at h
    rw [if_pos rfl, slot_eq hslot] at h
    cases h
    refine ⟨_, hq', fun k => ?_⟩
    rw [happended, append_nil]
    cases k with
    | waiters vm =>
      have hne : Queue.waiters vm ≠ .ready current.vm := by simp
      rw [update_of_ne hne]
      rfl
    | ready vm =>
      by_cases hvm : current.vm = vm
      · subst hvm
        rw [update_self, hlist, returnedOf, if_pos rfl, vmOfRet_vmId]
        rfl
      · rw [update_of_ne fun h => hvm (Queue.ready.inj h).symm, returnedOf, if_neg hvm, nil_append]

variable {vm target : M.VmIndex}

/-- A waiter that is returned has its target appended to its ready list. -/
theorem waiter_queue {id : Nat} {is : List M.VmIndex} {s₁ : Hypervisor M}
    (hq : s.Queued q) (hget : M.get id = .ok (some target)) (hslot : M.vmId target < maxVms)
    (hlist : q (.waiters target) = vm :: is)
    (hq₁ : s₁.Queued (update q (.waiters target) is)) :
    s.QueueMove q current (.mailboxWaiterGet id) ⟨Ret.ofId (some (M.vmId vm)), none⟩
      (if s₁.links.isEmpty (.readyLinks vm (slot target)) then
        s₁.enqueueReadyList vm (slot target) else s₁) := by
  have hid := get_eq_some.mp hget
  have hready : ∀ v, update q (.waiters target) is (.ready v) = q (.ready v) := by
    intro v
    rw [update_of_ne (by exact nofun)]
  have hwaiters : ∀ t, q (.waiters t) = returnedOf (.waiters t) current (.mailboxWaiterGet id)
      ⟨Ret.ofId (some (M.vmId vm)), none⟩ ++ update q (.waiters target) is (.waiters t) := by
    intro t
    rw [returnedOf_waiters_waiterGet, vmOfRet_vmId]
    by_cases ht : t = target
    · rw [ht, if_pos hid, update_self, hlist]
      rfl
    · rw [if_neg fun h => ht (vmId_inj.mp (h.trans hid.symm)),
        update_of_ne fun h => ht (Queue.waiters.inj h), nil_append]
  have happended : ∀ v, s.appendedOf (.ready v) current (.mailboxWaiterGet id)
      ⟨Ret.ofId (some (M.vmId vm)), none⟩ =
        if v = vm ∧ target ∉ q (.ready vm) then [target] else [] := by
    intro v
    rw [appendedOf_ready_waiterGet hget, vmOfRet_vmId]
    refine if_congr ?_ rfl rfl
    rw [some.injEq, eq_comm]
    refine and_congr_right fun hv => ?_
    rw [hv, hq.isEmpty_node]
  have hempty := hq₁.isEmpty_node (.ready vm) target
  rw [hready] at hempty
  by_cases hlisted : target ∈ q (.ready vm)
  · refine ⟨_, hq₁.congr ?_, fun k => ?_⟩
    · exact congrArg links (if_neg fun h => hempty.mp h hlisted)
    cases k with
    | waiters t =>
      rw [appendedOf_waiters_waiterGet, append_nil]
      exact hwaiters t
    | ready v => rw [happended, if_neg fun h => h.2 hlisted, hready, append_nil,
        returnedOf_ready_waiterGet, nil_append]
  · refine ⟨_, hq₁.append (k := .ready vm) (i := target) ?_ hslot ?_, fun k => ?_⟩
    · rw [hready]
      exact hlisted
    · exact congrArg links (if_pos (hempty.mpr hlisted))
    cases k with
    | waiters t =>
      rw [appendedOf_waiters_waiterGet, append_nil, update_of_ne (by exact nofun)]
      exact hwaiters t
    | ready v =>
      rw [happended, returnedOf_ready_waiterGet, nil_append]
      by_cases hv : v = vm
      · rw [hv, if_pos ⟨rfl, hlisted⟩, update_self, hready]
      · rw [if_neg fun h => hv h.1, update_of_ne fun h => hv (Queue.ready.inj h),
          hready, append_nil]

theorem mailboxWaiterGet_queue {id : Nat} {waiter : Option Nat} (hq : s.Queued q)
    (h : s.mailboxWaiterGet id current = .ok (waiter, s')) :
    s.QueueMove q current (.mailboxWaiterGet id) ⟨Ret.ofId waiter, none⟩ s' := by
  have hnone : waiter = none → s' = s →
      s.QueueMove q current (.mailboxWaiterGet id) ⟨Ret.ofId waiter, none⟩ s' := by
    rintro rfl rfl
    refine ⟨q, hq, fun k => ?_⟩
    rw [appendedOf_of_vmOfRet_eq_none k rfl, append_nil]
    cases k with
    | waiters target =>
      rw [returnedOf_waiters_waiterGet, vmOfRet_none, toList_none, ite_self, nil_append]
    | ready vm => rfl
  rw [mailboxWaiterGet] at h
  split at h
  · cases h
    exact hnone rfl rfl
  obtain ⟨_ | target, hget, hrest⟩ := bind_eq_ok.mp h
  · cases hrest
    exact hnone rfl rfl
  obtain ⟨⟨entry, s₁⟩, hfetch, hrest⟩ := bind_eq_ok.mp hrest
  rw [fetchWaiter] at hfetch
  split at hfetch
  · cases hfetch
    cases hrest
    exact hnone rfl rfl
  rename_i hwritable
  rw [not_or, not_or] at hwritable
  obtain ⟨vm, is, hlist⟩ : ∃ vm is, q (.waiters target) = vm :: is :=
    exists_cons_of_ne_nil fun hnil =>
      hwritable.2.2 ((hq.isEmpty_head (.waiters target)).mpr hnil)
  have hslot : M.vmId target < maxVms := by
    by_contra hslot
    cases hlist.symm.trans (hq.slots target hslot).1
  obtain ⟨hnode, hq₁⟩ := hq.popFront hlist
  rw [Queue.head] at hnode hq₁
  dsimp only at hfetch
  rw [hnode, Queue.node] at hfetch
  cases hfetch
  cases hrest
  exact waiter_queue hq hget hslot hlist hq₁

theorem exec_links (env : Env) (current : VCpuId M) {call : Call M} (s : Hypervisor M)
    (hcall : call.movesLinks = false) :
    Post (s.exec env current call) (fun _ => True) fun r => r.2.links = s.links := by
  cases call with
  | spciMsgSend | mailboxWritableGet | mailboxWaiterGet => contradiction
  | spciMsgRecv block =>
    refine Post.bind (spciMsgRecv_post env.timer current s block).weaken ?_
    rintro ⟨⟨ret, next⟩, s'⟩ (⟨-, -, -, hs'⟩ | ⟨-, hquiet⟩)
    · dsimp only at hs'
      subst hs'
      rfl
    · exact hquiet.links
  | vcpuRun vmId vcpuIdx =>
    refine Post.bind (vcpuRun_post env.timer current s vmId vcpuIdx).weaken ?_
    rintro ⟨r, s'⟩ (⟨hquiet, -⟩ | ⟨v, -, -, -, hquiet⟩)
    · exact hquiet.links
    · exact hquiet.links
  | mailboxClear =>
    refine Post.bind (mailboxClear_post env.timer current s).weaken ?_
    rintro ⟨⟨ret, next⟩, s'⟩ (⟨-, hs'⟩ | ⟨-, hquiet, -⟩)
    · dsimp only at hs'
      subst hs'
      rfl
    · exact hquiet.links
  | vmConfigure send recv =>
    refine Post.bind (vmConfigure_post current s env send recv) ?_
    rintro ⟨⟨ret, next⟩, s'⟩ (⟨-, hsame⟩ | ⟨-, s₁, hsame, hquiet, -⟩)
    · exact hsame.links
    · exact hquiet.links.trans hsame.links
  | shareMemory vmId addr size code =>
    rw [exec]
    dsimp only
    split
    · rfl
    · exact Post.bind (shareMemory_sameVms current s env vmId addr size _) fun r hr => hr.links
  | preempt | waitForInterrupt | vcpuOff | spciYield | wakeUp | abort | vcpuGetCount
  | regsStateSaved | interruptEnable | interruptGet | interruptInject =>
    exact (exec_quiet current s env rfl).mono (fun _ h => h) fun r hr => hr.links

theorem exec_queue (env : Env) (current : VCpuId M) (call : Call M) (hq : s.Queued q) :
    Post (s.exec env current call) (fun _ => True) fun r =>
      s.QueueMove q current call r.1 r.2 := by
  cases call with
  | spciMsgSend notify =>
    refine Post.bind_ok ?_
    rintro ⟨⟨ret, next⟩, s'⟩ h
    exact spciMsgSend_queue hq h
  | mailboxWritableGet =>
    refine Post.bind_ok ?_
    rintro ⟨id, s'⟩ h
    exact mailboxWritableGet_queue hq h
  | mailboxWaiterGet vmId =>
    refine Post.bind_ok ?_
    rintro ⟨id, s'⟩ h
    exact mailboxWaiterGet_queue hq h
  | spciMsgRecv | vcpuRun | mailboxClear | vmConfigure | shareMemory | preempt | waitForInterrupt
  | vcpuOff | spciYield | wakeUp | abort | vcpuGetCount | regsStateSaved | interruptEnable
  | interruptGet | interruptInject =>
    refine (exec_links env current s rfl).mono (fun _ h => h) fun r hr => ?_
    refine ⟨q, hq.congr hr, fun k => ?_⟩
    cases k <;> exact append_nil _

/-! ## Runs -/

def appended (k : Queue M) (s : Hypervisor M) : Action M → List M.VmIndex
  | .call env current call =>
    match s.exec env current call with
    | .ok (reply, _) => s.appendedOf k current call reply
    | .error _ => []
  | .guest _ | .pool _ => []

def returned (k : Queue M) (s : Hypervisor M) : Action M → List M.VmIndex
  | .call env current call =>
    match s.exec env current call with
    | .ok (reply, _) => returnedOf k current call reply
    | .error _ => []
  | .guest _ | .pool _ => []

/-- The VM whose message to the target is refused as busy, with a notification
asked for. -/
def notified (target : M.VmIndex) (s : Hypervisor M) : Action M → List M.VmIndex
  | .call env current (.spciMsgSend true) =>
    match s.exec env current (.spciMsgSend true) with
    | .ok (reply, _) =>
      if reply.ret = .spci .busy ∧ (s.header current.vm).targetVmId = M.vmId target then
        [current.vm]
      else []
    | .error _ => []
  | _ => []

theorem step_queue {a : Action M} (hq : s.Queued q) (h : s.step a = some s') :
    ∃ q', s'.Queued q' ∧ ∀ k, q k ++ s.appended k a = s.returned k a ++ q' k := by
  cases a with
  | call env current call =>
    obtain ⟨reply, hexec⟩ := step_call_eq_some.mp h
    obtain ⟨q', hq', hmove⟩ := (exec_queue env current call hq).of_ok hexec
    refine ⟨q', hq', fun k => ?_⟩
    rw [appended, returned, hexec]
    exact hmove k
  | guest mem | pool mpool =>
    cases h
    exact ⟨q, hq.congr rfl, fun k => append_nil _⟩

/-- A VM that asks for a notification is on the waiter list of the target
afterwards; a waiter that is returned has the target on its ready list. -/
def Registers (s : Hypervisor M) (a : Action M) : Prop :=
  ∀ s' q', s.step a = some s' → s'.Queued q' → ∀ vm target,
    (vm ∈ s.notified target a → vm ∈ q' (.waiters target)) ∧
    (vm ∈ s.returned (.waiters target) a → target ∈ q' (.ready vm))

/-- A call that makes a mailbox writable reports it if there are waiters: to the
primary VM by its result, to a secondary VM by telling the primary VM. -/
def Reports (s : Hypervisor M) (a : Action M) : Prop :=
  ∀ env current call reply s' q, a = .call env current call →
    (call = .mailboxClear ∨ ∃ send recv, call = .vmConfigure send recv) →
    s.exec env current call = .ok (reply, s') → s.Queued q →
    (s.mailbox current.vm).isReady = false → (s'.mailbox current.vm).isReady = true →
    q (.waiters current.vm) ≠ [] → (current.vm = M.primary ∧ reply = ⟨.int 1, none⟩) ∨
      (current.vm ≠ M.primary ∧ ∃ v, v.vm = M.primary ∧ reply = ⟨.int 0, some v⟩ ∧
        (s'.vcpu v).regs.retvals = HfVCpuRunReturn.notifyWaiters.intoRaw :: (s.vcpu v).regs.retvals)

theorem Queued.mem_iff {q' : Queue M → List M.VmIndex} (h : s.Queued q) (h' : s.Queued q')
    {k : Queue M} {i : M.VmIndex} : i ∈ q k ↔ i ∈ q' k := by
  rw [← not_iff_not, ← h.isEmpty_node, h'.isEmpty_node]

theorem mem_notified {a : Action M} (h : vm ∈ s.notified target a) :
    ∃ env current reply s', a = .call env current (.spciMsgSend true) ∧
      s.exec env current (.spciMsgSend true) = .ok (reply, s') ∧ reply.ret = .spci .busy ∧
      (s.header current.vm).targetVmId = M.vmId target ∧ vm = current.vm := by
  unfold notified at h
  split at h
  · split at h
    · split at h
      · rename_i env current _ reply s' hexec hbusy
        exact ⟨env, current, reply, s', rfl, hexec, hbusy.1, hbusy.2, mem_singleton.mp h⟩
      · exact absurd h not_mem_nil
    · exact absurd h not_mem_nil
  · exact absurd h not_mem_nil

theorem mem_returned_waiters {a : Action M} (h : vm ∈ s.returned (.waiters target) a) :
    ∃ env current reply s', a = .call env current (.mailboxWaiterGet (M.vmId target)) ∧
      s.exec env current (.mailboxWaiterGet (M.vmId target)) = .ok (reply, s') ∧
      vmOfRet reply.ret = some vm := by
  cases a with
  | guest mem | pool mpool => exact absurd h not_mem_nil
  | call env current call =>
    rw [returned] at h
    split at h
    · rename_i reply s' hexec
      cases call with
      | mailboxWaiterGet id =>
        rw [returnedOf_waiters_waiterGet] at h
        split at h
        · rename_i hid
          subst hid
          exact ⟨env, current, reply, s', rfl, hexec, mem_toList.mp h⟩
        · exact absurd h not_mem_nil
      | spciMsgSend | mailboxWritableGet | spciMsgRecv | vcpuRun | mailboxClear | vmConfigure
      | shareMemory | preempt | waitForInterrupt | vcpuOff | spciYield | wakeUp | abort
      | vcpuGetCount | regsStateSaved | interruptEnable | interruptGet | interruptInject =>
        exact absurd h not_mem_nil
    · exact absurd h not_mem_nil

theorem registers (hq : s.Queued q) (a : Action M) : s.Registers a := by
  intro s' q'' h hq'' vm target
  obtain ⟨q', hq', hmove⟩ := step_queue hq h
  rw [hq''.mem_iff hq', hq''.mem_iff hq']
  constructor
  · intro hnotified
    obtain ⟨env, current, reply, s₁, rfl, hexec, hbusy, htarget, rfl⟩ := mem_notified hnotified
    have hmove := hmove (.waiters target)
    rw [appended, returned, hexec] at hmove
    dsimp only [appendedOf, returnedOf] at hmove
    rw [← nil_append (q' _), ← hmove]
    by_cases hmem : current.vm ∈ q (.waiters target)
    · exact mem_append_left _ hmem
    · rw [if_pos ⟨hbusy, htarget, (hq.isEmpty_node _ _).mpr hmem⟩]
      exact mem_append_right _ (mem_singleton.mpr rfl)
  · intro hreturned
    obtain ⟨env, current, reply, s₁, rfl, hexec, hret⟩ := mem_returned_waiters hreturned
    have hmove := hmove (.ready vm)
    rw [appended, returned, hexec] at hmove
    dsimp only at hmove
    rw [appendedOf_ready_waiterGet (get_eq_some.mpr rfl), returnedOf_ready_waiterGet,
      nil_append] at hmove
    rw [← hmove]
    by_cases hmem : target ∈ q (.ready vm)
    · exact mem_append_left _ hmem
    · rw [if_pos ⟨hret, (hq.isEmpty_node _ _).mpr hmem⟩]
      exact mem_append_right _ (mem_singleton.mpr rfl)

/-- What a VM is told if there are waiters. -/
theorem Told.report {i : M.VmIndex} {r : (Int × Option (VCpuId M)) × Hypervisor M}
    (h : s.Told i r) (hwaiters : s.isWaiterListEmpty i = false) :
    (i = M.primary ∧ r.1 = (1, none)) ∨ (i ≠ M.primary ∧ ∃ v, v.vm = M.primary ∧ r.1 = (0, some v) ∧
        (r.2.vcpu v).regs.retvals =
          HfVCpuRunReturn.notifyWaiters.intoRaw :: (s.vcpu v).regs.retvals) := by
  obtain ⟨-, ⟨hempty, -⟩ | ⟨-, hi, hr⟩ | ⟨-, hi, v, hr, hv, hretvals⟩⟩ := h
  · cases hempty.symm.trans hwaiters
  · exact Or.inl ⟨hi, hr⟩
  · exact Or.inr ⟨hi, v, hv, hr, hretvals⟩

theorem reports (s : Hypervisor M) (a : Action M) : s.Reports a := by
  rintro env current call reply s' q rfl hcall hexec hq hnot hready hwaiters
  have hempty : s.isWaiterListEmpty current.vm = false := by
    by_contra h
    exact hwaiters ((hq.isEmpty_head (.waiters current.vm)).mp (Bool.eq_true_of_not_eq_false h))
  rcases hcall with rfl | ⟨send, recv, rfl⟩
  · obtain ⟨⟨⟨ret, next⟩, s₁⟩, hclear, hreply⟩ := bind_eq_ok.mp hexec
    cases hreply
    rcases (mailboxClear_post env.timer current s).of_ok hclear with ⟨-, hs₁⟩ | ⟨-, htold⟩
    · dsimp only at hs₁
      subst hs₁
      cases hready.symm.trans hnot
    · rcases htold.report hempty with ⟨hi, hr⟩ | ⟨hi, v, hv, hr, hretvals⟩
      · cases hr
        exact Or.inl ⟨hi, rfl⟩
      · cases hr
        exact Or.inr ⟨hi, v, hv, rfl, hretvals⟩
  · obtain ⟨⟨⟨ret, next⟩, s₁⟩, hconfigure, hreply⟩ := bind_eq_ok.mp hexec
    cases hreply
    rcases (vmConfigure_post current s env send recv).of_ok hconfigure with
      ⟨-, hsame⟩ | ⟨-, s₂, hsame, htold⟩
    · rw [hsame.mailbox] at hready
      cases hready.symm.trans hnot
    · have hempty' : (s₂.setMailbox current.vm
          { s.mailbox current.vm with send, recv }).isWaiterListEmpty current.vm = false := by
        rw [← hempty]
        exact congrArg (Links.isEmpty _) hsame.links
      rcases htold.report hempty' with ⟨hi, hr⟩ | ⟨hi, v, hv, hr, hretvals⟩
      · cases hr
        exact Or.inl ⟨hi, rfl⟩
      · cases hr
        refine Or.inr ⟨hi, v, hv, rfl, hretvals.trans ?_⟩
        exact congrArg _ (hsame.retvals v)

theorem appended_length (k : Queue M) (s : Hypervisor M) (a : Action M) :
    (s.appended k a).length ≤ 1 := by
  cases a with
  | guest mem | pool mpool => exact Nat.zero_le 1
  | call env current call =>
    rw [appended]
    split
    · unfold appendedOf
      split
      · split
        · exact le_rfl
        · exact Nat.zero_le 1
      · split
        · split
          · exact le_rfl
          · exact Nat.zero_le 1
        · exact Nat.zero_le 1
      · exact Nat.zero_le 1
    · exact Nat.zero_le 1

theorem notified_of_appended {a : Action M}
    (h : vm ∈ s.appended (.waiters target) a) : vm ∈ s.notified target a := by
  cases a with
  | guest mem | pool mpool => exact absurd h not_mem_nil
  | call env current call =>
    rw [appended] at h
    split at h
    · rename_i reply s' hexec
      unfold appendedOf at h
      split at h
      · rename_i hk
        cases hk
        split at h
        · rename_i hbusy
          rw [notified, hexec]
          dsimp only
          rwa [if_pos ⟨hbusy.1, hbusy.2.1⟩]
        · exact absurd h not_mem_nil
      · rename_i hk
        contradiction
      · exact absurd h not_mem_nil
    · exact absurd h not_mem_nil

theorem returned_of_appended {a : Action M}
    (h : target ∈ s.appended (.ready vm) a) : vm ∈ s.returned (.waiters target) a := by
  cases a with
  | guest mem | pool mpool => exact absurd h not_mem_nil
  | call env current call =>
    rw [appended] at h
    split at h
    · rename_i reply s' hexec
      unfold appendedOf at h
      split at h
      · rename_i hk
        contradiction
      · rename_i v id hk
        cases hk
        split at h
        · rename_i t hget
          split at h
          · rename_i hret
            obtain rfl := mem_singleton.mp h
            rw [returned, hexec]
            dsimp only
            rw [returnedOf_waiters_waiterGet, if_pos (get_join.mp hget), hret.1]
            exact mem_singleton.mpr rfl
          · exact absurd h not_mem_nil
        · exact absurd h not_mem_nil
      · exact absurd h not_mem_nil
    · exact absurd h not_mem_nil

/-- In every run VMs leave the lists in the order in which they were appended, none
is on a list twice, and none is lost: a VM that asks for a notification is on the
waiter list until it is returned from there, and from then on the target is on its
ready list until it is returned.  Calls that make a mailbox writable report it if
there are waiters.  A mailbox is returned as writable at most as often as a
notification was asked for. -/
theorem notifications_kept {as : List (Action M)} (hq : s.Queued q)
    (hrun : run step as s = some s') :
    ∃ q', s'.Queued q' ∧
      (∀ k, q k ++ trace step (appended k) as s = trace step (returned k) as s ++ q' k) ∧
      (∀ k, (q' k).Nodup) ∧
      (∀ k i, i ∈ q k → i ∈ trace step (returned k) as s ∨ i ∈ q' k) ∧
      Always step Registers as s ∧ Always step Reports as s ∧
      ∀ vm target, (trace step (returned (.ready vm)) as s).count target ≤
        (q (.ready vm)).count target + (q (.waiters target)).count vm +
          (trace step (notified target) as s).count vm := by
  have hstep : ∀ (s : Hypervisor M) (q : Queue M → List M.VmIndex) (a : Action M)
      (s' : Hypervisor M), s.Queued q → s.step a = some s' →
        ∃ q', s'.Queued q' ∧ ∀ k, q k ++ s.appended k a = s.returned k a ++ q' k :=
    fun _ _ _ _ hq h => step_queue hq h
  obtain ⟨q', hq', hqueue⟩ := run_queue (fun (q : Queue M → List M.VmIndex) k => q k) appended
    returned hstep hq hrun
  refine ⟨q', hq', hqueue, hq'.nodup, fun k i hi => ?_, ?_, ?_, fun vm target => ?_⟩
  · rw [← List.mem_append, ← hqueue k]
    exact List.mem_append_left _ hi
  · refine always_of_invariant (fun s => ∃ q, s.Queued q) (G := fun _ => True) ?_ ?_ ⟨q, hq⟩
      fun _ _ => trivial
    · rintro s a s' ⟨q, hq⟩ - h
      obtain ⟨q', hq', -⟩ := step_queue hq h
      exact ⟨q', hq'⟩
    · rintro s a ⟨q, hq⟩ -
      exact registers hq a
  · exact always_of_invariant (fun _ => True) (G := fun _ => True) (fun _ _ _ _ _ _ => trivial)
      (fun s a _ _ => reports s a) trivial fun _ _ => trivial
  · have hready := congrArg (List.count target) (hqueue (.ready vm))
    have hwaiters := congrArg (List.count vm) (hqueue (.waiters target))
    rw [List.count_append, List.count_append] at hready hwaiters
    have hmoved : (trace step (appended (.ready vm)) as s).count target ≤
        (trace step (returned (.waiters target)) as s).count vm :=
      count_trace_le (appended_length (.ready vm)) (fun _ _ => returned_of_appended) as s
    have hnotified : (trace step (appended (.waiters target)) as s).count vm ≤
        (trace step (notified target) as s).count vm :=
      count_trace_le (appended_length (.waiters target)) (fun _ _ => notified_of_appended) as s
    omega

end Hypervisor

/-! ## Examples -/

theorem queued_of_links {M : Machine} {s : Hypervisor M} (h : s.links = ⟨id, id⟩) :
    s.Queued fun _ => [] := by
  refine ⟨⟨fun k => ?_, fun k => nodup_singleton _, fun k k' x hk hk' => ?_, fun x _ => ?_⟩,
    fun target _ => ⟨rfl, fun vm => not_mem_nil⟩⟩
  · rw [h]
    exact ⟨rfl, rfl⟩
  · have hhead := (mem_singleton.mp hk).symm.trans (mem_singleton.mp hk')
    cases k <;> cases k' <;> cases hhead <;> rfl
  · rw [h]
    exact ⟨rfl, rfl⟩

/-- The second VM waits for the third one, and again while it still has the third
one on its ready list, from which it then takes it. -/
def exampleWait : List (Action exampleMachine) :=
  [.call exampleEnv (exampleVCpu 1) (.spciMsgSend false),
    .call exampleEnv (exampleVCpu 1) (.spciMsgSend true),
    .call exampleEnv (exampleVCpu 2) (.spciMsgRecv false),
    .call exampleEnv (exampleVCpu 2) .mailboxClear,
    .call exampleEnv (exampleVCpu 0) (.mailboxWaiterGet 3),
    .call exampleEnv (exampleVCpu 1) (.spciMsgSend false),
    .call exampleEnv (exampleVCpu 1) (.spciMsgSend true),
    .call exampleEnv (exampleVCpu 1) .mailboxWritableGet]

/-- The mailbox becomes writable again. -/
def exampleRetry : List (Action exampleMachine) :=
  [.call exampleEnv (exampleVCpu 2) (.spciMsgRecv false),
    .call exampleEnv (exampleVCpu 2) .mailboxClear,
    .call exampleEnv (exampleVCpu 0) (.mailboxWaiterGet 3),
    .call exampleEnv (exampleVCpu 1) .mailboxWritableGet]

theorem notifications_kept_wait :
    ∃ s' q', run step exampleWait (ownerState opaqueMemory) = some s' ∧
      s'.Queued q' ∧ q' (.waiters (exampleVm 2)) = [exampleVm 1] ∧ q' (.ready (exampleVm 1)) =
        [] := by
  have hsome : (run step exampleWait (ownerState opaqueMemory)).isSome := by
    decide +kernel
  have hwaiters : trace step (appended (.waiters (exampleVm 2))) exampleWait
        (ownerState opaqueMemory) = [exampleVm 1, exampleVm 1] ∧
      trace step (returned (.waiters (exampleVm 2))) exampleWait
        (ownerState opaqueMemory) = [exampleVm 1] := by
    decide +kernel
  have hready : trace step (appended (.ready (exampleVm 1))) exampleWait
        (ownerState opaqueMemory) = [exampleVm 2] ∧
      trace step (returned (.ready (exampleVm 1))) exampleWait
        (ownerState opaqueMemory) = [exampleVm 2] := by
    decide +kernel
  obtain ⟨s', hrun⟩ := isSome_iff_exists.mp hsome
  obtain ⟨q', hq', hqueue, -⟩ := notifications_kept
    (queued_of_links (s := ownerState opaqueMemory) rfl) hrun
  refine ⟨s', q', hrun, hq', ?_, ?_⟩
  · have h := hqueue (.waiters (exampleVm 2))
    rw [hwaiters.1, hwaiters.2] at h
    exact (List.cons.inj h).2.symm
  · have h := hqueue (.ready (exampleVm 1))
    rw [hready.1, hready.2] at h
    exact (List.cons.inj h).2.symm

/-- A mailbox is returned as writable twice, and no notification is asked for in
between. -/
theorem writable_twice :
    ∃ s', run step exampleWait (ownerState opaqueMemory) = some s' ∧
      trace step (returned (.ready (exampleVm 1))) exampleWait
        (ownerState opaqueMemory) = [exampleVm 2] ∧
      trace step (notified (exampleVm 2)) exampleRetry s' = [] ∧
      trace step (returned (.ready (exampleVm 1))) exampleRetry s' =
        [exampleVm 2] := by
  have hmap : (run step exampleWait (ownerState opaqueMemory)).map (fun s' =>
      (trace step (notified (exampleVm 2)) exampleRetry s',
        trace step (returned (.ready (exampleVm 1))) exampleRetry s')) =
      some ([], [exampleVm 2]) := by
    decide +kernel
  obtain ⟨s', hrun, htrace⟩ := map_eq_some_iff.mp hmap
  refine ⟨s', hrun, by decide +kernel, congrArg Prod.fst htrace, congrArg Prod.snd htrace⟩

end Hafnium
