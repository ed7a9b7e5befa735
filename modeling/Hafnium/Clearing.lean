import Hafnium.AddressSpace
import Hafnium.Mm.PoolUse

/-!
# Memory cleared by a transfer that fails

`share_memory` clears the memory before it maps it into the recipient, and this last
update can still run out of tables.  The sender's mapping is restored then, but not the
contents of its memory.  Which of the updates fail can be read off the page tables and the
number of free pages before the call, as long as no other CPU uses the page pool.
-/

namespace Hafnium

open Support Aarch64 PageTable Interference MPool Transfer Stage

/-- No other CPU uses the page pool. -/
def Interference.alone : Interference := fun _ => id

theorem Interference.ok_alone : alone.Ok := fun _ _ h => h

theorem MPool.interfere_alone (m : MPool) (k : Nat) : m.interfere (alone k) = m :=
  m.interfere_id

namespace PageTable

variable {S : Stage} {strict : Bool} {begin endAddr : Nat} {pt : PageTable S} {m : MPool}

theorem index_le_of_le (hS : S.Fits) {begin endAddr : Nat} (hlt : begin < endAddr)
    (hle : endAddr ≤ S.ptableAddrSpaceEnd) :
    index (archMmClearPa begin) S.rootLevel ≤ S.rootTableCount := by
  have hclear : archMmClearPa begin ≤ begin := by
    rw [archMmClearPa_eq]
    omega
  have h := InSpace.index_eq hS.toValid (hclear.trans_lt (hlt.trans_le hle))
  omega

theorem identityMapIn_ok_iff {env : Pool → Pool} (henv : ∀ p, p.Usable → (env p).Usable)
    (hpt : pt.Regular strict) (hm : m.Wf) (hlt : begin < endAddr)
    (hle : endAddr ≤ S.ptableAddrSpaceEnd) (mode : Mode) :
    (∃ pt' m', pt.identityMapIn env begin endAddr mode m = .ok (.ok, pt', m')) ↔
      pt.mapNeed begin endAddr mode ≤ (m.interfere env).count := by
  simp only [identityMapIn, orPanic_eq_ok]
  exact identityUpdate_ok_iff hpt (wf_interfere hm henv) (index_le_of_le hpt.fits hlt hle)

end PageTable

/-! ## The local pool of a transfer -/

namespace Transfer

variable {S H : Stage} {strict : Bool} {begin endAddr : Nat} {t t₁ t₂ t' : Transfer S H}
  {env : Interference} {request : HfShare}

/-- The number of pages that are left once the memory has been cleared, out of those that
the sender's update has left.  Taking memory away from the sender frees its tables; the
temporary mapping of the hypervisor takes tables, and gives back what it leaves empty. -/
def spare (request : HfShare) (begin endAddr : Nat) (t : Transfer S H) (pages : Nat) : Nat :=
  pages + t.fromPtable.mapFrees begin endAddr request.modes.1 -
      (t.hypervisorPtable.mapNeed begin endAddr Mode.W +
        t.hypervisorPtable.laterNeed begin endAddr Mode.W) +
    t.hypervisorPtable.laterFrees begin endAddr Mode.W

/-- `share_memory` gets to the end of `clear_memory`. -/
def Cleared (env : Interference) (request : HfShare) (begin endAddr : Nat) (t t₂ : Transfer S H) :
    Prop :=
  ∃ t₁, t.mapSender (env 0) begin endAddr request.modes.1 = .ok (.ok, t₁) ∧
    t₁.clearMemory (fun k => env (k + 1)) begin endAddr = .ok (.ok, t₂)

theorem mapSender_eq_ok {f : Pool → Pool} {mode : Mode} {o : Outcome} :
    t.mapSender f begin endAddr mode = .ok (o, t') ↔ ∃ fromPtable pool,
      t.fromPtable.identityMapIn f begin endAddr mode t.pool = .ok (o, fromPtable, pool) ∧
      t' = { t with fromPtable, pool } := by
  rw [mapSender, bind_eq_ok]
  constructor
  · rintro ⟨⟨o, fromPtable, pool⟩, h, heq⟩
    cases heq
    exact ⟨fromPtable, pool, h, rfl⟩
  · rintro ⟨fromPtable, pool, h, rfl⟩
    exact ⟨_, h, rfl⟩

theorem mapRecipient_eq_ok {f : Pool → Pool} {mode : Mode} {o : Outcome} :
    t.mapRecipient f begin endAddr mode = .ok (o, t') ↔ ∃ toPtable pool,
      t.toPtable.identityMapIn f begin endAddr mode t.pool = .ok (o, toPtable, pool) ∧
      t' = { t with toPtable, pool } := by
  rw [mapRecipient, bind_eq_ok]
  constructor
  · rintro ⟨⟨o, toPtable, pool⟩, h, heq⟩
    cases heq
    exact ⟨toPtable, pool, h, rfl⟩
  · rintro ⟨toPtable, pool, h, rfl⟩
    exact ⟨_, h, rfl⟩

theorem clearMemory_eq_ok :
    t.clearMemory env begin endAddr = .ok (.ok, t') ↔ ∃ hyp₁ pool₁ hypervisorPtable pool,
      t.hypervisorPtable.identityMapIn (env 0) begin endAddr Mode.W t.pool =
        .ok (.ok, hyp₁, pool₁) ∧
      hyp₁.unmapIn (env 1) begin endAddr pool₁ = .ok (.ok, hypervisorPtable, pool) ∧
      t' = { t with
        hypervisorPtable, pool, mem := t.mem.write begin (endAddr - begin) fun _ => 0 } := by
  rw [clearMemory, bind_eq_ok]
  constructor
  · rintro ⟨⟨_ | _, hyp₁, pool₁⟩, h₁, h⟩
    · obtain ⟨⟨o, hyp₂, pool₂⟩, h₂, h⟩ := bind_eq_ok.mp h
      obtain ⟨⟨hyp, pool⟩, h₃, heq⟩ := bind_eq_ok.mp h
      cases unwrap_eq_ok.mp h₃
      cases heq
      exact ⟨hyp₁, pool₁, hyp₂, pool₂, h₁, h₂, rfl⟩
    · cases h
  · rintro ⟨hyp₁, pool₁, hyp₂, pool₂, h₁, h₂, rfl⟩
    refine ⟨_, h₁, ?_⟩
    exact bind_eq_ok.mpr ⟨_, h₂, rfl⟩

theorem clearMemory_err (h : t.clearMemory env begin endAddr = .ok (.err, t')) :
    t'.mem = t.mem := by
  obtain ⟨⟨_ | _, hyp₁, pool₁⟩, -, h⟩ := bind_eq_ok.mp h
  · obtain ⟨r, -, h⟩ := bind_eq_ok.mp h
    obtain ⟨⟨hyp, pool⟩, -, heq⟩ := bind_eq_ok.mp h
    cases heq
  · cases h
    rfl

theorem restoreSender_mem {f : Pool → Pool} {mode : Mode}
    (h : t.restoreSender f begin endAddr mode = .ok t') : t'.mem = t.mem := by
  obtain ⟨⟨o, t₁⟩, h₁, h₂⟩ := bind_eq_ok.mp h
  obtain ⟨fromPtable, pool, -, rfl⟩ := mapSender_eq_ok.mp h₁
  cases unwrap_eq_ok.mp h₂
  rfl

/-- The ways in which `share_memory` fails: only the last of them comes after the memory
has been cleared. -/
theorem shareMemory_err (h : shareMemory env request begin endAddr t = .ok (.err, t')) :
    t'.mem = t.mem ∨ ∃ orig t₂ t₃,
      shareMemoryCheck request begin endAddr t.fromPtable t.toPtable = some orig ∧
      t.Cleared env request begin endAddr t₂ ∧
      t₂.mapRecipient (env 3) begin endAddr request.modes.2 = .ok (.err, t₃) ∧
      t'.mem = t₂.mem := by
  rw [shareMemory] at h
  split at h
  · cases h
    exact .inl rfl
  · rename_i orig hcheck
    obtain ⟨⟨o₁, t₁⟩, h₁, h⟩ := bind_eq_ok.mp h
    obtain ⟨fromPtable, pool, hmap, rfl⟩ := mapSender_eq_ok.mp h₁
    cases o₁ with
    | err =>
      cases h
      exact .inl rfl
    | ok =>
      obtain ⟨⟨o₂, t₂⟩, h₂, h⟩ := bind_eq_ok.mp h
      cases o₂ with
      | err =>
        obtain ⟨t₃, h₃, heq⟩ := bind_eq_ok.mp h
        cases heq
        have hmem := clearMemory_err h₂
        exact .inl ((restoreSender_mem h₃).trans hmem)
      | ok =>
        right
        obtain ⟨⟨o₃, t₃⟩, h₃, h⟩ := bind_eq_ok.mp h
        cases o₃ with
        | ok => cases h
        | err =>
          obtain ⟨t₄, h₄, heq⟩ := bind_eq_ok.mp h
          cases heq
          refine ⟨orig, t₂, t₃, hcheck, ⟨_, h₁, h₂⟩, h₃, (restoreSender_mem h₄).trans ?_⟩
          obtain ⟨toPtable, pool', -, rfl⟩ := mapRecipient_eq_ok.mp h₃
          rfl

theorem Cleared.spec (henv : env.Ok) (ht : t.Regular strict) (hin : InSpace S begin endAddr)
    (h : t.Cleared env request begin endAddr t₂) :
    t₂.Regular strict ∧ t₂.toPtable = t.toPtable ∧
      t₂.mem = t.mem.write begin (endAddr - begin) (fun _ => 0) := by
  obtain ⟨t₁, h₁, h₂⟩ := h
  have ht₁ := ((mapSender_post (henv 0) ht hin request.modes.1).of_ok h₁).1
  have ht₂ := ((clearMemory_post (fun k => henv (k + 1)) ht₁ begin endAddr).of_ok h₂).1
  obtain ⟨fromPtable, pool₁, hmap, rfl⟩ := mapSender_eq_ok.mp h₁
  obtain ⟨hyp₁, pool₂, hyp₂, pool₃, -, -, rfl⟩ := clearMemory_eq_ok.mp h₂
  exact ⟨ht₂, rfl, rfl⟩

/-- With no other CPU on the pool, there are enough pages to take the memory from the
sender, to map it in the hypervisor's table and to unmap it from there. -/
def Affords (request : HfShare) (begin endAddr : Nat) (t : Transfer S H) : Prop :=
  t.fromPtable.mapNeed begin endAddr request.modes.1 ≤ t.pool.count ∧
    t.hypervisorPtable.mapNeed begin endAddr Mode.W +
        t.hypervisorPtable.laterNeed begin endAddr Mode.W ≤
      t.pool.count - t.fromPtable.mapNeed begin endAddr request.modes.1 +
        t.fromPtable.mapFrees begin endAddr request.modes.1

theorem Cleared.alone_spec (ht : t.Regular strict) (hin : InSpace S begin endAddr)
    (h : t.Cleared .alone request begin endAddr t₂) :
    t.Affords request begin endAddr ∧ t₂.pool.count = t.spare request begin endAddr
      (t.pool.count - t.fromPtable.mapNeed begin endAddr request.modes.1) := by
  obtain ⟨t₁, h₁, h₂⟩ := h
  have ht₁ := ((mapSender_post (ok_alone 0) ht hin request.modes.1).of_ok h₁).1
  obtain ⟨fromPtable, pool₁, hmap, rfl⟩ := mapSender_eq_ok.mp h₁
  obtain ⟨hyp₁, pool₂, hyp₂, pool₃, hclear, hunmap, rfl⟩ := clearMemory_eq_ok.mp h₂
  simp only [identityMapIn, unmapIn, orPanic_eq_ok,
    interfere_alone] at hmap hclear hunmap
  obtain ⟨hhyp₁, hpool₂⟩ := ht₁.hypervisorPtable.identityUpdate ht₁.pool
    (attrsOk_modeToAttrs H Mode.W) hclear
  have hneed₁ : t.fromPtable.mapNeed begin endAddr request.modes.1 ≤ t.pool.count :=
    (identityUpdate_ok_iff ht.fromPtable ht.pool
      (index_le_of_identityUpdate hmap)).mp ⟨_, _, hmap⟩
  have hneed₂ : t.hypervisorPtable.mapNeed begin endAddr Mode.W ≤ pool₁.count :=
    (identityUpdate_ok_iff ht₁.hypervisorPtable ht₁.pool
      (index_le_of_identityUpdate hclear)).mp ⟨_, _, hclear⟩
  have hneed₃ := (unmap_ok_iff ht₁.hypervisorPtable ht₁.pool hpool₂
    hclear).mp ⟨_, _, hunmap⟩
  have hsender := identityMap_left ht.fromPtable ht.pool hmap
  have hmapped := identityMap_left ht₁.hypervisorPtable ht₁.pool hclear
  have hleft := unmap_count hhyp₁ hpool₂ hunmap
  rw [(unmap_of_identityMap ht₁.hypervisorPtable ht₁.pool hclear).1,
    (unmap_of_identityMap ht₁.hypervisorPtable ht₁.pool hclear).2] at hleft
  rw [mapFrees_of_valid (by decide)] at hmapped
  dsimp only at hneed₃ hmapped hleft
  simp only [Affords, spare]
  omega

/-- With enough pages, and with no other CPU on the pool, the memory is cleared. -/
theorem exists_cleared_alone (ht : t.Regular strict) (hin : InSpace S begin endAddr)
    (hle : endAddr ≤ H.ptableAddrSpaceEnd) (h : t.Affords request begin endAddr) :
    ∃ t₂, t.Cleared .alone request begin endAddr t₂ := by
  obtain ⟨hneed₁, hneed₂⟩ := h
  obtain ⟨from₁, pool₁, hmap⟩ := (identityMapIn_ok_iff (ok_alone 0)
    ht.fromPtable ht.pool hin.lt hin.le request.modes.1).mpr (by rwa [interfere_alone])
  have hmap' := orPanic_eq_ok.mp hmap
  rw [interfere_alone] at hmap'
  have hsender := identityMap_left ht.fromPtable ht.pool hmap'
  have hpool₁ := (ht.fromPtable.identityMapIn ht.pool (ok_alone 0) hmap).2
  obtain ⟨hyp₁, pool₂, hclear⟩ := (identityMapIn_ok_iff (ok_alone 1)
    ht.hypervisorPtable hpool₁ hin.lt hle Mode.W).mpr (by rw [interfere_alone]; omega)
  have hclear' := orPanic_eq_ok.mp hclear
  rw [interfere_alone] at hclear'
  have hmapped := identityMap_left ht.hypervisorPtable hpool₁ hclear'
  have hpool₂ := (ht.hypervisorPtable.identityMapIn hpool₁ (ok_alone 1) hclear).2
  rw [mapFrees_of_valid (by decide)] at hmapped
  obtain ⟨hyp₂, pool₃, hunmap⟩ := (unmap_ok_iff ht.hypervisorPtable hpool₁ hpool₂
    hclear').mpr (by omega)
  refine ⟨_, _, mapSender_eq_ok.mpr ⟨from₁, pool₁, hmap, rfl⟩, clearMemory_eq_ok.mpr
    ⟨hyp₁, pool₂, hyp₂, pool₃, hclear, orPanic_eq_ok.mpr ?_, rfl⟩⟩
  exact (congrArg (hyp₁.unmap aarch64 begin endAddr) (pool₂.interfere_alone 2)).trans hunmap

/-- If the recipient cannot be given the memory, then the call fails. -/
theorem shareMemory_of_cleared (hkind : S.kind = .stage2) (henv : env.Ok) (ht : t.Regular strict)
    (hend : endAddr < 2 ^ 64) {orig : Mode}
    (hcheck : shareMemoryCheck request begin endAddr t.fromPtable t.toPtable = some orig)
    (h : t.Cleared env request begin endAddr t₂) {t₃ : Transfer S H}
    (hmap : t₂.mapRecipient (env 3) begin endAddr request.modes.2 = .ok (.err, t₃)) :
    ∃ t', shareMemory env request begin endAddr t = .ok (.err, t') ∧ t'.mem = t₂.mem := by
  obtain ⟨t₁, h₁, h₂⟩ := h
  have hgranted := granted_of_shareMemoryCheck ht.fromPtable.fits.toValid hend hcheck
  obtain ⟨attrs, rfl, hview⟩ := hgranted.uniform.view hgranted.present
  have hin := hgranted.uniform.inSpace
  obtain ⟨ht₁, -, hres₁⟩ := (mapSender_post (henv 0) ht hin request.modes.1).of_ok h₁
  have hcovered := hres₁.covered_again hkind ht.fromPtable hin rfl hview
  obtain ⟨ht₂, hfrom₂, -⟩ := (clearMemory_post (fun k => henv (k + 1)) ht₁ begin endAddr).of_ok h₂
  obtain ⟨ht₃, hfrom₃, -⟩ := (mapRecipient_post (henv 3) ht₂ hin request.modes.2).of_ok hmap
  have hrestore := defragSender_restore_post (henv 4) ht₃ hin (attrsToMode aarch64 attrs)
    (by rw [hfrom₃, hfrom₂]; exact hcovered)
  cases hr : t₃.defragSender.restoreSender (env 4) begin endAddr (attrsToMode aarch64 attrs)
    with
  | error p => exact (hrestore.of_error hr).elim
  | ok t₄ =>
    have hshare : shareMemory env request begin endAddr t = .ok (.err, t₄) := by
      rw [shareMemory, hcheck]
      refine bind_eq_ok.mpr ⟨_, h₁, bind_eq_ok.mpr ⟨_, h₂, bind_eq_ok.mpr ⟨_, hmap, ?_⟩⟩⟩
      exact bind_eq_ok.mpr ⟨_, hr, rfl⟩
    refine ⟨t₄, hshare, (restoreSender_mem hr).trans ?_⟩
    obtain ⟨toPtable, pool', -, rfl⟩ := mapRecipient_eq_ok.mp hmap
    rfl

/-- `share_memory` gets to clearing memory past the end of the hypervisor's address space,
where nothing can be mapped.  The write faults, and the call does not return. -/
def Faults (env : Interference) (request : HfShare) (begin endAddr : Nat) (t : Transfer S H) :
    Prop :=
  H.ptableAddrSpaceEnd < endAddr ∧
    shareMemoryCheck request begin endAddr t.fromPtable t.toPtable ≠ none ∧
    ∃ t₁, t.mapSender (env 0) begin endAddr request.modes.1 = .ok (.ok, t₁) ∧
      ∃ hyp pool, t₁.hypervisorPtable.identityMapIn (env 1) begin endAddr Mode.W t₁.pool =
        .ok (.ok, hyp, pool)

/-- A call that returns with an error leaves the memory of the sender as it is. -/
def KeepsMemory (env : Interference) (request : HfShare) (begin endAddr : Nat)
    (t : Transfer S H) : Prop :=
  ∀ t', shareMemory env request begin endAddr t = .ok (.err, t') →
    ¬t.Faults env request begin endAddr →
    ∀ a, (PageState.ofView (t.fromPtable.view a)).owned = true → t'.mem a = t.mem a

/-- The memory of a range that the sender wants to share is not at stake: the call is
refused, or it cannot clear the range, or the sender owns nothing but zeros there. -/
def Harmless (request : HfShare) (begin endAddr : Nat) (t : Transfer S H) : Prop :=
  shareMemoryCheck request begin endAddr t.fromPtable t.toPtable = none ∨
    H.ptableAddrSpaceEnd < endAddr ∨
    ∀ a, begin ≤ a → a < endAddr → (PageState.ofView (t.fromPtable.view a)).owned = true →
      t.mem a = 0

/-- The memory is safe if no other CPU uses the pool: the pages do not last until the memory
is cleared, or they last for the tables of the recipient, too. -/
def KeepsDataAlone (request : HfShare) (begin endAddr : Nat) (t : Transfer S H) : Prop :=
  t.Harmless request begin endAddr ∨
    (t.Affords request begin endAddr → t.toPtable.mapNeed begin endAddr request.modes.2 ≤
      t.spare request begin endAddr
        (t.pool.count - t.fromPtable.mapNeed begin endAddr request.modes.1))

/-- The memory is safe whatever other CPUs do: the recipient needs no table. -/
def KeepsData (request : HfShare) (begin endAddr : Nat) (t : Transfer S H) : Prop :=
  t.Harmless request begin endAddr ∨ t.toPtable.mapNeed begin endAddr request.modes.2 = 0

/-- The memory of the sender is lost exactly if the recipient cannot be given the memory
once it has been cleared. -/
theorem keepsMemory_iff (hkind : S.kind = .stage2) (henv : env.Ok) (ht : t.Regular strict)
    (hend : endAddr < 2 ^ 64) :
    t.KeepsMemory env request begin endAddr ↔ t.Harmless request begin endAddr ∨
      ∀ t₂, t.Cleared env request begin endAddr t₂ →
        t.toPtable.mapNeed begin endAddr request.modes.2 ≤ (t₂.pool.interfere (env 3)).count := by
  constructor
  · intro hkeeps
    by_contra! hnot
    obtain ⟨hharm, t₂, hcleared, hneed⟩ := hnot
    simp only [Harmless, not_or, not_forall, Nat.not_lt] at hharm
    obtain ⟨hcheck, hle, a, hlo, hhi, howned, hne⟩ := hharm
    obtain ⟨orig, hcheck⟩ := Option.ne_none_iff_exists'.mp hcheck
    have hin := (granted_of_shareMemoryCheck ht.fromPtable.fits.toValid hend
      hcheck).uniform.inSpace
    obtain ⟨ht₂, hto₂, hmem₂⟩ := hcleared.spec henv ht hin
    obtain ⟨⟨_ | _, toPtable, pool⟩, hmap, -⟩ := identityMapIn_spec ht₂.toPtable ht₂.pool
      (henv 3) hin request.modes.2
    · have hle := (identityMapIn_ok_iff (henv 3) ht₂.toPtable ht₂.pool hin.lt hin.le
        request.modes.2).mp ⟨toPtable, pool, hmap⟩
      rw [hto₂] at hle
      omega
    · obtain ⟨t', hshare, hmem'⟩ := shareMemory_of_cleared hkind henv ht hend hcheck hcleared
        (mapRecipient_eq_ok.mpr ⟨toPtable, pool, hmap, rfl⟩)
      have hkept := hkeeps t' hshare (fun hfaults => absurd hfaults.1 (Nat.not_lt.mpr hle)) a howned
      rw [hmem', hmem₂, Memory.write_of_mem hlo (by omega)] at hkept
      exact hne hkept.symm
  · intro hsafe t' hshare hfaults a howned
    rcases shareMemory_err hshare with hmem | ⟨orig, t₂, t₃, hcheck, hcleared, hmap, hmem⟩
    · rw [hmem]
    · have hin := (granted_of_shareMemoryCheck ht.fromPtable.fits.toValid hend
        hcheck).uniform.inSpace
      obtain ⟨ht₂, hto₂, hmem₂⟩ := hcleared.spec henv ht hin
      rcases hsafe with (hnone | hspace | hzero) | hneed
      · cases hcheck.symm.trans hnone
      · -- the memory has been mapped, and writing it faults
        obtain ⟨t₁, h₁, h₂⟩ := hcleared
        obtain ⟨hyp₁, pool₁, _, _, hclear, -⟩ := clearMemory_eq_ok.mp h₂
        exact (hfaults ⟨hspace, by rw [hcheck]; exact Option.some_ne_none orig, t₁, h₁, hyp₁,
          pool₁, hclear⟩).elim
      · rw [hmem, hmem₂]
        by_cases ha : begin ≤ a ∧ a < begin + (endAddr - begin)
        · have hlt := hin.lt
          rw [Memory.write_of_mem ha.1 ha.2, hzero a ha.1 (by omega) howned]
        · exact Memory.write_of_not_mem ha
      · obtain ⟨toPtable, pool, hok⟩ := (identityMapIn_ok_iff (henv 3) ht₂.toPtable
          ht₂.pool hin.lt hin.le request.modes.2).mpr (by rw [hto₂]; exact hneed t₂ hcleared)
        obtain ⟨toPtable', pool', herr, -⟩ := mapRecipient_eq_ok.mp hmap
        cases hok.symm.trans herr

/-- A range that is at stake lies in the address spaces of the VMs and of the hypervisor. -/
theorem inSpace_of_harmful (ht : t.Regular strict) (hend : endAddr < 2 ^ 64)
    (h : ¬t.Harmless request begin endAddr) :
    InSpace S begin endAddr ∧ endAddr ≤ H.ptableAddrSpaceEnd := by
  rw [Harmless, not_or, not_or, Nat.not_lt] at h
  obtain ⟨orig, hcheck⟩ := Option.ne_none_iff_exists'.mp h.1
  exact ⟨(granted_of_shareMemoryCheck ht.fromPtable.fits.toValid hend hcheck).uniform.inSpace,
    h.2.1⟩

section Safe

variable (request : HfShare) (begin : Nat) (hkind : S.kind = .stage2) (ht : t.Regular strict)
  (hend : endAddr < 2 ^ 64)
include hkind ht hend

theorem keepsMemory_alone_iff :
    t.KeepsMemory .alone request begin endAddr ↔ t.KeepsDataAlone request begin endAddr := by
  rw [keepsMemory_iff hkind ok_alone ht hend, KeepsDataAlone]
  by_cases hharm : t.Harmless request begin endAddr
  · simp only [hharm, true_or]
  · obtain ⟨hin, hle⟩ := inSpace_of_harmful ht hend hharm
    simp only [hharm, false_or, interfere_alone]
    constructor
    · intro h hafford
      obtain ⟨t₂, hcleared⟩ := exists_cleared_alone ht hin hle hafford
      exact (h t₂ hcleared).trans_eq (hcleared.alone_spec ht hin).2
    · intro h t₂ hcleared
      obtain ⟨hafford, hcount⟩ := hcleared.alone_spec ht hin
      exact (h hafford).trans_eq hcount.symm

theorem keepsMemory_of_keepsData (henv : env.Ok) (h : t.KeepsData request begin endAddr) :
    t.KeepsMemory env request begin endAddr := by
  refine (keepsMemory_iff hkind henv ht hend).mpr (h.imp_right fun hneed t₂ _ => ?_)
  rw [hneed]
  exact Nat.zero_le _

end Safe

end Transfer

namespace Hypervisor

variable {M : Machine} {s : Hypervisor M}

/-- A `share_memory` that returns with an error leaves the memory of the sender as it is.  A
call that faults does not return. -/
def KeepsMemory (env : Env) (vmId addr size : Nat) (request : HfShare) (current : VCpuId M)
    (s : Hypervisor M) : Prop :=
  ∀ s', s.shareMemory env vmId addr size request current = .ok (.err, s') →
    (∀ j, M.get vmId = .ok (some j) →
      ¬(s.transfer current.vm j).Faults env.pool request addr ((addr + size) % 2 ^ 64)) →
    ∀ a, (s.pageState a current.vm).owned = true → s'.mem a = s.mem a

theorem keepsMemory_iff (env : Env) (vmId addr size : Nat) (request : HfShare)
    (current : VCpuId M) :
    s.KeepsMemory env vmId addr size request current ↔
      ∀ j, vmId ≠ M.vmId current.vm → M.get vmId = .ok (some j) →
        (s.transfer current.vm j).KeepsMemory env.pool request addr ((addr + size) % 2 ^ 64) := by
  constructor
  · intro hkeeps j hself hget t' hshare hfaults a howned
    refine hkeeps (s.putTransfer current.vm j t') ?_ (fun j' hget' => ?_) a howned
    · rw [shareMemory, if_neg hself]
      exact bind_eq_ok.mpr ⟨_, hget, bind_eq_ok.mpr ⟨_, hshare, rfl⟩⟩
    · cases hget.symm.trans hget'
      exact hfaults
  · intro hsafe s' hshare hfaults a howned
    rw [shareMemory] at hshare
    split at hshare
    · cases hshare
      rfl
    · rename_i hself
      obtain ⟨_ | j, hget, hshare⟩ := bind_eq_ok.mp hshare
      · cases hshare
        rfl
      · obtain ⟨⟨o, t'⟩, ht', heq⟩ := bind_eq_ok.mp hshare
        cases heq
        exact hsafe j hself hget t' ht' (hfaults j hget) a howned

/-- When a `share_memory` that fails leaves the memory of the sender as it is, if no other
CPU uses the page pool during the call.  Whatever other CPUs do, it does so if the recipient
needs no table. -/
theorem failed_share_iff (hs : s.Sound) (vmId addr size : Nat) (request : HfShare)
    (current : VCpuId M) :
    ((∀ env : Env, env.pool = .alone → s.KeepsMemory env vmId addr size request current) ↔
      ∀ j, vmId ≠ M.vmId current.vm → M.get vmId = .ok (some j) →
        (s.transfer current.vm j).KeepsDataAlone request addr ((addr + size) % 2 ^ 64)) ∧
    ((∀ j, vmId ≠ M.vmId current.vm → M.get vmId = .ok (some j) →
        (s.transfer current.vm j).KeepsData request addr ((addr + size) % 2 ^ 64)) →
      ∀ env : Env, env.pool.Ok → s.KeepsMemory env vmId addr size request current) := by
  have hend : (addr + size) % 2 ^ 64 < 2 ^ 64 := Nat.mod_lt _ (by decide)
  have halone := fun j => keepsMemory_alone_iff request addr hs.kind
    (hs.transfer current.vm j) hend
  simp only [keepsMemory_iff]
  refine ⟨⟨?_, ?_⟩, ?_⟩
  · intro h j hself hget
    exact (halone j).mp (h ⟨⟨0, 0, 0, 0⟩, .alone⟩ rfl j hself hget)
  · intro h env henv j hself hget
    rw [henv]
    exact (halone j).mpr (h j hself hget)
  · intro h env henv j hself hget
    exact keepsMemory_of_keepsData request addr hs.kind (hs.transfer current.vm j) hend
      henv (h j hself hget)

end Hypervisor

/-- The hypervisor has mapped the first 2 MiB of memory. -/
def imageTable : PageTable hypervisor where
  root := 0x10000
  tables _ i :=
    if i = 0 then
      .table (archMmTablePte 2 0x50000) fun j =>
        if j = 0 then .block aarch64 1 0 (archMmModeToStage1Attrs Mode.R) else .absent aarch64 1
    else .absent aarch64 2

theorem regular_imageTable : imageTable.Regular false :=
  ⟨fits_hypervisor, by decide +kernel, by decide +kernel⟩

/-- The given pages are free, no byte of memory is zero, and the hypervisor has mapped the
first 2 MiB. -/
def imageState (pages : List Nat) : Hypervisor armMachine :=
  { armState 0 imageTable with mem := fun _ => 1, mpool := .ofPool ⟨[], pages⟩ }

theorem sound_imageState {pages : List Nat} (h : (ofPool ⟨[], pages⟩).Wf) :
    (imageState pages).Sound := by
  have hs := sound_armState 0 regular_imageTable
  exact ⟨hs.kind, hs.ptable, regular_imageTable, h⟩

/-- Two pages are enough to give away the second 2 MiB, if no other CPU takes one of them.
No page is needed to give away the first GiB. -/
theorem failed_share_images : (imageState [0x20000, 0x21000]).Sound ∧ (imageState []).Sound ∧
      (∀ env : Env, env.pool = .alone → (imageState [0x20000, 0x21000]).KeepsMemory env 2 0x200000
        0x200000 .give (armVCpu 0)) ∧
      ∀ env : Env, env.pool.Ok →
        (imageState []).KeepsMemory env 2 0 0x40000000 .give (armVCpu 0) := by
  have hs := @sound_imageState [0x20000, 0x21000] (by decide)
  have hs' := @sound_imageState [] (by decide)
  have hj : armMachine.get 2 = .ok (some (armVm 1)) := by decide +kernel
  refine ⟨hs, hs', (Hypervisor.failed_share_iff hs 2 0x200000 0x200000 .give
    (armVCpu 0)).1.mpr ?_, (Hypervisor.failed_share_iff hs' 2 0 0x40000000 .give
    (armVCpu 0)).2 ?_⟩
  · intro j _ hget
    cases hj.symm.trans hget
    refine .inr fun _ => ?_
    decide +kernel
  · intro j _ hget
    cases hj.symm.trans hget
    refine .inr ?_
    decide +kernel

/-- The first VM gives away the second 2 MiB of its memory.  The only free page is used up
by splitting its block.  Clearing the memory takes and frees no table, because the
hypervisor has a table for the first 2 MiB, and no page is left for the table of the
recipient: the call fails, and the memory of the first VM has been cleared. -/
theorem failed_share_clears :
    (imageState [0x20000]).Sound ∧ 0x400000 ≤ hypervisor.ptableAddrSpaceEnd ∧
      ((imageState [0x20000]).pageState 0x200000 (armVm 0)).owned = true ∧
      (imageState [0x20000]).mem 0x200000 = 1 ∧
      ∃ s', (imageState [0x20000]).shareMemory exampleEnv 2 0x200000 0x200000 .give (armVCpu 0) =
          .ok (.err, s') ∧ s'.mem 0x200000 = 0 := by
  have hs := @sound_imageState [0x20000] (by decide)
  have hcheck : (shareMemoryCheck .give 0x200000 0x400000 ((imageState [0x20000]).ptable (armVm 0))
      ((imageState [0x20000]).ptable (armVm 1))).isSome = true := by
    decide +kernel
  have hsteps : (((imageState [0x20000]).transfer (armVm 0) (armVm 1)).mapSender id 0x200000
      0x400000
      HfShare.give.modes.1).map (fun r₁ => (r₁.1,
        (r₁.2.clearMemory (fun _ => id) 0x200000 0x400000).map fun r₂ => (r₂.1,
          (r₂.2.mapRecipient id 0x200000 0x400000 HfShare.give.modes.2).map Prod.fst))) =
      .ok (.ok, .ok (.ok, .ok .err)) := by
    decide +kernel
  obtain ⟨orig, horig⟩ := Option.isSome_iff_exists.mp hcheck
  obtain ⟨⟨_, t₁⟩, h₁, hrest₁⟩ := map_eq_ok.mp hsteps
  obtain ⟨rfl, hrest₂⟩ := Prod.mk.inj hrest₁
  obtain ⟨⟨_, t₂⟩, h₂, hrest₃⟩ := map_eq_ok.mp hrest₂
  obtain ⟨rfl, hrest₄⟩ := Prod.mk.inj hrest₃
  obtain ⟨⟨_, t₃⟩, h₃, rfl⟩ := map_eq_ok.mp hrest₄
  have hcleared : ((imageState [0x20000]).transfer (armVm 0) (armVm 1)).Cleared .alone .give
      0x200000
      0x400000 t₂ := ⟨t₁, h₁, h₂⟩
  obtain ⟨t', hshare, hmem⟩ := shareMemory_of_cleared hs.kind ok_alone
    (hs.transfer (armVm 0) (armVm 1)) (by decide) horig hcleared h₃
  obtain ⟨hyp₁, pool₁, hyp₂, pool₂, -, -, rfl⟩ := clearMemory_eq_ok.mp h₂
  have hget : armMachine.get 2 = .ok (some (armVm 1)) := by decide +kernel
  refine ⟨hs, by decide, by decide +kernel, rfl,
    (imageState [0x20000]).putTransfer (armVm 0) (armVm 1) t', ?_, ?_⟩
  · rw [Hypervisor.shareMemory, if_neg (by decide)]
    exact bind_eq_ok.mpr ⟨_, hget, bind_eq_ok.mpr ⟨_, hshare, rfl⟩⟩
  · exact congrFun hmem 0x200000

end Hafnium
