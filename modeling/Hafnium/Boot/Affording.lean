import Hafnium.Boot.Loading
import Hafnium.Mm.PoolUse

/-!
# The pages that loading takes

Loading an entry of the manifest takes tables from the pool: to copy the kernel, to deny
the memory to the primary VM and to give it to a new one.  How far a round gets can be
read off the page tables and the pool before it.
-/

namespace Hafnium

open Support Aarch64 PageTable List

namespace PageTable

variable {S : Stage} {strict : Bool} {begin endAddr : Nat} {pt pt' : PageTable S}
  {pool pool' : MPool} {o : Outcome}

section

variable (hpt : pt.Regular strict) (hpool : pool.Wf)
include hpt hpool

theorem Regular.of_identityMap {mode : Mode}
    (h : pt.identityMap aarch64 begin endAddr mode pool = some (o, pt', pool')) :
    pt'.Regular strict ∧ pool'.Wf :=
  hpt.identityUpdate hpool (attrsOk_modeToAttrs S mode) h

theorem Regular.of_unmap (h : pt.unmap aarch64 begin endAddr pool = some (o, pt', pool')) :
    pt'.Regular strict ∧ pool'.Wf :=
  hpt.identityUpdate hpool (attrsOk_modeToAttrs S _) h

end

theorem new_eq_some (hpool : pool.Wf) (h : new aarch64 S pool = some (pt, pool')) :
    pool'.Wf ∧ ∃ root, pt = absentTable S root := by
  rw [new] at h
  split at h
  · contradiction
  · rename_i root pool₁ halloc
    cases h
    exact ⟨(MPool.allocPages_spec hpool halloc).2, root, rfl⟩

/-- The number of tables that it takes to give a new VM its memory. -/
def newNeed (S : Stage) (begin endAddr : Nat) : Nat :=
  (absentTable S 0).mapNeed begin endAddr (Mode.R ||| Mode.W ||| Mode.X)

end PageTable

namespace Loader

variable {S H : Stage} {layout : Layout} {cpio : MemIter}

/-- All tables are regular. -/
structure Regular (strict : Bool) (s : Loader S H) : Prop where
  vms : ∀ vm ∈ s.vms, vm.ptable.Regular strict
  hypervisorPtable : s.hypervisorPtable.Regular strict
  mpool : s.mpool.Wf

variable {s s' : Loader S H} {strict : Bool}

theorem Regular.copyToUnmapped {dst : Nat} {src : MemIter}
    {copied : Bool} (hs : s.Regular strict) (h : s.copyToUnmapped dst src = .ok (copied, s')) :
    s'.Regular strict := by
  cases copied with
  | false =>
    obtain ⟨pt, pool, hmap, rfl⟩ := copyToUnmapped_eq_false.mp h
    obtain ⟨hpt, hpool⟩ := hs.hypervisorPtable.of_identityMap hs.mpool hmap
    exact ⟨hs.vms, hpt, hpool⟩
  | true =>
    obtain ⟨pt, pool, pt', pool', hmap, -, hunmap, rfl⟩ := copyToUnmapped_eq_true.mp h
    obtain ⟨hpt, hpool⟩ := hs.hypervisorPtable.of_identityMap hs.mpool hmap
    obtain ⟨hpt', hpool'⟩ := hpt.of_unmap hpool hunmap
    exact ⟨hs.vms, hpt', hpool'⟩

theorem Regular.append (hs : s.Regular strict)
    {vm : LoadedVm S} {mpool : MPool} (hvm : vm.ptable.Regular strict) (hmpool : mpool.Wf) :
    Regular strict { s with vms := s.vms ++ [vm], mpool } := by
  refine ⟨fun v hv => ?_, hs.hypervisorPtable, hmpool⟩
  rcases mem_append.mp hv with hv | hv
  · exact hs.vms v hv
  · rw [mem_singleton.mp hv]
    exact hvm

theorem Regular.unmapPrimary {begin endAddr : Nat} {o : Outcome} (hs : s.Regular strict)
    (h : s.unmapPrimary begin endAddr = .ok (o, s')) : s'.Regular strict := by
  obtain ⟨primary, vms, ptable, mpool, hvms, hunmap, rfl⟩ := unmapPrimary_eq_ok h
  obtain ⟨hptable, hmpool⟩ := (hs.vms primary (hvms ▸ mem_cons_self)).of_unmap hs.mpool hunmap
  refine ⟨fun vm hvm => ?_, hs.hypervisorPtable, hmpool⟩
  rcases mem_cons.mp hvm with rfl | hvm
  · exact hptable
  · exact hs.vms vm (hvms ▸ mem_cons_of_mem _ hvm)

theorem Regular.startVm (hS : S.Fits) {n begin endAddr : Nat} (hs : s.Regular false)
    (h : s.startVm n begin endAddr = .ok s') : s'.Regular false := by
  cases startVm_cases h with
  | noRoom hroom => exact hs
  | notMapped hnew hmap | started hnew hmap _ =>
    obtain ⟨-, -, -, -, hptable⟩ := newVm_eq_ok_some.mp hnew
    obtain ⟨hmpool, root, hroot⟩ := new_eq_some hs.mpool hptable
    rw [hroot] at hmap
    obtain ⟨hptable', hmpool'⟩ :=
      (regular_absentTable hS root).of_identityMap hmpool hmap
    exact hs.append hptable' hmpool'

theorem Regular.loadVm (hS : S.Fits) {vm : ManifestVm} {ranges ranges' : List MemRange}
    {o : Outcome} (hs : s.Regular false)
    (h : s.loadVm layout cpio vm ranges = .ok (o, ranges', s')) : s'.Regular false := by
  cases loadVm_cases h with
  | noMemory hnone => exact hs
  | notCopied hcarves hcopy => exact hs.copyToUnmapped hcopy
  | notDenied hcarves hcopy hdeny => exact (hs.copyToUnmapped hcopy).unmapPrimary hdeny
  | given hcarves hcopy hdeny hstart =>
    exact ((hs.copyToUnmapped hcopy).unmapPrimary hdeny).startVm hS hstart

/-! ## One round -/

/-- The pool once the kernel has been copied, up to the addresses of single pages. -/
def copiedPool (kernel : MemIter) (begin : Nat) (s : Loader S H) : MPool :=
  s.mpool.spend
    (s.hypervisorPtable.mapNeed begin (paAdd begin kernel.len) Mode.W +
      s.hypervisorPtable.laterNeed begin (paAdd begin kernel.len) Mode.W)
    (s.hypervisorPtable.laterFrees begin (paAdd begin kernel.len) Mode.W)

/-- The number of tables that it takes to deny memory to the primary VM. -/
def primaryNeed (begin endAddr : Nat) (s : Loader S H) : Nat :=
  (s.vms.head?.map fun vm => vm.ptable.unmapNeed begin endAddr).getD 0

/-- The number of tables that the primary VM gives back. -/
def primaryFrees (begin endAddr : Nat) (s : Loader S H) : Nat :=
  (s.vms.head?.map fun vm => vm.ptable.unmapFrees begin endAddr).getD 0

/-- The pool once the memory has been denied to the primary VM, up to the addresses of
single pages. -/
def deniedPool (kernel : MemIter) (begin endAddr : Nat) (s : Loader S H) : MPool :=
  (s.copiedPool kernel begin).spend (s.primaryNeed begin endAddr) (s.primaryFrees begin endAddr)

/-- There are pages to copy the kernel and to deny the memory to the primary VM. -/
structure GetsMemory (kernel : MemIter) (begin endAddr : Nat) (s : Loader S H) : Prop where
  copy : s.hypervisorPtable.mapNeed begin (paAdd begin kernel.len) Mode.W ≤ s.mpool.count
  deny : s.primaryNeed begin endAddr ≤ (s.copiedPool kernel begin).count

/-- There are a slot and root tables for a new VM, too. -/
structure GetsSlot (kernel : MemIter) (begin endAddr : Nat) (s : Loader S H) : Prop extends
    s.GetsMemory kernel begin endAddr where
  slot : s.vms.length ≠ maxVms
  root : ((s.deniedPool kernel begin endAddr).allocPages S.rootTableCount S.rootTableCount).isSome

/-- There are tables to give it the memory, too. -/
structure GetsTable (kernel : MemIter) (begin endAddr : Nat) (s : Loader S H) : Prop extends
    s.GetsSlot kernel begin endAddr where
  table : newNeed S begin endAddr + S.rootTableCount ≤ (s.deniedPool kernel begin endAddr).count

section Copy

variable {kernel : MemIter} {begin : Nat} (hs : s.Regular strict)
include hs

theorem copyToUnmapped_true_iff : (∃ s₁, s.copyToUnmapped begin kernel = .ok (true, s₁)) ↔
      index (archMmClearPa begin) H.rootLevel ≤ H.rootTableCount ∧
      (kernel.len = 0 ∨ begin + kernel.len ≤ H.ptableAddrSpaceEnd) ∧
      s.hypervisorPtable.mapNeed begin (paAdd begin kernel.len) Mode.W +
        s.hypervisorPtable.laterNeed begin (paAdd begin kernel.len) Mode.W ≤ s.mpool.count := by
  have hok := @identityUpdate_ok_iff H (H.modeToAttrs aarch64 Mode.W) false _ begin
    (paAdd begin kernel.len) _ hs.hypervisorPtable _ hs.mpool
  constructor
  · rintro ⟨s₁, h⟩
    obtain ⟨pt, mpool₁, pt', mpool', hmap, hspace, hunmap, -⟩ := copyToUnmapped_eq_true.mp h
    have hidx := index_le_of_identityUpdate hmap
    have hneed : s.hypervisorPtable.mapNeed begin _ Mode.W ≤ _ := (hok hidx).mp ⟨_, _, hmap⟩
    have hleft := identityMap_left hs.hypervisorPtable hs.mpool hmap
    rw [mapFrees_of_valid (by decide)] at hleft
    have hlater := (unmap_ok_iff hs.hypervisorPtable hs.mpool
      (hs.hypervisorPtable.of_identityMap hs.mpool hmap).2 hmap).mp ⟨_, _, hunmap⟩
    exact ⟨hidx, hspace, by omega⟩
  · rintro ⟨hidx, hspace, hneed⟩
    obtain ⟨pt, mpool₁, hmap⟩ := (hok hidx).mpr ((Nat.le_add_right _ _).trans hneed)
    have hleft := identityMap_left hs.hypervisorPtable hs.mpool hmap
    rw [mapFrees_of_valid (by decide)] at hleft
    obtain ⟨pt', mpool', hunmap⟩ := (unmap_ok_iff hs.hypervisorPtable hs.mpool
      (hs.hypervisorPtable.of_identityMap hs.mpool hmap).2 hmap).mpr (by omega)
    exact ⟨_, copyToUnmapped_eq_true.mpr ⟨pt, mpool₁, pt', mpool', hmap, hspace, hunmap, rfl⟩⟩

theorem copyToUnmapped_returns_iff : (∃ r, s.copyToUnmapped begin kernel = .ok r) ↔
      index (archMmClearPa begin) H.rootLevel ≤ H.rootTableCount ∧
      (s.hypervisorPtable.mapNeed begin (paAdd begin kernel.len) Mode.W ≤ s.mpool.count →
        ∃ s₁, s.copyToUnmapped begin kernel = .ok (true, s₁)) := by
  have hok := @identityUpdate_ok_iff H (H.modeToAttrs aarch64 Mode.W) false _ begin
    (paAdd begin kernel.len) _ hs.hypervisorPtable _ hs.mpool
  constructor
  · rintro ⟨⟨_ | _, s₁⟩, h⟩
    · obtain ⟨pt, mpool, hmap, -⟩ := copyToUnmapped_eq_false.mp h
      have hidx := index_le_of_identityUpdate hmap
      refine ⟨hidx, fun hneed => ?_⟩
      obtain ⟨_, _, hmap'⟩ := (hok hidx).mpr hneed
      cases hmap.symm.trans hmap'
    · exact ⟨((copyToUnmapped_true_iff hs).mp ⟨s₁, h⟩).1, fun _ => ⟨s₁, h⟩⟩
  · rintro ⟨hidx, hcopied⟩
    obtain ⟨⟨_ | _, pt, mpool⟩, hmap⟩ := identityUpdate_isSome_iff.mpr hidx
    · obtain ⟨s₁, h⟩ := hcopied ((hok hidx).mp ⟨_, _, hmap⟩)
      exact ⟨_, h⟩
    · exact ⟨_, copyToUnmapped_eq_false.mpr ⟨pt, mpool, hmap, rfl⟩⟩

theorem copyToUnmapped_alike {s₁ : Loader S H}
    (h : s.copyToUnmapped begin kernel = .ok (true, s₁)) :
    s₁.mpool.Alike (s.copiedPool kernel begin) := by
  obtain ⟨pt, mpool₁, pt', mpool', hmap, -, hunmap, rfl⟩ := copyToUnmapped_eq_true.mp h
  obtain ⟨hpt, hmpool₁⟩ := hs.hypervisorPtable.of_identityMap hs.mpool hmap
  have hleft := identityMap_left hs.hypervisorPtable hs.mpool hmap
  rw [mapFrees_of_valid (by decide)] at hleft
  obtain ⟨hneed, hfrees⟩ := unmap_of_identityMap hs.hypervisorPtable hs.mpool hmap
  have hmapped := identityUpdate_alike hs.hypervisorPtable hs.mpool hmap hleft
  have hunmapped := identityUpdate_alike hpt hmpool₁ hunmap (unmap_count hpt hmpool₁ hunmap)
  rw [hfrees, ← unmapNeed, hneed] at hunmapped
  have htrans := hunmapped.trans (hmapped.spend _ _)
  rw [MPool.spend, MPool.spend, Function.iterate_zero_apply, MPool.draw_draw] at htrans
  exact htrans

end Copy

section Deny

variable {begin endAddr : Nat} (hs : s.Regular strict) {m : MPool} (hm : s.mpool.Alike m)
include hs hm

theorem unmapPrimary_ok_iff (hvms : s.vms ≠ [])
    (hidx : index (archMmClearPa begin) S.rootLevel ≤ S.rootTableCount) :
    (∃ s', s.unmapPrimary begin endAddr = .ok (.ok, s')) ↔ s.primaryNeed begin endAddr ≤
      m.count := by
  obtain ⟨primary, vms, hcons⟩ := exists_cons_of_ne_nil hvms
  have hok := @identityUpdate_ok_iff S
    (S.modeToAttrs aarch64 (Mode.UNOWNED ||| Mode.INVALID ||| Mode.SHARED)) true _ begin endAddr _
    (hs.vms primary (hcons ▸ mem_cons_self)) _ hs.mpool hidx
  rw [primaryNeed, hcons, ← hm.count]
  refine Iff.trans ?_ hok
  constructor
  · rintro ⟨s', h⟩
    obtain ⟨primary', vms', ptable, mpool, hcons', hunmap, -⟩ := unmapPrimary_eq_ok h
    cases hcons.symm.trans hcons'
    exact ⟨ptable, mpool, hunmap⟩
  · rintro ⟨ptable, mpool, hunmap⟩
    simp only [Loader.unmapPrimary, hcons]
    exact ⟨_, bind_eq_ok.mpr ⟨_, orStop_eq_ok.mpr hunmap, rfl⟩⟩

theorem unmapPrimary_alike (h : s.unmapPrimary begin endAddr = .ok (.ok, s')) :
    s'.mpool.Alike (m.spend (s.primaryNeed begin endAddr) (s.primaryFrees begin endAddr)) := by
  obtain ⟨primary, vms, ptable, mpool, hcons, hunmap, rfl⟩ := unmapPrimary_eq_ok h
  have hprimary := hs.vms primary (hcons ▸ mem_cons_self)
  rw [primaryNeed, primaryFrees, hcons]
  exact (identityUpdate_alike hprimary hs.mpool hunmap
    (unmap_count hprimary hs.mpool hunmap)).trans (hm.spend _ _)

end Deny

theorem hasRoom_iff {m : MPool} (hm : s.mpool.Alike m) : s.HasRoom ↔ s.vms.length ≠ maxVms ∧
    (m.allocPages S.rootTableCount S.rootTableCount).isSome := by
  rw [HasRoom, new, ← hm.allocPages]
  cases s.mpool.allocPages S.rootTableCount S.rootTableCount <;> rfl

/-- When a new VM can be given its memory. -/
theorem new_maps_iff (hS : S.Fits) {begin endAddr : Nat} {pt : PageTable S} {m m' : MPool}
    (hm : m.Wf) (hnew : new aarch64 S m = some (pt, m'))
    (hidx : index (archMmClearPa begin) S.rootLevel ≤ S.rootTableCount) :
    (∃ pt' mpool, pt.identityMap aarch64 begin endAddr (Mode.R ||| Mode.W ||| Mode.X) m' =
        some (.ok, pt', mpool)) ↔
      newNeed S begin endAddr + S.rootTableCount ≤ m.count := by
  rw [new] at hnew
  split at hnew
  · contradiction
  · rename_i root mpool halloc
    cases hnew
    obtain ⟨hpages, hwf⟩ := MPool.allocPages_spec hm halloc
    have hcount : m.count = S.rootTableCount + m'.count := by
      rw [MPool.count, hpages, Multiset.card_add]
      simp [Chunk.pages, MPool.count]
    have hok := @identityUpdate_ok_iff S
      (S.modeToAttrs aarch64 (Mode.R ||| Mode.W ||| Mode.X)) false _ begin endAddr _
      (regular_absentTable hS root) _ hwf hidx
    refine hok.trans ?_
    change newNeed S begin endAddr ≤ _ ↔ _
    omega

theorem primaryNeed_of_copyToUnmapped {kernel : MemIter} {begin endAddr : Nat} {s₁ : Loader S H}
    (h : s.copyToUnmapped begin kernel = .ok (true, s₁)) :
    s₁.primaryNeed begin endAddr = s.primaryNeed begin endAddr ∧
      s₁.primaryFrees begin endAddr = s.primaryFrees begin endAddr := by
  rw [primaryNeed, primaryFrees, vms_of_copyToUnmapped h]
  exact ⟨rfl, rfl⟩

section Given

variable {kernel : MemIter} {begin endAddr : Nat} {s₁ s₂ : Loader S H} (hs : s.Regular strict)
  (hcopy : s.copyToUnmapped begin kernel = .ok (true, s₁))
  (hdeny : s₁.unmapPrimary begin endAddr = .ok (.ok, s₂))
include hs hcopy hdeny

/-- The pool from which a new VM gets its tables. -/
theorem given_alike : s₂.mpool.Alike (s.deniedPool kernel begin endAddr) := by
  have h := unmapPrimary_alike (hs.copyToUnmapped hcopy) (copyToUnmapped_alike hs hcopy) hdeny
  rwa [(primaryNeed_of_copyToUnmapped hcopy).1, (primaryNeed_of_copyToUnmapped hcopy).2] at h

theorem getsMemory_of_given : s.GetsMemory kernel begin endAddr := by
  have hcopied := ((copyToUnmapped_true_iff hs).mp ⟨s₁, hcopy⟩).2.2
  refine ⟨(Nat.le_add_right _ _).trans hcopied, ?_⟩
  obtain ⟨_, _, _, _, hvms, hunmap, -⟩ := unmapPrimary_eq_ok hdeny
  rw [← (primaryNeed_of_copyToUnmapped hcopy).1]
  exact (unmapPrimary_ok_iff (hs.copyToUnmapped hcopy) (copyToUnmapped_alike hs hcopy)
    (hvms ▸ cons_ne_nil _ _) (index_le_of_identityUpdate hunmap)).mp ⟨s₂, hdeny⟩

theorem hasRoom_of_given : s₂.HasRoom ↔ s.GetsSlot kernel begin endAddr := by
  have hlength : s₂.vms.length = s.vms.length := by
    rw [length_of_unmapPrimary hdeny, vms_of_copyToUnmapped hcopy]
  rw [hasRoom_iff (given_alike hs hcopy hdeny), hlength]
  constructor
  · rintro ⟨hslot, hroot⟩
    exact ⟨getsMemory_of_given hs hcopy hdeny, hslot, hroot⟩
  · rintro ⟨-, hslot, hroot⟩
    exact ⟨hslot, hroot⟩

theorem maps_of_given (hS : S.Fits) {pt : PageTable S} {mpool : MPool}
    (hfree : s₂.vms.length ≠ maxVms) (hnew : new aarch64 S s₂.mpool = some (pt, mpool)) :
    (∃ pt' mpool', pt.identityMap aarch64 begin endAddr (Mode.R ||| Mode.W ||| Mode.X) mpool =
        some (.ok, pt', mpool')) ↔
      s.GetsTable kernel begin endAddr := by
  obtain ⟨_, _, _, _, -, hunmap, -⟩ := unmapPrimary_eq_ok hdeny
  rw [new_maps_iff hS ((hs.copyToUnmapped hcopy).unmapPrimary hdeny).mpool hnew
    (index_le_of_identityUpdate hunmap), (given_alike hs hcopy hdeny).count]
  have hslot := (hasRoom_of_given hs hcopy hdeny).mp ⟨hfree, by rw [hnew]; rfl⟩
  exact ⟨fun h => ⟨hslot, h⟩, fun h => h.table⟩

end Given

/-- A round that returns gets as far as a slot exactly if there are pages for it. -/
theorem takesSlot_iff {vm : ManifestVm} {ranges : List MemRange} (hs : s.Regular strict)
    (hreturns : ∃ r, s.loadVm layout cpio vm ranges = .ok r) :
    s.TakesSlot layout cpio vm ranges ↔ ∃ kernel begin endAddr ranges',
      s.Carves layout cpio vm ranges kernel begin endAddr ranges' ∧
      s.GetsSlot kernel begin endAddr := by
  constructor
  · rintro ⟨kernel, begin, endAddr, ranges', s₁, s₂, hcarves, hcopy, hdeny, hroom⟩
    exact ⟨kernel, begin, endAddr, ranges', hcarves, (hasRoom_of_given hs hcopy hdeny).mp hroom⟩
  · rintro ⟨kernel, begin, endAddr, ranges', hcarves, hslot⟩
    obtain ⟨⟨o, ranges₁, s'⟩, hload⟩ := hreturns
    cases loadVm_cases hload with
    | noMemory hnone => exact absurd hcarves (hnone kernel begin endAddr ranges')
    | notCopied hcarves' hcopy =>
      obtain ⟨rfl, rfl, rfl, rfl⟩ := hcarves.unique hcarves'
      obtain ⟨s₁, hcopy'⟩ := ((copyToUnmapped_returns_iff hs).mp ⟨_, hcopy⟩).2 hslot.copy
      cases hcopy.symm.trans hcopy'
    | notDenied hcarves' hcopy hdeny =>
      obtain ⟨rfl, rfl, rfl, rfl⟩ := hcarves.unique hcarves'
      obtain ⟨_, _, _, _, hvms, hunmap, -⟩ := unmapPrimary_eq_ok hdeny
      obtain ⟨s₂, hdeny'⟩ := (unmapPrimary_ok_iff (hs.copyToUnmapped hcopy)
        (copyToUnmapped_alike hs hcopy) (hvms ▸ cons_ne_nil _ _)
        (index_le_of_identityUpdate hunmap)).mpr
          (by rw [(primaryNeed_of_copyToUnmapped hcopy).1]; exact hslot.deny)
      cases hdeny.symm.trans hdeny'
    | @given _ _ _ _ s₁ s₂ _ hcarves' hcopy hdeny hstart =>
      obtain ⟨rfl, rfl, rfl, rfl⟩ := hcarves.unique hcarves'
      exact ⟨kernel, begin, endAddr, ranges', s₁, s₂, hcarves, hcopy, hdeny,
        (hasRoom_of_given hs hcopy hdeny).mpr hslot⟩

end Loader

end Hafnium
