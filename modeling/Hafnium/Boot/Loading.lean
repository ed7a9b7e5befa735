import Hafnium.Boot.Load

/-!
# Runs of the loader

The entries of a manifest are loaded one after another.  `Reaches` is the state in
which the loop finds an entry; what a whole run does is said in terms of these states.
-/

namespace Hafnium

open Support Aarch64 List Loader Stage

/-- The first vCPU of a VM is going to run. -/
def LoadedVm.Started {S : Stage} (vm : LoadedVm S) : Prop :=
  ∃ entry arg vcpus, vm.vcpus = .ready entry arg :: vcpus

namespace Loader

variable {S H : Stage} {layout : Layout} {cpio : MemIter}

/-! ## What the steps do to the VMs -/

variable {s s' : Loader S H}

theorem copyToUnmapped_eq_false {dst : Nat} {src : MemIter} :
    s.copyToUnmapped dst src = .ok (false, s') ↔ ∃ hypervisorPtable mpool,
      s.hypervisorPtable.identityMap aarch64 dst (paAdd dst src.len) Mode.W s.mpool =
        some (.err, hypervisorPtable, mpool) ∧
      s' = { s with hypervisorPtable, mpool } := by
  constructor
  · intro h
    obtain ⟨⟨_ | _, pt, mpool⟩, hmap, h⟩ := bind_eq_ok.mp h
    · obtain ⟨mem, -, h⟩ := bind_eq_ok.mp h
      obtain ⟨⟨_ | _, r⟩, -, h⟩ := bind_eq_ok.mp h <;> cases h
    · cases h
      exact ⟨pt, mpool, orStop_eq_ok.mp hmap, rfl⟩
  · rintro ⟨pt, mpool, hmap, rfl⟩
    exact bind_eq_ok.mpr ⟨_, orStop_eq_ok.mpr hmap, rfl⟩

theorem copyToUnmapped_eq_true {dst : Nat} {src : MemIter} :
    s.copyToUnmapped dst src = .ok (true, s') ↔ ∃ pt mpool₁ hypervisorPtable mpool,
      s.hypervisorPtable.identityMap aarch64 dst (paAdd dst src.len) Mode.W s.mpool =
        some (.ok, pt, mpool₁) ∧
      (src.len = 0 ∨ dst + src.len ≤ H.ptableAddrSpaceEnd) ∧
      pt.unmap aarch64 dst (paAdd dst src.len) mpool₁ = some (.ok, hypervisorPtable, mpool) ∧
      s' = { s with hypervisorPtable, mpool, mem := s.mem.copy src.next dst src.len } := by
  constructor
  · intro h
    obtain ⟨⟨_ | _, pt, mpool₁⟩, hmap, h⟩ := bind_eq_ok.mp h
    · obtain ⟨mem, hmem, h⟩ := bind_eq_ok.mp h
      obtain ⟨⟨_ | _, pt', mpool'⟩, hunmap, h⟩ := bind_eq_ok.mp h
      · cases h
        rw [writeMapped] at hmem
        split at hmem
        · cases hmem
          exact ⟨pt, mpool₁, pt', mpool', orStop_eq_ok.mp hmap, ‹_›, orStop_eq_ok.mp hunmap, rfl⟩
        · contradiction
      · contradiction
    · cases h
  · rintro ⟨pt, mpool₁, pt', mpool', hmap, hspace, hunmap, rfl⟩
    refine bind_eq_ok.mpr ⟨_, orStop_eq_ok.mpr hmap, bind_eq_ok.mpr ⟨_, if_pos hspace, ?_⟩⟩
    exact bind_eq_ok.mpr ⟨_, orStop_eq_ok.mpr hunmap, rfl⟩

theorem vms_of_copyToUnmapped {dst : Nat} {src : MemIter} {copied : Bool}
    (h : s.copyToUnmapped dst src = .ok (copied, s')) : s'.vms = s.vms := by
  cases copied with
  | false =>
    obtain ⟨_, _, -, rfl⟩ := copyToUnmapped_eq_false.mp h
    rfl
  | true =>
    obtain ⟨_, _, _, _, -, -, -, rfl⟩ := copyToUnmapped_eq_true.mp h
    rfl

/-- Denying memory to the primary VM changes its table only. -/
theorem unmapPrimary_eq_ok {begin endAddr : Nat} {o : Outcome}
    (h : s.unmapPrimary begin endAddr = .ok (o, s')) : ∃ primary vms ptable mpool,
      s.vms = primary :: vms ∧
      primary.ptable.unmap aarch64 begin endAddr s.mpool = some (o, ptable, mpool) ∧
      s' = { s with vms := { primary with ptable } :: vms, mpool } := by
  rw [unmapPrimary] at h
  split at h
  · contradiction
  · rename_i primary vms hvms
    obtain ⟨⟨o', ptable, mpool⟩, hunmap, h⟩ := bind_eq_ok.mp h
    cases h
    exact ⟨primary, vms, ptable, mpool, hvms, orStop_eq_ok.mp hunmap, rfl⟩

theorem length_of_unmapPrimary {begin endAddr : Nat} {o : Outcome}
    (h : s.unmapPrimary begin endAddr = .ok (o, s')) : s'.vms.length = s.vms.length := by
  obtain ⟨primary, vms, ptable, mpool, hvms, -, rfl⟩ := unmapPrimary_eq_ok h
  rw [hvms]
  rfl

/-- There is a slot for a VM, and a page for its table. -/
def HasRoom (s : Loader S H) : Prop :=
  s.vms.length ≠ maxVms ∧ (PageTable.new aarch64 S s.mpool).isSome

theorem newVm_eq_ok_some {n : Nat} {s : Loader S H} {vm : LoadedVm S} {mpool : MPool} :
    s.newVm n = .ok (some (vm, mpool)) ↔ s.vms.length ≠ maxVms ∧ n ≤ maxCpus ∧
      vm.id = s.vms.length + hfVmIdOffset ∧ vm.vcpus = replicate n .off ∧
      PageTable.new aarch64 S s.mpool = some (vm.ptable, mpool) := by
  obtain ⟨id, vcpus, ptable⟩ := vm
  rw [newVm]
  split
  · simp [*]
  · split
    · simp [*]
    · rename_i hnew
      split
      · simp only [reduceCtorEq, false_iff]
        omega
      · simp only [Except.ok.injEq, Option.some.injEq, Prod.mk.injEq, LoadedVm.mk.injEq, hnew]
        constructor
        · rintro ⟨⟨rfl, rfl, rfl⟩, rfl⟩
          exact ⟨‹_›, by omega, rfl, rfl, rfl, rfl⟩
        · rintro ⟨-, -, rfl, rfl, rfl, rfl⟩
          exact ⟨⟨rfl, rfl, rfl⟩, rfl⟩

theorem newVm_eq_ok_none {n : Nat} {s : Loader S H} : s.newVm n = .ok none ↔ ¬s.HasRoom := by
  rw [newVm, HasRoom]
  split
  · simp [*]
  · split
    · simp [*]
    · rename_i hnew
      split <;> simp [*]

theorem resetAndStart_eq_ok {entry arg : Nat} {vm vm' : LoadedVm S}
    (h : vm.resetAndStart entry arg = .ok vm') : ∃ vcpu vcpus, vm.vcpus = vcpu :: vcpus ∧
      vm.id ≠ hfPrimaryVmId ∧
      (vcpu = .off → vm' = { vm with vcpus := .ready entry arg :: vcpus }) := by
  rw [LoadedVm.resetAndStart] at h
  split at h
  · contradiction
  · rename_i vcpu vcpus hvcpus
    refine ⟨vcpu, vcpus, hvcpus, ?_⟩
    split at h
    · contradiction
    · rename_i hid
      refine ⟨hid, fun hoff => ?_⟩
      rw [if_pos hoff, LoadedVm.on, hvcpus] at h
      exact (Except.ok.inj h).symm

/-- The results of `startVm`. -/
inductive StartVm (vcpuCount begin endAddr : Nat) (s : Loader S H) : Loader S H → Prop
  | noRoom (hroom : ¬s.HasRoom) : StartVm vcpuCount begin endAddr s s
  | notMapped {vm : LoadedVm S} {ptable : PageTable S} {mpool mpool' : MPool}
      (hnew : s.newVm vcpuCount = .ok (some (vm, mpool)))
      (hmap : vm.ptable.identityMap aarch64 begin endAddr (Mode.R ||| Mode.W ||| Mode.X) mpool =
        some (.err, ptable, mpool')) :
      StartVm vcpuCount begin endAddr s
        { s with vms := s.vms ++ [{ vm with ptable }], mpool := mpool' }
  | started {vm : LoadedVm S} {vcpus : List LoadedVCpu} {ptable : PageTable S}
      {mpool mpool' : MPool} (hnew : s.newVm vcpuCount = .ok (some (vm, mpool)))
      (hmap : vm.ptable.identityMap aarch64 begin endAddr (Mode.R ||| Mode.W ||| Mode.X) mpool =
        some (.ok, ptable, mpool'))
      (hvcpus : vm.vcpus = .off :: vcpus) :
      StartVm vcpuCount begin endAddr s
        { s with
          vms := s.vms ++
            [{ vm with ptable, vcpus := .ready begin (paDifference begin endAddr) :: vcpus }]
          mpool := mpool' }

theorem startVm_cases {n begin endAddr : Nat}
    (h : s.startVm n begin endAddr = .ok s') : StartVm n begin endAddr s s' := by
  obtain ⟨_ | ⟨vm, mpool⟩, hnew, h⟩ := bind_eq_ok.mp h
  · cases h
    exact .noRoom (newVm_eq_ok_none.mp hnew)
  · obtain ⟨⟨_ | _, ptable, mpool'⟩, hmap, h⟩ := bind_eq_ok.mp h
    · obtain ⟨vm', hreset, h⟩ := bind_eq_ok.mp h
      obtain ⟨vcpu, vcpus, hvcpus, -, hoff⟩ := resetAndStart_eq_ok hreset
      obtain ⟨-, -, -, hreplicate, -⟩ := newVm_eq_ok_some.mp hnew
      -- all vCPUs of a new VM are off
      have hvcpu : vcpu = .off := by
        apply eq_of_mem_replicate (n := n)
        rw [← hreplicate, show vm.vcpus = vcpu :: vcpus from hvcpus]
        exact mem_cons_self
      rw [hoff hvcpu] at h
      cases h
      exact @StartVm.started S H n begin endAddr s vm vcpus ptable mpool mpool' hnew
        (orStop_eq_ok.mp hmap) (hvcpu ▸ hvcpus)
    · cases h
      exact .notMapped hnew (orStop_eq_ok.mp hmap)

/-- The memory for a VM can be taken from the ranges: its kernel is in the archive, and
fits in. -/
structure Carves (layout : Layout) (cpio : MemIter) (vm : ManifestVm) (ranges : List MemRange)
    (s : Loader S H) (kernel : MemIter) (begin endAddr : Nat) (ranges' : List MemRange) :
    Prop where
  found : findFileMemiter layout.afterTrailer s.mem cpio (asAsciz vm.kernelFilename) = some kernel
  fits : kernel.len ≤ roundUpToPage vm.memSize
  carved : carveOutMemRange ranges (roundUpToPage vm.memSize) = some (begin, endAddr, ranges')

/-- The results of `loadVm`. -/
inductive LoadVm (layout : Layout) (cpio : MemIter) (vm : ManifestVm) (ranges : List MemRange)
    (s : Loader S H) : Outcome → List MemRange → Loader S H → Prop
  | noMemory (hnone : ∀ kernel begin endAddr ranges',
        ¬s.Carves layout cpio vm ranges kernel begin endAddr ranges') :
      LoadVm layout cpio vm ranges s .ok ranges s
  | notCopied {kernel : MemIter} {begin endAddr : Nat} {ranges' : List MemRange}
      {s' : Loader S H} (hcarves : s.Carves layout cpio vm ranges kernel begin endAddr ranges')
      (hcopy : s.copyToUnmapped begin kernel = .ok (false, s')) :
      LoadVm layout cpio vm ranges s .ok ranges' s'
  | notDenied {kernel : MemIter} {begin endAddr : Nat} {ranges' : List MemRange}
      {s₁ s' : Loader S H} (hcarves : s.Carves layout cpio vm ranges kernel begin endAddr ranges')
      (hcopy : s.copyToUnmapped begin kernel = .ok (true, s₁))
      (hdeny : s₁.unmapPrimary begin endAddr = .ok (.err, s')) :
      LoadVm layout cpio vm ranges s .err ranges' s'
  | given {kernel : MemIter} {begin endAddr : Nat} {ranges' : List MemRange}
      {s₁ s₂ s' : Loader S H}
      (hcarves : s.Carves layout cpio vm ranges kernel begin endAddr ranges')
      (hcopy : s.copyToUnmapped begin kernel = .ok (true, s₁))
      (hdeny : s₁.unmapPrimary begin endAddr = .ok (.ok, s₂))
      (hstart : s₂.startVm vm.vcpuCount begin endAddr = .ok s') :
      LoadVm layout cpio vm ranges s .ok ranges' s'

theorem findKernel_eq_ok {vm : ManifestVm} {s : Loader S H} {r : Option MemIter} :
    s.findKernel layout cpio vm = .ok r ↔
      r = findFileMemiter layout.afterTrailer s.mem cpio (asAsciz vm.kernelFilename) ∧
      validUtf8 (asAsciz vm.debugName) ∧ (r = none → validUtf8 (asAsciz vm.kernelFilename)) := by
  rw [findKernel]
  cases hname : validUtf8 (asAsciz vm.debugName)
  · simp [throw, throwThe, MonadExceptOf.throw, bind, Except.bind]
  · cases hfound : findFileMemiter layout.afterTrailer s.mem cpio (asAsciz vm.kernelFilename)
    · cases hfile : validUtf8 (asAsciz vm.kernelFilename)
      · simp [throw, throwThe, MonadExceptOf.throw, bind, Except.bind]
      · simp [pure, Except.pure, eq_comm]
    · simp only [Bool.not_true, Bool.false_eq_true, if_false, bind, Except.bind, pure, Except.pure,
        Except.ok.injEq, true_and]
      constructor
      · rintro rfl
        exact ⟨rfl, nofun⟩
      · rintro ⟨rfl, -⟩
        rfl

theorem loadVm_cases {vm : ManifestVm} {ranges ranges' : List MemRange}
    {o : Outcome} (h : s.loadVm layout cpio vm ranges = .ok (o, ranges', s')) :
    LoadVm layout cpio vm ranges s o ranges' s' := by
  obtain ⟨r, hkernel, h⟩ := bind_eq_ok.mp h
  obtain ⟨hfound, -⟩ := findKernel_eq_ok.mp hkernel
  cases r with
  | none =>
    cases h
    exact .noMemory fun kernel _ _ _ hcarves => nomatch hfound.trans hcarves.found
  | some kernel =>
    dsimp only at h
    split at h
    · rename_i hsmall
      cases h
      refine .noMemory fun kernel' _ _ _ hcarves => ?_
      cases hfound.trans hcarves.found
      exact absurd hcarves.fits (Nat.not_le.mpr hsmall)
    · rename_i hfits
      split at h
      · rename_i hcarve
        cases h
        exact .noMemory fun _ _ _ _ hcarves => nomatch hcarve.symm.trans hcarves.carved
      · rename_i begin endAddr ranges₁ hcarve
        have hcarves : s.Carves layout cpio vm ranges kernel begin endAddr ranges₁ :=
          ⟨hfound.symm, Nat.not_lt.mp hfits, hcarve⟩
        obtain ⟨⟨o', s'⟩, hgive, h⟩ := bind_eq_ok.mp h
        cases h
        obtain ⟨⟨copied, s₁⟩, hcopy, h⟩ := bind_eq_ok.mp hgive
        cases copied with
        | false =>
          cases h
          exact .notCopied hcarves hcopy
        | true =>
          obtain ⟨⟨o', s₂⟩, hdeny, h⟩ := bind_eq_ok.mp h
          cases o' with
          | err =>
            cases h
            exact .notDenied hcarves hcopy hdeny
          | ok =>
            obtain ⟨s₃, hstart, h⟩ := bind_eq_ok.mp h
            cases h
            exact .given hcarves hcopy hdeny hstart

theorem loadPrimary_eq_ok {kernelArg : Nat} {initrd : MemIter}
    (h : s.loadPrimary layout cpio kernelArg = .ok (some initrd, s')) :
    ∃ kernel s₁ vm vcpus ptable mpool mpool',
      s.copyToUnmapped layout.primaryBegin kernel = .ok (true, s₁) ∧ s₁.vms = [] ∧
      s₁.newVm maxCpus = .ok (some (vm, mpool)) ∧
      mapPrimary layout vm.ptable mpool = .ok (.ok, ptable, mpool') ∧
      s' = { s₁ with
        vms := [{ vm with ptable, vcpus := .ready layout.primaryBegin kernelArg :: vcpus }]
        mpool := mpool' } := by
  rw [loadPrimary] at h
  split at h
  · cases h
  · rename_i kernel hkernel
    obtain ⟨⟨_ | _, s₁⟩, hcopy, h⟩ := bind_eq_ok.mp h
    · cases h
    · dsimp only at h
      split at h
      · cases h
      · obtain ⟨_ | ⟨vm, mpool⟩, hnew, h⟩ := bind_eq_ok.mp h
        · cases h
        · dsimp only at h
          split at h
          · cases h
          · rename_i hid
            obtain ⟨⟨_ | _, ptable, mpool'⟩, hmap, h⟩ := bind_eq_ok.mp h
            · obtain ⟨vm', hon, h⟩ := bind_eq_ok.mp h
              cases h
              obtain ⟨-, -, hid', -⟩ := newVm_eq_ok_some.mp hnew
              have hvms : s₁.vms = [] := by
                rw [not_not.mp hid, hfPrimaryVmId] at hid'
                exact eq_nil_of_length_eq_zero (by omega)
              rw [LoadedVm.on] at hon
              split at hon
              · contradiction
              · rename_i vcpu vcpus hvcpus
                cases hon
                refine ⟨kernel, s₁, vm, vcpus, ptable, mpool, mpool', hcopy, hvms, hnew, hmap, ?_⟩
                rw [hvms]
                rfl
            · cases h

theorem loadVm_of_missing {vm : ManifestVm} {ranges : List MemRange} {s : Loader S H}
    (hmissing : findFileMemiter layout.afterTrailer s.mem cpio (asAsciz vm.kernelFilename) = none)
    (hname : validUtf8 (asAsciz vm.debugName)) (hfile : validUtf8 (asAsciz vm.kernelFilename)) :
    s.loadVm layout cpio vm ranges = .ok (.ok, ranges, s) :=
  bind_eq_ok.mpr ⟨none, findKernel_eq_ok.mpr ⟨hmissing.symm, hname, fun _ => hfile⟩, rfl⟩

theorem loadVm_of_carves {vm : ManifestVm} {ranges ranges' : List MemRange}
    {kernel : MemIter} {begin endAddr : Nat} {o : Outcome}
    (hname : validUtf8 (asAsciz vm.debugName))
    (hcarves : s.Carves layout cpio vm ranges kernel begin endAddr ranges')
    (hgive : s.giveMemory kernel vm.vcpuCount begin endAddr = .ok (o, s')) :
    s.loadVm layout cpio vm ranges = .ok (o, ranges', s') := by
  refine bind_eq_ok.mpr ⟨some kernel, findKernel_eq_ok.mpr ⟨hcarves.found.symm, hname, nofun⟩, ?_⟩
  dsimp only
  rw [if_neg (Nat.not_lt.mpr hcarves.fits), hcarves.carved]
  exact bind_eq_ok.mpr ⟨_, hgive, rfl⟩

/-! ## Runs -/

/-- One round of the loop, which skips the primary VM. -/
def round (layout : Layout) (cpio : MemIter) (i : Nat) (vm : ManifestVm) (ranges : List MemRange)
    (s : Loader S H) : Except LoadPanic (Outcome × List MemRange × Loader S H) :=
  if hfVmIdOffset + i = hfPrimaryVmId then .ok (.ok, ranges, s) else s.loadVm layout cpio vm ranges

theorem round_zero (vm : ManifestVm) (ranges : List MemRange) (s : Loader S H) :
    s.round layout cpio 0 vm ranges = .ok (.ok, ranges, s) := rfl

theorem round_of_pos {i : Nat} (hi : 0 < i) (vm : ManifestVm) (ranges : List MemRange)
    (s : Loader S H) : s.round layout cpio i vm ranges = s.loadVm layout cpio vm ranges := by
  rw [round, if_neg]
  rw [hfPrimaryVmId]
  omega

theorem loadVms_cons (i : Nat) (vm : ManifestVm) (vms : List ManifestVm) (ranges : List MemRange)
    (s : Loader S H) : loadVms layout cpio i (vm :: vms) ranges s =
      s.round layout cpio i vm ranges >>= fun
        | (.err, r) => .ok (.err, r)
        | (.ok, ranges, s) => loadVms layout cpio (i + 1) vms ranges s := by
  rw [loadVms, round]
  split
  · rfl
  · refine bind_congr fun r => ?_
    obtain ⟨_ | _, r⟩ := r <;> rfl

theorem loadVms_append (i : Nat) (vms vms' : List ManifestVm) (ranges : List MemRange)
    (s : Loader S H) : loadVms layout cpio i (vms ++ vms') ranges s =
      loadVms layout cpio i vms ranges s >>= fun
        | (.err, r) => .ok (.err, r)
        | (.ok, ranges, s) => loadVms layout cpio (i + vms.length) vms' ranges s := by
  induction vms generalizing i ranges s with
  | nil => rfl
  | cons vm vms ih =>
    rw [cons_append, loadVms_cons, loadVms_cons, bind_assoc]
    refine bind_congr fun r => ?_
    obtain ⟨_ | _, r⟩ := r
    · dsimp only
      rw [ih, length_cons, Nat.add_right_comm, Nat.add_assoc]
    · rfl

/-- The loop gets to an entry of the manifest, in a state. -/
def Reaches (layout : Layout) (cpio : MemIter) (manifest : List ManifestVm)
    (params : List MemRange) (s : Loader S H) (i : Nat) (ranges : List MemRange)
    (s' : Loader S H) : Prop :=
  i ≤ manifest.length ∧
    loadVms layout cpio 0 (manifest.take i) (availableRanges params) s = .ok (.ok, ranges, s')

section Run

variable {manifest : List ManifestVm} {params : List MemRange} {s : Loader S H}

theorem reaches_zero {ranges : List MemRange} {s' : Loader S H} :
    s.Reaches layout cpio manifest params 0 ranges s' ↔
      ranges = availableRanges params ∧ s' = s := by
  simp only [Reaches, Nat.zero_le, true_and, take_zero, loadVms, Except.ok.injEq, Prod.mk.injEq]
  constructor
  · rintro ⟨rfl, rfl⟩
    exact ⟨rfl, rfl⟩
  · rintro ⟨rfl, rfl⟩
    exact ⟨rfl, rfl⟩

theorem reaches_succ {i : Nat} {ranges' : List MemRange} {s'' : Loader S H} :
    s.Reaches layout cpio manifest params (i + 1) ranges' s'' ↔ ∃ vm ranges s',
      manifest[i]? = some vm ∧ s.Reaches layout cpio manifest params i ranges s' ∧
      s'.round layout cpio i vm ranges = .ok (.ok, ranges', s'') := by
  constructor
  · rintro ⟨hi, h⟩
    have hvm : manifest[i]? = some manifest[i] := List.getElem?_eq_getElem hi
    rw [List.take_add_one, hvm, Option.toList_some, loadVms_append] at h
    obtain ⟨⟨_ | _, ranges, s'⟩, hprev, h⟩ := bind_eq_ok.mp h
    · dsimp only at h
      rw [loadVms_cons, List.length_take, Nat.zero_add, Nat.min_eq_left (Nat.le_of_lt hi)] at h
      obtain ⟨⟨_ | _, ranges₁, s₁⟩, hround, h⟩ := bind_eq_ok.mp h
      · cases h
        exact ⟨_, ranges, s', hvm, ⟨Nat.le_of_lt hi, hprev⟩, hround⟩
      · cases h
    · cases h
  · rintro ⟨vm, ranges, s', hvm, ⟨-, hprev⟩, hround⟩
    have hi : i < manifest.length := (List.getElem?_eq_some_iff.mp hvm).1
    refine ⟨hi, ?_⟩
    rw [List.take_add_one, hvm, Option.toList_some, loadVms_append, hprev]
    simp only [bind, Except.bind]
    rw [loadVms_cons, List.length_take, Nat.zero_add, Nat.min_eq_left (Nat.le_of_lt hi), hround]
    rfl

/-- What holds at first and is kept by every round holds at every entry. -/
theorem Reaches.induction {I : List MemRange → Loader S H → Prop}
    (hzero : I (availableRanges params) s)
    (hround : ∀ i vm ranges s' ranges' s'', 0 < i → manifest[i]? = some vm →
      s.Reaches layout cpio manifest params i ranges s' → I ranges s' →
      s'.loadVm layout cpio vm ranges = .ok (.ok, ranges', s'') → I ranges' s'')
    {i : Nat} {ranges : List MemRange} {s' : Loader S H}
    (h : s.Reaches layout cpio manifest params i ranges s') : I ranges s' := by
  induction i generalizing ranges s' with
  | zero =>
    obtain ⟨rfl, rfl⟩ := reaches_zero.mp h
    exact hzero
  | succ i ih =>
    obtain ⟨vm, ranges₁, s₁, hvm, hprev, hstep⟩ := reaches_succ.mp h
    have hI := ih hprev
    rcases Nat.eq_zero_or_pos i with rfl | hi
    · rw [round_zero] at hstep
      cases hstep
      exact hI
    · rw [round_of_pos hi] at hstep
      exact hround i vm ranges₁ s₁ ranges s' hi hvm hprev hI hstep

end Run

/-! ## The identity of the VMs -/

/-- A round appends a VM. -/
def Creates (s s' : Loader S H) (loaded : LoadedVm S) : Prop :=
  ∃ vms, s'.vms = vms ++ [loaded] ∧ vms.length = s.vms.length

/-- An entry of the manifest gets as far as a slot for its VM. -/
def TakesSlot (layout : Layout) (cpio : MemIter) (vm : ManifestVm) (ranges : List MemRange)
    (s : Loader S H) : Prop :=
  ∃ kernel begin endAddr ranges' s₁ s₂,
    s.Carves layout cpio vm ranges kernel begin endAddr ranges' ∧
    s.copyToUnmapped begin kernel = .ok (true, s₁) ∧
    s₁.unmapPrimary begin endAddr = .ok (.ok, s₂) ∧ s₂.HasRoom

theorem Carves.unique {vm : ManifestVm} {ranges ranges₁ ranges₂ : List MemRange} {s : Loader S H}
    {kernel₁ kernel₂ : MemIter} {begin₁ begin₂ end₁ end₂ : Nat}
    (h₁ : s.Carves layout cpio vm ranges kernel₁ begin₁ end₁ ranges₁)
    (h₂ : s.Carves layout cpio vm ranges kernel₂ begin₂ end₂ ranges₂) :
    kernel₁ = kernel₂ ∧ begin₁ = begin₂ ∧ end₁ = end₂ ∧ ranges₁ = ranges₂ := by
  cases h₁.found.symm.trans h₂.found
  cases h₁.carved.symm.trans h₂.carved
  exact ⟨rfl, rfl, rfl, rfl⟩

theorem length_of_startVm {n begin endAddr : Nat} {s s' : Loader S H}
    (h : s.startVm n begin endAddr = .ok s') :
    (s.HasRoom → s'.vms.length = s.vms.length + 1) ∧
    (¬s.HasRoom → s'.vms.length = s.vms.length) := by
  cases startVm_cases h with
  | noRoom hroom => exact ⟨fun h => absurd h hroom, fun _ => rfl⟩
  | notMapped hnew _ | started hnew _ _ =>
    have hroom : s.HasRoom := by
      by_contra hroom
      exact nomatch (newVm_eq_ok_none.mpr hroom).symm.trans hnew
    exact ⟨fun _ => by simp, fun h => absurd hroom h⟩

/-- Each round takes one slot or none. -/
theorem length_of_loadVm {vm : ManifestVm} {ranges ranges' : List MemRange} {s s' : Loader S H}
    (h : s.loadVm layout cpio vm ranges = .ok (.ok, ranges', s')) :
    (s.TakesSlot layout cpio vm ranges → s'.vms.length = s.vms.length + 1) ∧
      (¬s.TakesSlot layout cpio vm ranges → s'.vms.length = s.vms.length) := by
  cases loadVm_cases h with
  | noMemory hnone =>
    refine ⟨?_, fun _ => rfl⟩
    rintro ⟨kernel, begin, endAddr, ranges', -, -, hcarves, -⟩
    exact absurd hcarves (hnone kernel begin endAddr ranges')
  | notCopied hcarves hcopy =>
    refine ⟨?_, fun _ => congrArg length (vms_of_copyToUnmapped hcopy)⟩
    rintro ⟨_, _, _, _, _, _, hcarves', hcopy', -⟩
    obtain ⟨rfl, rfl, rfl, rfl⟩ := hcarves.unique hcarves'
    exact nomatch hcopy.symm.trans hcopy'
  | given hcarves hcopy hdeny hstart =>
    rename_i kernel begin endAddr s₁ s₂
    have hlength : s₂.vms.length = s.vms.length := by
      rw [length_of_unmapPrimary hdeny, vms_of_copyToUnmapped hcopy]
    obtain ⟨hroom, hnoRoom⟩ := length_of_startVm hstart
    rw [hlength] at hroom hnoRoom
    constructor
    · rintro ⟨_, _, _, _, _, _, hcarves', hcopy', hdeny', hroom'⟩
      obtain ⟨rfl, rfl, rfl, rfl⟩ := hcarves.unique hcarves'
      cases hcopy.symm.trans hcopy'
      cases hdeny.symm.trans hdeny'
      exact hroom hroom'
    · intro hslot
      apply hnoRoom
      intro hroom'
      exact hslot ⟨kernel, begin, endAddr, ranges', s₁, s₂, hcarves, hcopy, hdeny, hroom'⟩

/-- The id of a VM is the number of VMs before it. -/
theorem Creates.id_eq {vm : ManifestVm} {ranges ranges' : List MemRange} {s s' : Loader S H}
    {loaded : LoadedVm S} (h : s.loadVm layout cpio vm ranges = .ok (.ok, ranges', s'))
    (hcreates : s.Creates s' loaded) :
    loaded.id = s.vms.length + hfVmIdOffset ∧ loaded.vcpus.length = vm.vcpuCount ∧
      vm.vcpuCount ≤ maxCpus := by
  obtain ⟨vms, hvms, hlen⟩ := hcreates
  have hlength : s'.vms.length = s.vms.length + 1 := by
    rw [hvms, length_append, hlen, length_singleton]
  cases loadVm_cases h with
  | noMemory hnone => omega
  | notCopied hcarves hcopy =>
    rw [vms_of_copyToUnmapped hcopy] at hlength
    omega
  | given hcarves hcopy hdeny hstart =>
    rename_i kernel begin endAddr s₁ s₂
    have hlength₂ : s₂.vms.length = s.vms.length := by
      rw [length_of_unmapPrimary hdeny, vms_of_copyToUnmapped hcopy]
    cases startVm_cases hstart with
    | noRoom => omega
    | notMapped hnew hmap =>
      obtain ⟨-, hcount, hid, hvcpus, -⟩ := newVm_eq_ok_some.mp hnew
      obtain ⟨-, hlast⟩ := append_inj' hvms rfl
      cases hlast
      exact ⟨by rw [← hlength₂]; exact hid, by simp [hvcpus], hcount⟩
    | started hnew hmap hoff =>
      obtain ⟨-, hcount, hid, hvcpus, -⟩ := newVm_eq_ok_some.mp hnew
      obtain ⟨-, hlast⟩ := append_inj' hvms rfl
      cases hlast
      have hlen := congrArg length (hoff.symm.trans hvcpus)
      rw [length_replicate] at hlen
      exact ⟨by rw [← hlength₂]; exact hid, hlen, hcount⟩

section Identity

variable {manifest : List ManifestVm} {params : List MemRange} {s : Loader S H}

/-- Every VM that is started has the id of its entry in the manifest. -/
def KeepsIdentity (layout : Layout) (cpio : MemIter) (manifest : List ManifestVm)
    (params : List MemRange) (s : Loader S H) : Prop :=
  ∀ i vm ranges s' ranges' s'' loaded, 0 < i → manifest[i]? = some vm →
    s.Reaches layout cpio manifest params i ranges s' →
    s'.loadVm layout cpio vm ranges = .ok (.ok, ranges', s'') → s'.Creates s'' loaded →
    loaded.Started → loaded.id = hfVmIdOffset + i

/-- All entries between the primary VM and an entry take a slot. -/
def SlotsBefore (layout : Layout) (cpio : MemIter) (manifest : List ManifestVm)
    (params : List MemRange) (s : Loader S H) (i : Nat) : Prop :=
  ∀ j vm ranges s', 0 < j → j < i → manifest[j]? = some vm →
    s.Reaches layout cpio manifest params j ranges s' → s'.TakesSlot layout cpio vm ranges

/-- There are as many VMs as entries before an entry exactly if all of these take a slot. -/
theorem length_of_reaches (hone : s.vms.length = 1) {i : Nat} (hi : 0 < i)
    {ranges : List MemRange} {s' : Loader S H}
    (h : s.Reaches layout cpio manifest params i ranges s') :
    s'.vms.length ≤ i ∧ (s'.vms.length = i ↔ s.SlotsBefore layout cpio manifest params i) := by
  induction i generalizing ranges s' with
  | zero => exact absurd hi (Nat.lt_irrefl 0)
  | succ i ih =>
    obtain ⟨vm, ranges₁, s₁, hvm, hprev, hround⟩ := reaches_succ.mp h
    rcases Nat.eq_zero_or_pos i with rfl | hpos
    · rw [round_zero] at hround
      obtain ⟨-, rfl⟩ := reaches_zero.mp hprev
      cases hround
      rw [hone]
      exact ⟨le_rfl, iff_of_true rfl fun j _ _ _ hj hlt => by omega⟩
    · rw [round_of_pos hpos] at hround
      obtain ⟨hle, hiff⟩ := ih hpos hprev
      obtain ⟨hslot, hnoSlot⟩ := length_of_loadVm hround
      by_cases htakes : s₁.TakesSlot layout cpio vm ranges₁
      · rw [hslot htakes]
        refine ⟨Nat.succ_le_succ hle, ?_⟩
        rw [Nat.succ_inj, hiff]
        constructor
        · intro hbefore j vm' ranges' s'' hj hlt hvm' hreach
          rcases Nat.lt_succ_iff_lt_or_eq.mp hlt with hlt | rfl
          · exact hbefore j vm' ranges' s'' hj hlt hvm' hreach
          · cases hvm.symm.trans hvm'
            cases hprev.2.symm.trans hreach.2
            exact htakes
        · intro hbefore j vm' ranges' s'' hj hlt
          exact hbefore j vm' ranges' s'' hj (Nat.lt_succ_of_lt hlt)
      · rw [hnoSlot htakes]
        refine ⟨Nat.le_succ_of_le hle, iff_of_false (by omega) fun hbefore => htakes ?_⟩
        exact hbefore i vm ranges₁ s₁ hpos (Nat.lt_succ_self i) hvm hprev

end Identity

end Loader

/-! ## A machine with tables of one level -/

/-- A stage with one table, of pages. -/
abbrev pageStage (kind : StageKind) : Stage := ⟨kind, 0, 1⟩

theorem fits_pageStage (kind : StageKind) : (pageStage kind).Fits :=
  ⟨⟨by simp, by simp⟩, by simp, by simp [ptableAddrSpaceEnd, rootLevel, entrySize_eq]⟩

theorem PageTableEntry.replace_zero (A : ArchMm) (pte newPte : PageTableEntry 0) (pool : MPool) :
    pte.replace A newPte pool = (newPte, pool) := by
  obtain ⟨w⟩ := pte
  rw [replace]
  split
  · rfl
  · rfl

/-- An update of a table of pages needs no other table. -/
theorem PageTable.identityUpdate_pageStage {kind : StageKind} (pt : PageTable (pageStage kind))
    (begin endAddr : Nat) (attrs : BitVec 64) (unmap : Bool) (pool : MPool)
    (hidx : index (archMmClearPa begin) (pageStage kind).rootLevel ≤
      (pageStage kind).rootTableCount) :
    ∃ pt', pt.identityUpdate aarch64 begin endAddr attrs ⟨false, unmap⟩ pool =
      some (.ok, pt', pool) := by
  have hS : (pageStage kind).Valid := (fits_pageStage kind).toValid
  by_cases hlt : archMmClearPa begin < (pageStage kind).updateEnd endAddr
  · have hin := inSpace_update hS hlt
    have hroot : ∀ (pt : PageTable (pageStage kind)) flags, ∃ pt', pt.mapRoot aarch64
        (archMmClearPa begin) ((pageStage kind).updateEnd endAddr) attrs flags pool =
          some (.ok, pt', pool) := by
      intro pt flags
      obtain ⟨tables, htables⟩ := forEach_const (f := RawPageTable.mapLevel aarch64
        ((pageStage kind).updateEnd endAddr) attrs flags 0) (s := pool)
        (l := visits (pageStage kind) ((pageStage kind).updateEnd endAddr) (archMmClearPa begin))
        (fun t b hb table => by
          have hentry := hin.child hS hb
          refine forEach_const (fun i c hc pte => ?_) table
          have hcovers := (hentry.child hc).covers_zero aarch64 flags rfl
          obtain ⟨w⟩ := pte
          rw [RawPageTable.mapPte, hcovers]
          split
          · exact ⟨_, rfl⟩
          · rw [if_pos rfl]
            split
            · dsimp only
              rw [PageTableEntry.replace_zero]
              exact ⟨_, rfl⟩
            · exact ⟨_, rfl⟩) pt.tables
      refine ⟨{ pt with tables }, ?_⟩
      rw [mapRoot, if_neg (Nat.not_lt.mpr hidx), htables]
    obtain ⟨pt₁, h₁⟩ := hroot pt ⟨false, unmap⟩
    obtain ⟨pt₂, h₂⟩ := hroot pt₁ ⟨true, unmap⟩
    refine ⟨pt₂, ?_⟩
    rw [updateEnd] at h₁ h₂
    simp only [identityUpdate, aarch64_clearPa, h₁]
    exact h₂
  · exact ⟨pt, identityUpdate_of_le (Nat.not_lt.mp hlt) hidx⟩

namespace Loader

section Pages

variable {s : Loader (pageStage .stage2) (pageStage .stage1)}

/-- Addresses up to the end of the table of pages. -/
theorem index_le_pageStage {kind : StageKind} {begin : Nat} (hbegin : begin < 2 ^ 21) :
    index (archMmClearPa begin) (pageStage kind).rootLevel ≤ (pageStage kind).rootTableCount := by
  rw [Hafnium.index_eq, entrySize_eq, archMmClearPa_eq]
  simp only [rootLevel]
  omega

theorem copyToUnmapped_pageStage {dst : Nat} (hdst : dst < 2 ^ 21) (src : MemIter)
    (hlen : dst + src.len ≤ 2 ^ 21) :
    ∃ hypervisorPtable, s.copyToUnmapped dst src =
      .ok (true, { s with hypervisorPtable, mem := s.mem.copy src.next dst src.len }) := by
  obtain ⟨pt, hmap⟩ := s.hypervisorPtable.identityUpdate_pageStage dst (paAdd dst src.len)
    ((pageStage .stage1).modeToAttrs aarch64 Mode.W) false s.mpool (index_le_pageStage hdst)
  obtain ⟨pt', hunmap⟩ := pt.identityUpdate_pageStage dst (paAdd dst src.len)
    ((pageStage .stage1).modeToAttrs aarch64 (Mode.UNOWNED ||| Mode.INVALID ||| Mode.SHARED)) true
    s.mpool (index_le_pageStage hdst)
  refine ⟨pt', copyToUnmapped_eq_true.mpr ⟨pt, s.mpool, pt', s.mpool, hmap, .inr ?_, hunmap, rfl⟩⟩
  rwa [ptableAddrSpaceEnd, entrySize_eq]

theorem mapPrimary_pageStage {layout : Layout} (htext : layout.textBegin < 2 ^ 21)
    (hrodata : layout.rodataBegin < 2 ^ 21) (hdata : layout.dataBegin < 2 ^ 21)
    (ptable : PageTable (pageStage .stage2)) (mpool : MPool) :
    ∃ ptable', mapPrimary layout ptable mpool = .ok (.ok, ptable', mpool) := by
  obtain ⟨pt, hmap⟩ := ptable.identityUpdate_pageStage 0 (2 ^ 40)
    ((pageStage .stage2).modeToAttrs aarch64 (Mode.R ||| Mode.W ||| Mode.X)) false mpool
    (index_le_pageStage (by omega))
  have hunmap : ∀ (pt : PageTable (pageStage .stage2)) begin endAddr, begin < 2 ^ 21 →
      ∃ pt', pt.unmap aarch64 begin endAddr mpool = some (.ok, pt', mpool) :=
    fun pt begin endAddr h => pt.identityUpdate_pageStage begin endAddr _ true mpool
      (index_le_pageStage h)
  obtain ⟨pt₁, htext⟩ := hunmap pt layout.textBegin layout.textEnd htext
  obtain ⟨pt₂, hrodata⟩ := hunmap pt₁ layout.rodataBegin layout.rodataEnd hrodata
  obtain ⟨pt₃, hdata⟩ := hunmap pt₂ layout.dataBegin layout.dataEnd hdata
  refine ⟨pt₃, ?_⟩
  simp only [mapPrimary, PageTable.identityMap, hmap, orStop, bind, Except.bind, unmapHypervisor,
    htext, hrodata, hdata]

theorem unmapPrimary_pageStage {primary : LoadedVm (pageStage .stage2)}
    {vms : List (LoadedVm (pageStage .stage2))} (hvms : s.vms = primary :: vms) {begin : Nat}
    (hbegin : begin < 2 ^ 21) (endAddr : Nat) :
    ∃ ptable, s.unmapPrimary begin endAddr =
      .ok (.ok, { s with vms := { primary with ptable } :: vms }) := by
  obtain ⟨ptable, hunmap⟩ := primary.ptable.identityUpdate_pageStage begin endAddr
    ((pageStage .stage2).modeToAttrs aarch64 (Mode.UNOWNED ||| Mode.INVALID ||| Mode.SHARED)) true
    s.mpool (index_le_pageStage hbegin)
  refine ⟨ptable, ?_⟩
  simp only [unmapPrimary, hvms, PageTable.unmap, hunmap, orStop, bind, Except.bind, pure,
    Except.pure]

theorem startVm_pageStage (hvms : s.vms ≠ []) (hfree : s.vms.length ≠ maxVms) {root : Nat}
    {mpool : MPool} (halloc : s.mpool.allocPages 1 1 = some (root, mpool)) {n begin : Nat}
    (hle : n + 1 ≤ maxCpus) (hbegin : begin < 2 ^ 21) (endAddr : Nat) :
    ∃ ptable, s.startVm (n + 1) begin endAddr = .ok { s with
        vms := s.vms ++ [⟨s.vms.length + hfVmIdOffset,
          .ready begin (paDifference begin endAddr) :: replicate n .off, ptable⟩]
        mpool } := by
  let new : LoadedVm (pageStage .stage2) := ⟨s.vms.length + hfVmIdOffset,
    replicate (n + 1) .off, ⟨root, fun _ _ => .absent aarch64 0⟩⟩
  have hnew : s.newVm (n + 1) = .ok (some (new, mpool)) := by
    refine newVm_eq_ok_some.mpr ⟨hfree, hle, rfl, rfl, ?_⟩
    rw [PageTable.new, halloc]
  obtain ⟨ptable, hmap⟩ := new.ptable.identityUpdate_pageStage begin endAddr
    ((pageStage .stage2).modeToAttrs aarch64 (Mode.R ||| Mode.W ||| Mode.X)) false mpool
    (index_le_pageStage hbegin)
  have hid : s.vms.length + hfVmIdOffset ≠ hfPrimaryVmId := by
    have hlen := length_pos_of_ne_nil hvms
    rw [hfPrimaryVmId]
    omega
  refine ⟨ptable, ?_⟩
  simp only [startVm, hnew, bind, Except.bind, PageTable.identityMap, hmap, orStop,
    LoadedVm.resetAndStart, new, replicate_succ, hid, if_false, if_true, LoadedVm.on, pure,
    Except.pure]

theorem giveMemory_pageStage {primary : LoadedVm (pageStage .stage2)}
    {vms : List (LoadedVm (pageStage .stage2))} (hvms : s.vms = primary :: vms)
    (hfree : s.vms.length ≠ maxVms) {root : Nat} {mpool : MPool}
    (halloc : s.mpool.allocPages 1 1 = some (root, mpool)) {n begin : Nat}
    (hle : n + 1 ≤ maxCpus) (hbegin : begin < 2 ^ 21) (endAddr : Nat) (kernel : MemIter)
    (hlen : begin + kernel.len ≤ 2 ^ 21) :
    ∃ hypervisorPtable ptable ptable', s.giveMemory kernel (n + 1) begin endAddr =
      .ok (.ok, { s with
        vms := { primary with ptable } :: vms ++ [⟨s.vms.length + hfVmIdOffset,
          .ready begin (paDifference begin endAddr) :: replicate n .off, ptable'⟩]
        hypervisorPtable, mpool, mem := s.mem.copy kernel.next begin kernel.len }) := by
  obtain ⟨hypervisorPtable, hcopy⟩ := copyToUnmapped_pageStage (s := s) hbegin kernel hlen
  let copied : Loader (pageStage .stage2) (pageStage .stage1) :=
    { s with hypervisorPtable, mem := s.mem.copy kernel.next begin kernel.len }
  obtain ⟨ptable, hdeny⟩ := unmapPrimary_pageStage (s := copied) hvms hbegin endAddr
  let denied : Loader (pageStage .stage2) (pageStage .stage1) :=
    { copied with vms := { primary with ptable } :: vms }
  have hlength : denied.vms.length = s.vms.length := by
    rw [hvms]
    rfl
  obtain ⟨ptable', hstart⟩ := startVm_pageStage (s := denied) (cons_ne_nil _ _)
    (hlength ▸ hfree) halloc hle hbegin endAddr
  refine ⟨hypervisorPtable, ptable, ptable', ?_⟩
  rw [hlength] at hstart
  refine bind_eq_ok.mpr ⟨_, hcopy, bind_eq_ok.mpr ⟨_, hdeny, ?_⟩⟩
  exact bind_eq_ok.mpr ⟨_, hstart, rfl⟩

end Pages

end Loader

/-- An archive with two kernels and a RAM disk. -/
def bootFiles : List CpioFile :=
  [zeroFile (ascii "vmlinuz") [1, 2] (by decide) (by decide) (by decide),
    zeroFile (ascii "initrd.img") [3, 4] (by decide) (by decide) (by decide),
    zeroFile (ascii "kernel") [5, 6] (by decide) (by decide) (by decide)]

def bootArchive : List Byte := bootFiles.flatMap CpioFile.encode

def bootCpio : MemIter := .fromRaw 0x1000 bootArchive.length

/-- The pages for tables are in the data of the hypervisor. -/
def bootLayout : Layout := ⟨0x4000, 0x5000, 0x5000, 0x6000, 0x6000, 0xc000, 0x10000, []⟩

def bootLoader : Loader (pageStage .stage2) (pageStage .stage1) where
  vms := []
  hypervisorPtable := ⟨0x7000, fun _ _ => .absent aarch64 0⟩
  mpool := .ofPool ⟨[⟨0x8000, 4⟩], []⟩
  mem := fun a => bootArchive.getD (a - 0x1000) 0

/-- The memory after the kernel of the primary VM has been loaded. -/
def bootMemory : Memory :=
  let kernel := MemIter.fromRaw 0x1022 2
  bootLoader.mem.copy kernel.next bootLayout.primaryBegin kernel.len

def bootPool : MPool := .ofPool ⟨[⟨0x9000, 3⟩], []⟩

theorem loadPrimary_bootLoader : ∃ s vm,
    bootLoader.loadPrimary bootLayout bootCpio 0 = .ok (some (.fromRaw 0x104a 2), s) ∧
      s.vms = [vm] ∧ s.mem = bootMemory ∧ s.mpool = bootPool := by
  have hkernel : findFile [] bootLoader.mem bootCpio (ascii "vmlinuz") =
      some (.fromRaw 0x1022 2) := by
    decide +kernel
  have hinitrd : findFile [] bootMemory bootCpio (ascii "initrd.img") =
      some (.fromRaw 0x104a 2) := by
    decide +kernel
  obtain ⟨hypervisorPtable, hcopy⟩ := copyToUnmapped_pageStage (s := bootLoader)
    (show bootLayout.primaryBegin < 2 ^ 21 by decide) (.fromRaw 0x1022 2) (by decide)
  let vm : LoadedVm (pageStage .stage2) :=
    ⟨hfPrimaryVmId, replicate maxCpus .off, ⟨0x8000, fun _ _ => .absent aarch64 0⟩⟩
  have hnew : newVm maxCpus { bootLoader with hypervisorPtable, mem := bootMemory } =
      .ok (some (vm, bootPool)) :=
    newVm_eq_ok_some.mpr ⟨nofun, le_rfl, rfl, rfl, rfl⟩
  obtain ⟨ptable, hmap⟩ := mapPrimary_pageStage
      (show bootLayout.textBegin < 2 ^ 21 by decide)
    (by decide) (by decide) vm.ptable bootPool
  refine ⟨⟨[{ vm with ptable, vcpus := .ready 0x10000 0 :: replicate 7 .off }],
    hypervisorPtable, bootPool, bootMemory⟩, _, ?_, rfl, rfl, rfl⟩
  simp only [loadPrimary, show bootLayout.afterTrailer = [] from rfl, hkernel]
  refine bind_eq_ok.mpr ⟨_, hcopy, ?_⟩
  dsimp only [bootMemory] at hinitrd ⊢
  rw [hinitrd]
  refine bind_eq_ok.mpr ⟨_, hnew, ?_⟩
  exact bind_eq_ok.mpr ⟨_, hmap, rfl⟩

/-- The VMs that are started keep the identity that the manifest gives them exactly if, for
each of them, every secondary VM before it in the manifest takes a slot: its kernel is
found, its memory can be taken from the ranges, written to and denied to the primary VM,
and there is room for it. -/
theorem keepsIdentity_iff {S H : Stage} {layout : Layout} {cpio initrd : MemIter} {kernelArg : Nat}
    {manifest : List ManifestVm} {params : List MemRange} {s₀ s : Loader S H}
    (hprimary : s₀.loadPrimary layout cpio kernelArg = .ok (some initrd, s)) :
    s.KeepsIdentity layout cpio manifest params ↔
      ∀ i vm ranges s' ranges' s'' loaded, 0 < i → manifest[i]? = some vm →
        s.Reaches layout cpio manifest params i ranges s' →
        s'.loadVm layout cpio vm ranges = .ok (.ok, ranges', s'') → s'.Creates s'' loaded →
        loaded.Started → s.SlotsBefore layout cpio manifest params i := by
  have hone : s.vms.length = 1 := by
    obtain ⟨_, _, _, _, _, _, _, _, _, _, _, rfl⟩ := loadPrimary_eq_ok hprimary
    rfl
  have hid : ∀ {i ranges s' vm ranges' s'' loaded}, 0 < i →
      s.Reaches layout cpio manifest params i ranges s' →
      s'.loadVm layout cpio vm ranges = .ok (.ok, ranges', s'') → s'.Creates s'' loaded →
      (loaded.id = hfVmIdOffset + i ↔ s.SlotsBefore layout cpio manifest params i) := by
    intro i ranges s' vm ranges' s'' loaded hi hreach hload hcreates
    obtain ⟨hloaded, -⟩ := hcreates.id_eq hload
    obtain ⟨-, hiff⟩ := length_of_reaches hone hi hreach
    rw [hloaded, ← hiff]
    omega
  constructor
  · intro h i vm ranges s' ranges' s'' loaded hi hvm hreach hload hcreates hstarted
    apply (hid hi hreach hload hcreates).mp
    exact h i vm ranges s' ranges' s'' loaded hi hvm hreach hload hcreates hstarted
  · intro h i vm ranges s' ranges' s'' loaded hi hvm hreach hload hcreates hstarted
    apply (hid hi hreach hload hcreates).mpr
    exact h i vm ranges s' ranges' s'' loaded hi hvm hreach hload hcreates hstarted

/-- Its kernel is not in the archive. -/
def missingVm : ManifestVm := ⟨manifestBuffer "missing", manifestBuffer "missing", 0x1000, 1⟩

def bootManifest : List ManifestVm := [primaryVm, missingVm, kernelVm 1]

theorem keepsIdentity_iff_bootLoader : ∃ s,
    bootLoader.loadPrimary bootLayout bootCpio 0 = .ok (some (.fromRaw 0x104a 2), s) ∧
    s.KeepsIdentity bootLayout bootCpio (pairManifest 1) [⟨0x20000, 0x40000⟩] := by
  obtain ⟨s, -, hprimary, -⟩ := loadPrimary_bootLoader
  refine ⟨s, hprimary, (keepsIdentity_iff hprimary).mpr ?_⟩
  -- the only secondary VM has none before it
  intro i vm ranges s' ranges' s'' loaded hi hvm _ _ _ _ j _ _ _ hj hji
  have hlt : i < 2 := (List.getElem?_eq_some_iff.mp hvm).1
  omega

section BootLoader

variable {s : Loader (pageStage .stage2) (pageStage .stage1)}

theorem loadVm_missingVm (hmem : s.mem = bootMemory) (ranges : List MemRange) :
    s.loadVm bootLayout bootCpio missingVm ranges = .ok (.ok, ranges, s) := by
  apply loadVm_of_missing
  · rw [hmem]
    decide +kernel
  · decide +kernel
  · decide +kernel

/-- A page of memory for the VM with the kernel of the archive. -/
theorem carves_kernelVm (hmem : s.mem = bootMemory) (vcpuCount : Nat)
    {ranges ranges' : List MemRange} {begin endAddr : Nat}
    (hcarve : carveOutMemRange ranges 0x1000 = some (begin, endAddr, ranges')) :
    s.Carves bootLayout bootCpio (kernelVm vcpuCount) ranges (.fromRaw 0x106e 2) begin endAddr
      ranges' := by
  have hsize : roundUpToPage (kernelVm vcpuCount).memSize = 0x1000 := by
    simp only [kernelVm]
    decide
  constructor
  · rw [hmem]
    simp only [kernelVm]
    decide +kernel
  · rw [hsize]
    decide
  · rw [hsize, hcarve]

/-- The first VM after the primary is started with the next id. -/
theorem giveMemory_bootLoader {primary : LoadedVm (pageStage .stage2)} (hvms : s.vms = [primary])
    (hmpool : s.mpool = bootPool) {begin : Nat} (hbegin : begin + 2 ≤ 2 ^ 21) (endAddr : Nat) :
    ∃ s' primary' vm, s.giveMemory (.fromRaw 0x106e 2) 1 begin endAddr = .ok (.ok, s') ∧
      s'.vms = [primary', vm] ∧ vm.id = 2 ∧ vm.Started := by
  have halloc : s.mpool.allocPages 1 1 = some (0x9000, .ofPool ⟨[⟨0xa000, 2⟩], []⟩) := by
    rw [hmpool]
    decide
  obtain ⟨_, ptable, _, hgive⟩ := giveMemory_pageStage (n := 0) hvms
    (by rw [hvms]; simp [maxVms]) halloc (by decide) (by omega) endAddr (.fromRaw 0x106e 2) hbegin
  refine ⟨_, { primary with ptable }, _, hgive, rfl, ?_, _, _, _, rfl⟩
  rw [hvms]
  rfl

theorem loadVm_kernelVm {s' : Loader (pageStage .stage2) (pageStage .stage1)}
    (hmem : s.mem = bootMemory) {ranges ranges' : List MemRange} {begin endAddr : Nat}
    (hcarve : carveOutMemRange ranges 0x1000 = some (begin, endAddr, ranges'))
    (hgive : s.giveMemory (.fromRaw 0x106e 2) 1 begin endAddr = .ok (.ok, s')) :
    s.loadVm bootLayout bootCpio (kernelVm 1) ranges = .ok (.ok, ranges', s') := by
  have hname : validUtf8 (asAsciz (kernelVm 1).debugName) := by decide +kernel
  exact loadVm_of_carves hname (carves_kernelVm hmem 1 hcarve) hgive

/-- The second secondary VM gets the id of the first, which could not be loaded. -/
theorem second_vm_takes_first_id : ∃ s,
    bootLoader.loadPrimary bootLayout bootCpio 0 = .ok (some (.fromRaw 0x104a 2), s) ∧
    ¬s.KeepsIdentity bootLayout bootCpio bootManifest [⟨0x20000, 0x40000⟩] := by
  obtain ⟨s, primary, hprimary, hvms, hmem, hmpool⟩ := loadPrimary_bootLoader
  refine ⟨s, hprimary, fun hkeeps => ?_⟩
  have hcarve : carveOutMemRange [⟨0x20000, 0x40000⟩] 0x1000 =
      some (0x3f000, 0x40000, [⟨0x20000, 0x3f000⟩]) := by decide
  obtain ⟨s', primary', vm, hgive, hvms', hid, hstarted⟩ :=
    giveMemory_bootLoader hvms hmpool (show 0x3f000 + 2 ≤ 2 ^ 21 by decide) 0x40000
  have hreach : s.Reaches bootLayout bootCpio bootManifest [⟨0x20000, 0x40000⟩] 2
      [⟨0x20000, 0x40000⟩] s := by
    refine reaches_succ.mpr ⟨missingVm, [⟨0x20000, 0x40000⟩], s, rfl, ?_, ?_⟩
    · apply reaches_succ.mpr
      exact ⟨_, _, s, rfl, reaches_zero.mpr ⟨rfl, rfl⟩, rfl⟩
    · rw [round_of_pos (by decide)]
      exact loadVm_missingVm hmem _
  have hcreates : s.Creates s' vm := ⟨[primary'], hvms', by rw [hvms]; rfl⟩
  have hkept := hkeeps 2 (kernelVm 1) _ s _ s' vm (by decide) rfl hreach
    (loadVm_kernelVm hmem hcarve hgive) hcreates hstarted
  rw [hid] at hkept
  exact absurd hkept (by decide)

end BootLoader

end Hafnium
