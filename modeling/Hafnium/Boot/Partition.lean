import Hafnium.Boot.Affording
import Hafnium.Boot.Carving

/-!
# The VMs at boot

What the stage-2 tables say once all VMs are loaded.  The primary VM has all memory up
to 1 TB except for the pages of the hypervisor's sections and what it has been denied; each
secondary VM has its own memory.  Nothing compares the memory of a VM with the image, and
memory carved from disjoint ranges is disjoint only if their ends can be rounded down and
are within the address bits.
-/

namespace Hafnium

open Support Aarch64 List PageTable Loader

/-- A mode with which memory is given to a VM is present in the tables. -/
theorem attrsView_ne_none {S : Stage} (hkind : S.kind = .stage2) :
    attrsView (S.modeToAttrs aarch64 (Mode.R ||| Mode.W ||| Mode.X)) ≠ none := by
  rw [Stage.modeToAttrs, hkind]
  decide

/-- The pages that an update of a range changes: its start is masked to the address bits,
and its end is rounded up to a page and clamped to the address space. -/
def Stage.InRegion (S : Stage) (begin endAddr a : Nat) : Prop :=
  archMmClearPa begin ≤ a ∧ a < S.updateEnd endAddr

/-! ## Updates at boot -/

namespace PageTable

variable {S : Stage} {strict : Bool} {begin endAddr : Nat} {pt pt' : PageTable S}
  {pool pool' : MPool} {o : Outcome}

section

variable (hpt : pt.Regular strict) (hpool : pool.Wf)
include hpt hpool

theorem mapEffect_of_identityMap {mode : Mode}
    (h : pt.identityMap aarch64 begin endAddr mode pool = some (o, pt', pool')) :
    MapEffect (archMmClearPa begin) (S.updateEnd endAddr) (S.modeToAttrs aarch64 mode) pt o
      pt' := by
  have hin : pt.identityMapIn id begin endAddr mode pool = .ok (o, pt', pool') := by
    rw [identityMapIn, MPool.interfere_id]
    exact orPanic_eq_ok.mpr h
  exact mapEffect_of_identityMapIn hpt hpool (fun _ h => h) hin

theorem view_of_unmap (h : pt.unmap aarch64 begin endAddr pool = some (.ok, pt', pool')) :
    pt'.view = unmappedView (archMmClearPa begin) (S.updateEnd endAddr) pt.view := by
  have hin : pt.unmapIn id begin endAddr pool = .ok (.ok, pt', pool') := by
    rw [unmapIn, MPool.interfere_id]
    exact orPanic_eq_ok.mpr h
  exact view_of_unmapIn hpt hpool (fun _ h => h) hin

theorem present_of_unmap (h : pt.unmap aarch64 begin endAddr pool = some (.ok, pt', pool'))
    (a : Nat) : pt'.view a ≠ none ↔ pt.view a ≠ none ∧ ¬S.InRegion begin endAddr a := by
  rw [view_of_unmap hpt hpool h, unmappedView]
  split
  · rename_i hin
    exact iff_of_false (fun hne => hne rfl) fun hne => hne.2 hin
  · rename_i hout
    exact (and_iff_left hout).symm

end

section New

variable (hS : S.Fits) (hpool : pool.Wf) {root : Nat}
include hS hpool

/-- A table that could not be mapped is still empty. -/
theorem absent_of_new {mode : Mode}
    (h : (absentTable S root).identityMap aarch64 begin endAddr mode pool =
      some (.err, pt', pool')) (a : Nat) : pt'.view a = none := by
  have hregular := regular_absentTable hS root
  have hsplits := (mapEffect_of_identityMap hregular hpool h).err rfl
  rw [hsplits.view hregular.wf, view_absentTable]

/-- A new table holds exactly the given memory. -/
theorem present_of_new (hkind : S.kind = .stage2)
    (h : (absentTable S root).identityMap aarch64 begin endAddr (Mode.R ||| Mode.W ||| Mode.X)
      pool = some (.ok, pt', pool')) (a : Nat) :
    pt'.view a ≠ none ↔ S.InRegion begin endAddr a := by
  have hok := (mapEffect_of_identityMap (regular_absentTable hS root) hpool h).ok rfl
  rw [hok, mappedView]
  split
  · exact iff_of_true (attrsView_ne_none hkind) ‹_›
  · exact iff_of_false (not_not.mpr (view_absentTable root a)) ‹_›

end New

end PageTable

/-! ## The image of the hypervisor -/

namespace Layout

variable (layout : Layout)

/-- The hypervisor's text, read-only data and data. -/
def InImage (a : Nat) : Prop :=
  (layout.textBegin ≤ a ∧ a < layout.textEnd) ∨ (layout.rodataBegin ≤ a ∧ a < layout.rodataEnd) ∨
    (layout.dataBegin ≤ a ∧ a < layout.dataEnd)

end Layout

/-! ## Isolation -/

/-- No page is present in the tables of both VMs. -/
def LoadedVm.Apart {S : Stage} (v w : LoadedVm S) : Prop :=
  ∀ a, v.ptable.view a = none ∨ w.ptable.view a = none

theorem LoadedVm.Apart.symm {S : Stage} {v w : LoadedVm S} (h : v.Apart w) : w.Apart v :=
  fun a => (h a).symm

namespace Loader

variable {S H : Stage} {layout : Layout} {cpio : MemIter}

/-- The tables of the secondary VMs have no page in common, with each other or with the
image. -/
structure SecondariesApart (layout : Layout) (s : Loader S H) : Prop where
  pairwise : s.vms.tail.Pairwise LoadedVm.Apart
  image : ∀ vm ∈ s.vms.tail, ∀ a, layout.InImage a → vm.ptable.view a = none

/-- The primary VM has nothing of the other VMs. -/
structure PrimaryApart (s : Loader S H) (primary : LoadedVm S) (vms : List (LoadedVm S)) :
    Prop where
  vms_eq : s.vms = primary :: vms
  apart : ∀ vm ∈ vms, primary.Apart vm

/-- A page is present in the table of the primary VM. -/
def PrimaryHas (s : Loader S H) (a : Nat) : Prop := ∃ vm ∈ s.vms.head?, vm.ptable.view a ≠ none

/-- A page is present in the table of a secondary VM. -/
def SecondaryHas (s : Loader S H) (a : Nat) : Prop := ∃ vm ∈ s.vms.tail, vm.ptable.view a ≠ none

variable {vms : List (LoadedVm S)} {primary : LoadedVm S}

theorem PrimaryApart.primaryHas_iff {s : Loader S H} (h : s.PrimaryApart primary vms) (a : Nat) :
    s.PrimaryHas a ↔ primary.ptable.view a ≠ none := by
  simp [PrimaryHas, h.vms_eq]

variable {s s' : Loader S H}

theorem SecondariesApart.iff_of_tail_eq (h : s'.vms.tail = s.vms.tail) :
    s'.SecondariesApart layout ↔ s.SecondariesApart layout := by
  constructor
  · rintro ⟨hpairwise, himage⟩
    exact ⟨h ▸ hpairwise, h ▸ himage⟩
  · rintro ⟨hpairwise, himage⟩
    exact ⟨h ▸ hpairwise, h ▸ himage⟩

/-- The primary VM loses the memory that it is denied, and nothing else changes. -/
theorem unmapPrimary_spec {begin endAddr : Nat} (hs : s.Regular false)
    (hprimary : s.PrimaryApart primary vms) (h : s.unmapPrimary begin endAddr = .ok (.ok, s')) :
    ∃ primary', s'.PrimaryApart primary' vms ∧ ∀ a, primary'.ptable.view a ≠ none ↔
      primary.ptable.view a ≠ none ∧ ¬S.InRegion begin endAddr a := by
  obtain ⟨primary₁, vms₁, ptable, mpool, hvms, hunmap, rfl⟩ := unmapPrimary_eq_ok h
  cases hvms.symm.trans hprimary.vms_eq
  have hmem : primary ∈ s.vms := hvms ▸ mem_cons_self
  have hpresent := present_of_unmap (hs.vms primary hmem) hs.mpool hunmap
  refine ⟨{ primary with ptable }, ⟨rfl, fun vm hvm a => ?_⟩, hpresent⟩
  apply (hprimary.apart vm hvm a).imp_left
  intro hnone
  by_contra hne
  exact ((hpresent a).mp hne).1 hnone

theorem PrimaryApart.append {s : Loader S H} (h : s.PrimaryApart primary vms) {vm : LoadedVm S}
    (mpool : MPool) (hvm : primary.Apart vm) :
    PrimaryApart { s with vms := s.vms ++ [vm], mpool } primary (vms ++ [vm]) := by
  refine ⟨by rw [h.vms_eq]; rfl, fun v hv => ?_⟩
  rcases mem_append.mp hv with hv | hv
  · exact h.apart v hv
  · rw [mem_singleton.mp hv]
    exact hvm

theorem PrimaryApart.secondariesApart_append {s : Loader S H} (h : s.PrimaryApart primary vms)
    (vm : LoadedVm S) (mpool : MPool) :
    SecondariesApart layout { s with vms := s.vms ++ [vm], mpool } ↔
      s.SecondariesApart layout ∧ ∀ a, vm.ptable.view a ≠ none →
        ¬layout.InImage a ∧ ¬s.SecondaryHas a := by
  have htail : (s.vms ++ [vm]).tail = s.vms.tail ++ [vm] := by
    rw [h.vms_eq]
    rfl
  constructor
  · rintro ⟨hpairwise, himage⟩
    rw [htail] at hpairwise himage
    obtain ⟨hold, -, hnew⟩ := pairwise_append.mp hpairwise
    refine ⟨⟨hold, fun v hv => himage v (mem_append_left _ hv)⟩, fun a ha => ⟨?_, ?_⟩⟩
    · intro hin
      exact ha (himage vm (mem_append_right _ mem_cons_self) a hin)
    · rintro ⟨v, hv, hne⟩
      exact hne ((hnew v hv vm mem_cons_self a).resolve_right ha)
  · rintro ⟨⟨hpairwise, himage⟩, hnew⟩
    constructor
    · rw [htail, pairwise_append]
      refine ⟨hpairwise, pairwise_singleton _ _, fun v hv w hw a => ?_⟩
      rw [mem_singleton.mp hw]
      by_cases ha : vm.ptable.view a = none
      · exact Or.inr ha
      · exact Or.inl (not_not.mp fun hne => (hnew a ha).2 ⟨v, hv, hne⟩)
    · intro v hv a hin
      rw [htail] at hv
      rcases mem_append.mp hv with hv | hv
      · exact himage v hv a hin
      · rw [mem_singleton.mp hv]
        by_contra ha
        exact (hnew a ha).1 hin

/-- What a step does to the tables: a VM is started in some pages, and some are denied to
the primary VM. -/
structure StepEffect (layout : Layout) (s s' : Loader S H) (starts denies : Nat → Prop) : Prop where
  apart : ∃ primary vms, s'.PrimaryApart primary vms
  primary : ∀ a, s'.PrimaryHas a ↔ s.PrimaryHas a ∧ ¬denies a
  secondary : ∀ a, s'.SecondaryHas a ↔ s.SecondaryHas a ∨ starts a
  secondaries : s'.SecondariesApart layout ↔ s.SecondariesApart layout ∧
    ∀ a, starts a → ¬layout.InImage a ∧ ¬s.SecondaryHas a

theorem StepEffect.of_vms_eq {starts denies : Nat → Prop} (hprimary : s.PrimaryApart primary vms)
    (hvms : s'.vms = s.vms) (hstarts : ∀ a, ¬starts a) (hdenies : ∀ a, ¬denies a) :
    StepEffect layout s s' starts denies := by
  refine ⟨⟨primary, vms, hvms.trans hprimary.vms_eq, hprimary.apart⟩, fun a => ?_, fun a => ?_, ?_⟩
  · rw [PrimaryHas, hvms]
    exact (and_iff_left (hdenies a)).symm
  · rw [SecondaryHas, hvms]
    exact (or_iff_left (hstarts a)).symm
  · rw [SecondariesApart.iff_of_tail_eq (congrArg tail hvms)]
    exact (and_iff_left fun a ha => absurd ha (hstarts a)).symm

/-- A step that appends a VM whose pages the primary VM does not have. -/
theorem StepEffect.append {starts : Nat → Prop} (hprimary : s.PrimaryApart primary vms)
    {vm : LoadedVm S} (mpool : MPool) (hvm : ∀ a, vm.ptable.view a ≠ none ↔ starts a)
    (hdenied : ∀ a, starts a → primary.ptable.view a = none) :
    StepEffect layout s { s with vms := s.vms ++ [vm], mpool } starts fun _ => False := by
  refine ⟨⟨primary, _, hprimary.append mpool fun a => ?_⟩, fun a => ?_, fun a => ?_, ?_⟩
  · rw [or_iff_not_imp_right]
    exact fun hne => hdenied a ((hvm a).mp hne)
  · simp [PrimaryHas, hprimary.vms_eq]
  · simp only [SecondaryHas, hprimary.vms_eq, cons_append, tail_cons, mem_append,
      mem_singleton, or_and_right, exists_or, exists_eq_left, hvm]
  · rw [hprimary.secondariesApart_append]
    simp only [hvm]

/-- Starting a VM in memory that the primary VM does not have. -/
theorem startVm_spec (layout : Layout) (hkind : S.kind = .stage2) (hS : S.Fits)
    {n begin endAddr : Nat} {table : Prop} (hs : s.Regular false)
    (hprimary : s.PrimaryApart primary vms)
    (hdenied : ∀ a, S.InRegion begin endAddr a → primary.ptable.view a = none)
    (hroom : table → s.HasRoom)
    (htable : ∀ pt mpool, s.vms.length ≠ maxVms →
      new aarch64 S s.mpool = some (pt, mpool) →
      ((∃ pt' mpool', pt.identityMap aarch64 begin endAddr (Mode.R ||| Mode.W ||| Mode.X) mpool =
        some (.ok, pt', mpool')) ↔ table))
    (h : s.startVm n begin endAddr = .ok s') :
    StepEffect layout s s' (fun a => table ∧ S.InRegion begin endAddr a) fun _ => False := by
  cases startVm_cases h with
  | noRoom hnoRoom =>
    exact .of_vms_eq hprimary rfl (fun a ha => hnoRoom (hroom ha.1)) fun _ => id
  | @notMapped vm ptable mpool mpool' hnew hmap =>
    obtain ⟨hfree, -, -, -, hptable⟩ := newVm_eq_ok_some.mp hnew
    obtain ⟨hmpool, root, hroot⟩ := new_eq_some hs.mpool hptable
    have hnot : ¬table := by
      intro ht
      obtain ⟨_, _, hmap'⟩ := (htable _ _ hfree hptable).mpr ht
      cases hmap.symm.trans hmap'
    rw [hroot] at hmap
    have hview := absent_of_new hS hmpool hmap
    exact .append hprimary mpool' (fun a => iff_of_false (not_not.mpr (hview a))
      fun ha => hnot ha.1) fun a ha => absurd ha.1 hnot
  | @started vm vcpus ptable mpool mpool' hnew hmap hoff =>
    obtain ⟨hfree, -, -, -, hptable⟩ := newVm_eq_ok_some.mp hnew
    obtain ⟨hmpool, root, hroot⟩ := new_eq_some hs.mpool hptable
    have ht : table := (htable _ _ hfree hptable).mp ⟨_, _, hmap⟩
    rw [hroot] at hmap
    have hview := present_of_new hS hmpool hkind hmap
    exact .append hprimary mpool' (fun a => (hview a).trans (and_iff_right ht).symm)
      fun a ha => hdenied a ha.2

/-- The pages of the memory that is carved out for an entry, if the round gets as far as
`gets`. -/
def Takes (gets : MemIter → Nat → Nat → Loader S H → Prop) (layout : Layout) (cpio : MemIter)
    (vm : ManifestVm) (ranges : List MemRange) (s : Loader S H) (a : Nat) : Prop :=
  ∃ kernel begin endAddr ranges', s.Carves layout cpio vm ranges kernel begin endAddr ranges' ∧
    gets kernel begin endAddr s ∧ S.InRegion begin endAddr a

section Round

variable {gets : MemIter → Nat → Nat → Loader S H → Prop} {vm : ManifestVm}
  {ranges ranges' : List MemRange}

theorem Carves.takes_iff {kernel : MemIter} {begin endAddr : Nat}
    (h : s.Carves layout cpio vm ranges kernel begin endAddr ranges') (a : Nat) :
    s.Takes gets layout cpio vm ranges a ↔
      gets kernel begin endAddr s ∧ S.InRegion begin endAddr a := by
  constructor
  · rintro ⟨_, _, _, _, hcarves, hgets⟩
    obtain ⟨rfl, rfl, rfl, rfl⟩ := h.unique hcarves
    exact hgets
  · intro hgets
    exact ⟨kernel, begin, endAddr, ranges', h, hgets⟩

/-- Loading an entry starts a VM in its memory if there are tables for it, and denies the
memory to the primary VM before. -/
theorem loadVm_spec (hkind : S.kind = .stage2) (hS : S.Fits) (hs : s.Regular false)
    (hprimary : s.PrimaryApart primary vms)
    (h : s.loadVm layout cpio vm ranges = .ok (.ok, ranges', s')) :
    StepEffect layout s s' (s.Takes GetsTable layout cpio vm ranges)
      (s.Takes GetsMemory layout cpio vm ranges) := by
  cases loadVm_cases h with
  | noMemory hnone =>
    have hnot : ∀ gets a, ¬s.Takes gets layout cpio vm ranges a := by
      rintro gets a ⟨kernel, begin, endAddr, ranges', hcarves, -⟩
      exact hnone kernel begin endAddr ranges' hcarves
    exact .of_vms_eq hprimary rfl (hnot _) (hnot _)
  | @notCopied kernel begin endAddr _ _ hcarves hcopy =>
    have hnot : ¬s.GetsMemory kernel begin endAddr := by
      intro hmemory
      obtain ⟨s₁, hcopy'⟩ := ((copyToUnmapped_returns_iff hs).mp ⟨_, hcopy⟩).2 hmemory.copy
      cases hcopy.symm.trans hcopy'
    refine .of_vms_eq hprimary (vms_of_copyToUnmapped hcopy) (fun a ha => ?_) fun a ha => ?_
    · exact hnot ((hcarves.takes_iff a).mp ha).1.toGetsMemory
    · exact hnot ((hcarves.takes_iff a).mp ha).1
  | @given kernel begin endAddr _ s₁ s₂ _ hcarves hcopy hdeny hstart =>
    have hs₁ := hs.copyToUnmapped hcopy
    have hprimary₁ : s₁.PrimaryApart primary vms :=
      ⟨(vms_of_copyToUnmapped hcopy).trans hprimary.vms_eq, hprimary.apart⟩
    obtain ⟨primary', hprimary', hdenied⟩ := unmapPrimary_spec hs₁ hprimary₁ hdeny
    have hmemory := getsMemory_of_given hs hcopy hdeny
    obtain ⟨hapart, hkeeps, hstarts, hsecondaries⟩ := startVm_spec layout hkind hS
      (hs₁.unmapPrimary hdeny) hprimary'
      (fun a ha => not_not.mp fun hne => ((hdenied a).mp hne).2 ha)
      (fun ht : s.GetsTable kernel begin endAddr =>
        (hasRoom_of_given hs hcopy hdeny).mpr ht.toGetsSlot)
      (fun pt mpool hfree hnew => maps_of_given hs hcopy hdeny hS hfree hnew) hstart
    have htail : s₂.vms.tail = s.vms.tail := by
      rw [hprimary'.vms_eq, hprimary.vms_eq]
      rfl
    have hsecondary : ∀ a, s₂.SecondaryHas a ↔ s.SecondaryHas a := by
      intro a
      rw [SecondaryHas, htail, SecondaryHas]
    refine ⟨hapart, fun a => ?_, fun a => ?_, ?_⟩
    · rw [hkeeps, hprimary'.primaryHas_iff, hdenied, ← hprimary.primaryHas_iff,
        hcarves.takes_iff, and_iff_right hmemory, not_false_iff, and_true]
    · rw [hstarts, hsecondary, hcarves.takes_iff]
    · rw [hsecondaries, SecondariesApart.iff_of_tail_eq htail]
      simp only [hsecondary, hcarves.takes_iff]

end Round

/-! ## Whole runs -/

section Run

variable {manifest : List ManifestVm} {params : List MemRange} {s : Loader S H}
  {gets : MemIter → Nat → Nat → Loader S H → Prop}

/-- The pages that are taken for the entries before an entry. -/
def TakenBefore (gets : MemIter → Nat → Nat → Loader S H → Prop) (layout : Layout)
    (cpio : MemIter) (manifest : List ManifestVm) (params : List MemRange) (s : Loader S H)
    (i a : Nat) : Prop :=
  ∃ j vm ranges s', 0 < j ∧ j < i ∧ manifest[j]? = some vm ∧
    s.Reaches layout cpio manifest params j ranges s' ∧ s'.Takes gets layout cpio vm ranges a

/-- No VM is started in pages in which another one has been started before. -/
def StartsApart (layout : Layout) (cpio : MemIter) (manifest : List ManifestVm)
    (params : List MemRange) (s : Loader S H) (i : Nat) : Prop :=
  ∀ j vm ranges s' a, 0 < j → j < i → manifest[j]? = some vm →
    s.Reaches layout cpio manifest params j ranges s' →
    s'.Takes GetsTable layout cpio vm ranges a →
    ¬s.TakenBefore GetsTable layout cpio manifest params j a

theorem not_takenBefore {i : Nat} (hi : i ≤ 1) (a : Nat) :
    ¬s.TakenBefore gets layout cpio manifest params i a := by
  rintro ⟨j, _, _, _, hj, hlt, -⟩
  omega

section Succ

variable {i : Nat} {vm : ManifestVm} {ranges : List MemRange} {s₁ : Loader S H} (hi : 0 < i)
  (hvm : manifest[i]? = some vm) (hreach : s.Reaches layout cpio manifest params i ranges s₁)
include hi hvm hreach

theorem takenBefore_succ (a : Nat) : s.TakenBefore gets layout cpio manifest params (i + 1) a ↔
    s.TakenBefore gets layout cpio manifest params i a ∨ s₁.Takes gets layout cpio vm ranges a := by
  constructor
  · rintro ⟨j, vm', ranges', s', hj, hlt, hvm', hreach', htakes⟩
    rcases Nat.lt_succ_iff_lt_or_eq.mp hlt with hlt | rfl
    · exact Or.inl ⟨j, vm', ranges', s', hj, hlt, hvm', hreach', htakes⟩
    · cases hvm.symm.trans hvm'
      cases hreach.2.symm.trans hreach'.2
      exact Or.inr htakes
  · rintro (⟨j, vm', ranges', s', hj, hlt, h⟩ | htakes)
    · exact ⟨j, vm', ranges', s', hj, Nat.lt_succ_of_lt hlt, h⟩
    · exact ⟨i, vm, ranges, s₁, hi, Nat.lt_succ_self i, hvm, hreach, htakes⟩

theorem startsApart_succ : s.StartsApart layout cpio manifest params (i + 1) ↔
    s.StartsApart layout cpio manifest params i ∧ ∀ a, s₁.Takes GetsTable layout cpio vm ranges a →
      ¬s.TakenBefore GetsTable layout cpio manifest params i a := by
  constructor
  · intro h
    refine ⟨fun j vm' ranges' s' a hj hlt => ?_, fun a => ?_⟩
    · exact h j vm' ranges' s' a hj (Nat.lt_succ_of_lt hlt)
    · exact h i vm ranges s₁ a hi (Nat.lt_succ_self i) hvm hreach
  · rintro ⟨hbefore, hlast⟩ j vm' ranges' s' a hj hlt hvm' hreach'
    rcases Nat.lt_succ_iff_lt_or_eq.mp hlt with hlt | rfl
    · exact hbefore j vm' ranges' s' a hj hlt hvm' hreach'
    · cases hvm.symm.trans hvm'
      cases hreach.2.symm.trans hreach'.2
      exact hlast a

end Succ

/-- The tables once the entries before an entry have been loaded. -/
structure RunEffect (layout : Layout) (cpio : MemIter) (manifest : List ManifestVm)
    (params : List MemRange) (s : Loader S H) (i : Nat) (s' : Loader S H) : Prop where
  apart : ∃ primary vms, s'.PrimaryApart primary vms
  primary : ∀ a, s'.PrimaryHas a ↔
    s.PrimaryHas a ∧ ¬s.TakenBefore GetsMemory layout cpio manifest params i a
  secondary : ∀ a, s'.SecondaryHas a ↔ s.TakenBefore GetsTable layout cpio manifest params i a
  secondaries : s'.SecondariesApart layout ↔
    (∀ a, s.TakenBefore GetsTable layout cpio manifest params i a → ¬layout.InImage a) ∧
      s.StartsApart layout cpio manifest params i

theorem runEffect_self {i : Nat} (hi : i ≤ 1) {primary : LoadedVm S}
    (hprimary : s.PrimaryApart primary []) : s.RunEffect layout cpio manifest params i s := by
  refine ⟨⟨primary, [], hprimary⟩, fun a => ?_, fun a => ?_, iff_of_true ?_ ⟨fun a ha => ?_, ?_⟩⟩
  · exact (and_iff_left (not_takenBefore hi a)).symm
  · simp [SecondaryHas, hprimary.vms_eq, not_takenBefore hi]
  · constructor
    · rw [hprimary.vms_eq]
      exact List.Pairwise.nil
    · simp [hprimary.vms_eq]
  · exact absurd ha (not_takenBefore hi a)
  · intro j _ _ _ _ hj hlt
    omega

/-- Each round adds to what has been taken. -/
theorem RunEffect.succ (hkind : S.kind = .stage2) (hS : S.Fits) {i : Nat} {vm : ManifestVm}
    {ranges ranges' : List MemRange} {s₁ s' : Loader S H} (hi : 0 < i)
    (hvm : manifest[i]? = some vm) (hreach : s.Reaches layout cpio manifest params i ranges s₁)
    (hs₁ : s₁.Regular false) (h : s.RunEffect layout cpio manifest params i s₁)
    (hload : s₁.loadVm layout cpio vm ranges = .ok (.ok, ranges', s')) :
    s.RunEffect layout cpio manifest params (i + 1) s' := by
  obtain ⟨_, _, happart⟩ := h.apart
  obtain ⟨hapart', hprimary, hsecondary, hsecondaries⟩ := loadVm_spec hkind hS hs₁ happart hload
  refine ⟨hapart', fun a => ?_, fun a => ?_, ?_⟩
  · rw [hprimary, h.primary, takenBefore_succ hi hvm hreach, not_or, and_assoc]
  · rw [hsecondary, h.secondary, takenBefore_succ hi hvm hreach]
  · rw [hsecondaries, h.secondaries, startsApart_succ hi hvm hreach]
    simp only [h.secondary, takenBefore_succ hi hvm hreach, or_imp, forall_and]
    tauto

theorem Reaches.regular (hS : S.Fits) (hs : s.Regular false) {i : Nat} {ranges : List MemRange}
    {s' : Loader S H} (h : s.Reaches layout cpio manifest params i ranges s') :
    s'.Regular false :=
  Reaches.induction (I := fun _ s' => s'.Regular false) hs
    (fun _ _ _ _ _ _ _ _ _ hs hload => hs.loadVm hS hload) h

theorem Reaches.effect (hkind : S.kind = .stage2) (hS : S.Fits) (hs : s.Regular false)
    {primary : LoadedVm S} (hprimary : s.PrimaryApart primary []) {i : Nat}
    {ranges : List MemRange} {s' : Loader S H}
    (h : s.Reaches layout cpio manifest params i ranges s') :
    s.RunEffect layout cpio manifest params i s' := by
  induction i generalizing ranges s' with
  | zero =>
    obtain ⟨-, rfl⟩ := reaches_zero.mp h
    exact runEffect_self (Nat.zero_le 1) hprimary
  | succ i ih =>
    obtain ⟨vm, ranges₁, s₁, hvm, hprev, hround⟩ := reaches_succ.mp h
    rcases Nat.eq_zero_or_pos i with rfl | hi
    · rw [round_zero] at hround
      cases hround
      obtain ⟨-, rfl⟩ := reaches_zero.mp hprev
      exact runEffect_self le_rfl hprimary
    · rw [round_of_pos hi] at hround
      exact (ih hprev).succ hkind hS hi hvm hprev (hprev.regular hS hs) hround

/-- Disjoint ranges whose ends can be rounded down to a page, within the address bits. -/
structure Proper (params : List MemRange) : Prop where
  disjoint : params.Pairwise MemRange.Disjoint
  rounds : ∀ r ∈ params, r.begin ≤ roundDownToPage r.endAddr
  bits : ∀ r ∈ params, r.endAddr < 2 ^ 48

/-- What is left of such ranges. -/
structure Available (ranges : List MemRange) : Prop where
  disjoint : ranges.Pairwise MemRange.Disjoint
  bounds : ∀ r ∈ ranges, r.begin ≤ r.endAddr ∧ r.endAddr < 2 ^ 48 ∧ r.endAddr % 4096 = 0

theorem Proper.available (h : Proper params) : Available (availableRanges params) := by
  have hcut : Matched Cut params (availableRanges params) := matched_availableRanges fun r hr =>
    ⟨rfl, h.rounds r hr, roundDownToPage_le r.endAddr, roundDownToPage_mod r.endAddr⟩
  refine ⟨hcut.pairwise_disjoint h.disjoint, fun r hr => ?_⟩
  obtain ⟨q, hq, rfl⟩ := mem_map.mp hr
  exact ⟨h.rounds q hq, Nat.lt_of_le_of_lt (roundDownToPage_le q.endAddr) (h.bits q hq),
    roundDownToPage_mod q.endAddr⟩

/-- The pages that are taken are in the ranges before, and not in what is left of them. -/
theorem Carves.available {s : Loader S H} {vm : ManifestVm} {ranges ranges' : List MemRange}
    {kernel : MemIter} {begin endAddr : Nat} (hranges : Available ranges)
    (h : s.Carves layout cpio vm ranges kernel begin endAddr ranges') :
    Available ranges' ∧ Matched Cut ranges ranges' ∧ ∀ a, S.InRegion begin endAddr a →
      (∃ r ∈ ranges, r.Has a) ∧ ∀ r' ∈ ranges', ¬r'.Has a := by
  obtain ⟨hcut, hend, k, r, r', hr, hr', rfl, rfl⟩ := cut_of_carveOut
    (fun r hr => ⟨(hranges.bounds r hr).1, (hranges.bounds r hr).2.1.trans (by decide),
      (hranges.bounds r hr).2.2⟩) (roundUpToPage_mod vm.memSize) h.carved
  refine ⟨⟨hcut.pairwise_disjoint hranges.disjoint, fun q' hq' => ?_⟩, hcut, fun a ha => ?_⟩
  · obtain ⟨l, hl⟩ := mem_iff_getElem?.mp hq'
    obtain ⟨q, hq, hbegin, hle, hle', hmod⟩ := hcut.exists_left hl
    have hlt := (hranges.bounds q (mem_of_getElem? hq)).2.1
    exact ⟨by omega, by omega, hmod⟩
  · obtain ⟨-, hbits, hmod⟩ := hranges.bounds r (mem_of_getElem? hr)
    obtain ⟨-, hle, -, hmod'⟩ := hcut.rel k r r' hr hr'
    -- neither masking the start nor rounding up the end changes anything
    have hregion : r'.endAddr ≤ a ∧ a < r.endAddr := by
      rw [Stage.InRegion, archMmClearPa_eq, Stage.updateEnd, roundUpToPage, roundDownToPage,
        pageSize_eq] at ha
      omega
    have hhas : r.Has a := ⟨hle.trans hregion.1, hregion.2⟩
    refine ⟨⟨r, mem_of_getElem? hr, hhas⟩, fun q' hq' hq'a => ?_⟩
    obtain ⟨l, hl⟩ := mem_iff_getElem?.mp hq'
    obtain ⟨q, hq, hqq'⟩ := hcut.exists_left hl
    obtain rfl := index_eq_of_has hranges.disjoint hr hq hhas (hqq'.has hq'a)
    cases hr'.symm.trans hl
    exact absurd hq'a.2 (Nat.not_lt.mpr hregion.1)

/-- The pages that have been taken are no longer available. -/
theorem Reaches.available (hparams : Proper params) {i : Nat} {ranges : List MemRange}
    {s' : Loader S H} (h : s.Reaches layout cpio manifest params i ranges s') :
    Available ranges ∧ ∀ a, s.TakenBefore gets layout cpio manifest params i a →
      ∀ r ∈ ranges, ¬r.Has a := by
  induction i generalizing ranges s' with
  | zero =>
    obtain ⟨rfl, -⟩ := reaches_zero.mp h
    exact ⟨hparams.available, fun a ha => absurd ha (not_takenBefore (Nat.zero_le 1) a)⟩
  | succ i ih =>
    obtain ⟨vm, ranges₁, s₁, hvm, hprev, hround⟩ := reaches_succ.mp h
    obtain ⟨havailable, htaken⟩ := ih hprev
    rcases Nat.eq_zero_or_pos i with rfl | hi
    · rw [round_zero] at hround
      cases hround
      exact ⟨havailable, fun a ha => absurd ha (not_takenBefore le_rfl a)⟩
    · rw [round_of_pos hi] at hround
      simp only [takenBefore_succ hi hvm hprev]
      cases loadVm_cases hround with
      | noMemory hnone =>
        refine ⟨havailable, fun a ha => htaken a (ha.resolve_right ?_)⟩
        rintro ⟨kernel, begin, endAddr, ranges', hcarves, -⟩
        exact hnone kernel begin endAddr ranges' hcarves
      | notCopied hcarves _ | given hcarves _ _ _ =>
        obtain ⟨havailable', hcut, hregion⟩ := hcarves.available havailable
        refine ⟨havailable', fun a ha r' hr' hhas => ?_⟩
        rcases ha with ha | ha
        · obtain ⟨k, hk⟩ := mem_iff_getElem?.mp hr'
          obtain ⟨r, hr, hrr'⟩ := hcut.exists_left hk
          exact htaken a ha r (mem_of_getElem? hr) (hrr'.has hhas)
        · exact (hregion a ((hcarves.takes_iff a).mp ha).2).2 r' hr' hhas

end Run

end Loader

section BootLoader

variable {s : Loader (pageStage .stage2) (pageStage .stage1)}
  {primary : LoadedVm (pageStage .stage2)}

end BootLoader

end Hafnium
