import Hafnium.Mm.IdentityMap

/-!
# Ranges outside the address space

`identity_update` masks the start of a range to the address bits of an entry, cuts its
end at the end of the address space and then slices the root tables.  A range above the
address space is ignored if its start is near enough; further up, slicing panics, and
above the address bits memory at the bottom of the address space is updated.
-/

namespace Hafnium

open Support Aarch64 PageTableEntry Stage

namespace PageTable

variable {S : Stage} {begin endAddr : Nat} {attrs : BitVec 64} {pt : PageTable S} {pool : MPool}

theorem index_le_of_mapRoot {flags : Flags} {r : Outcome × PageTable S × MPool}
    (h : pt.mapRoot aarch64 begin endAddr attrs flags pool = some r) :
    index begin S.rootLevel ≤ S.rootTableCount := by
  rw [mapRoot] at h
  split at h
  · contradiction
  · rename_i hidx
    exact Nat.not_lt.mp hidx

theorem index_le_of_identityUpdate {flags : Flags} {r : Outcome × PageTable S × MPool}
    (h : pt.identityUpdate aarch64 begin endAddr attrs flags pool = some r) :
    index (archMmClearPa begin) S.rootLevel ≤ S.rootTableCount := by
  rw [identityUpdate, aarch64_clearPa] at h
  split at h
  · contradiction
  all_goals
    rename_i hroot
    exact index_le_of_mapRoot hroot

/-- An update of an empty region does nothing. -/
theorem identityUpdate_of_le {unmap : Bool} (hle : S.updateEnd endAddr ≤ archMmClearPa begin)
    (hidx : index (archMmClearPa begin) S.rootLevel ≤ S.rootTableCount) :
    pt.identityUpdate aarch64 begin endAddr attrs ⟨false, unmap⟩ pool = some (.ok, pt, pool) := by
  have hroot : ∀ flags, pt.mapRoot aarch64 (archMmClearPa begin) (S.updateEnd endAddr) attrs flags
      pool = some (.ok, pt, pool) := by
    intro flags
    rw [mapRoot, if_neg (Nat.not_lt.mpr hidx), visits_eq_nil hle]
    rfl
  have hfirst := hroot ⟨false, unmap⟩
  have hsecond := hroot ⟨true, unmap⟩
  rw [updateEnd] at hfirst hsecond
  simp only [identityUpdate, aarch64_clearPa, hfirst, hsecond]

/-- An update panics exactly if the root tables are sliced past their end. -/
theorem identityUpdate_isSome_iff {flags : Flags} :
    (∃ r, pt.identityUpdate aarch64 begin endAddr attrs flags pool = some r) ↔
      index (archMmClearPa begin) S.rootLevel ≤ S.rootTableCount := by
  constructor
  · rintro ⟨r, h⟩
    exact index_le_of_identityUpdate h
  · intro hidx
    have hroot : ∀ (pt : PageTable S) flags pool, ∃ r, pt.mapRoot aarch64 (archMmClearPa begin)
        (min (roundUpToPage endAddr) S.ptableAddrSpaceEnd) attrs flags pool = some r := by
      intro pt flags pool
      rw [mapRoot, if_neg (Nat.not_lt.mpr hidx)]
      exact ⟨_, rfl⟩
    obtain ⟨⟨o, pt', pool'⟩, h⟩ := hroot pt flags pool
    simp only [identityUpdate, aarch64_clearPa, h]
    cases o
    · exact hroot pt' _ pool'
    · exact ⟨_, rfl⟩

/-- A table without entries. -/
def absentTable (S : Stage) (root : Nat) : PageTable S :=
  ⟨root, fun _ _ => .absent aarch64 S.maxLevel⟩

theorem view_absentTable (root a : Nat) : (absentTable S root).view a = none :=
  view_ind (P := (· = none)) _ _ rfl fun _ _ => view_absent a

theorem isPresent_modeToAttrs_zero (S : Stage) (level : Nat) :
    archMmPteIsPresent (S.modeToAttrs aarch64 0#32) level = true := by
  rw [modeToAttrs]
  cases S.kind with
  | stage1 => rfl
  | stage2 => rfl

/-- Mapping a region of an empty table changes it. -/
theorem identityMap_absentTable_ne (hS : S.Fits) (hpool : pool.Wf)
    (hlt : archMmClearPa begin < S.updateEnd endAddr) (pool' : MPool) :
    (absentTable S 0).identityMap aarch64 begin endAddr 0#32 pool ≠
      some (.ok, absentTable S 0, pool') := by
  intro h
  rcases identityUpdate_cases hS.toValid hpool h with ⟨hin, hresult⟩ | ⟨hle, -⟩
  · have hwf : (absentTable S 0).Wf true := fun _ _ => wf_absent
    have hend : S.updateEnd endAddr ≤ 2 ^ 48 :=
      (Nat.min_le_right _ _).trans hS.ptableAddrSpaceEnd_le_field
    obtain ⟨x, hx, htarget⟩ := hresult.target hS.toValid hin rfl hwf (fun _ => hend)
      (attrsOk_modeToAttrs S 0#32) (Nat.le_refl _) hlt
    simp only [PageTableEntry.Target, Bool.false_eq_true, if_false] at htarget
    have hattrs : archMmPteAttrs x.inner x.level = S.modeToAttrs aarch64 0#32 := htarget.1
    have hview : (absentTable S 0).view (archMmClearPa begin) = none := view_absentTable 0 _
    rw [view, hx, Option.bind_some, Leaf.view_eq_none, Leaf.isPresent,
      ← archMmPteIsPresent_pteAttrs x.inner x.level x.level, hattrs,
      isPresent_modeToAttrs_zero] at hview
    contradiction
  · exact absurd hlt (Nat.not_lt.mpr hle)

/-- Both updates of a range return without a panic and leave a page table as it is. -/
def Ignores (pt : PageTable S) (begin endAddr : Nat) : Prop :=
  ∀ (mode : Mode) (pool : MPool), pool.Wf →
    (∃ pool', pt.identityMap aarch64 begin endAddr mode pool = some (.ok, pt, pool')) ∧
    ∃ pool', pt.unmap aarch64 begin endAddr pool = some (.ok, pt, pool')

/-- All page tables ignore a range above the address space if and only if the root tables
can be sliced at its start and, where the start has more bits than an address of an entry
has, what is left of it is not below the end. -/
theorem ignores_outOfRange_iff (hS : S.Fits) (begin endAddr : Nat)
    (hbegin : S.ptableAddrSpaceEnd ≤ begin) :
    (∀ pt : PageTable S, pt.Wf false → pt.Ignores begin endAddr) ↔
      index (archMmClearPa begin) S.rootLevel ≤ S.rootTableCount ∧
        (2 ^ 48 ≤ begin → S.updateEnd endAddr ≤ archMmClearPa begin) := by
  constructor
  · intro h
    obtain ⟨⟨pool', hmap⟩, -⟩ :=
      h (absentTable S 0) (fun _ _ => wf_absent) 0#32 examplePool wf_examplePool
    constructor
    · exact index_le_of_identityUpdate hmap
    · intro _
      apply Nat.le_of_not_lt
      intro hlt
      exact identityMap_absentTable_ne hS wf_examplePool hlt pool' hmap
  · rintro ⟨hidx, hlarge⟩ pt - mode pool -
    have hle : S.updateEnd endAddr ≤ archMmClearPa begin := by
      by_cases hfield : begin < 2 ^ 48
      · -- the end of the address space is at a page
        have hend : S.updateEnd endAddr ≤ S.ptableAddrSpaceEnd := Nat.min_le_right _ _
        have hpage := hS.toValid.ptableAddrSpaceEnd_le.2
        rw [archMmClearPa_of_lt hfield, roundDownToPage, pageSize_eq]
        omega
      · exact hlarge (Nat.not_lt.mp hfield)
    exact ⟨⟨pool, identityUpdate_of_le hle hidx⟩, pool, identityUpdate_of_le hle hidx⟩

theorem ignores_just_above :
    (absentTable hypervisor 0).Ignores (2 ^ 39) (2 ^ 39 + 0x1000) := by
  apply (ignores_outOfRange_iff fits_hypervisor (2 ^ 39) (2 ^ 39 + 0x1000) (by decide)).mpr
  · exact ⟨by decide, by decide⟩
  · exact fun _ _ => wf_absent

/-- Far above the address space of the hypervisor there is a panic, and above the address
bits the bottom of the address space is mapped. -/
theorem ranges_above_not_ignored :
    (absentTable hypervisor 0).identityMap aarch64 (2 ^ 40) (2 ^ 40 + 0x1000) 0#32
        examplePool = none ∧
      ∀ pool', (absentTable hypervisor 0).identityMap aarch64 (2 ^ 48) (2 ^ 48 + 0x1000) 0#32
        examplePool ≠ some (.ok, absentTable hypervisor 0, pool') := by
  constructor
  · rw [Option.eq_none_iff_forall_ne_some]
    intro r h
    exact absurd (index_le_of_identityUpdate h) (by decide)
  · exact identityMap_absentTable_ne fits_hypervisor wf_examplePool (by decide)

end PageTable

end Hafnium
