import Hafnium.Mm.Conservation
import Hafnium.Mm.Remaking

/-!
# What an update leaves in the pool

An update takes the tables that it needs from the pool and gives back those that it takes
out of the page table: this module counts what is left.
-/

namespace Hafnium

open Support Aarch64

theorem PageTableEntry.tableCount_newEntry {level : Nat} (attrs : BitVec 64) (flags : Flags)
    (begin : Nat) :
    (RawPageTable.newEntry aarch64 attrs flags level begin).tableCount = 0 := by
  rw [RawPageTable.newEntry]
  split <;> exact tableCount_leaf _

namespace PageTable

/-- A successful update has found the tables that it needs, and gives back those that are
gone afterwards, except those that leak. -/
theorem identityUpdate_spends {S : Stage} {attrs : BitVec 64} {unmap strict : Bool}
    {begin endAddr : Nat} {pt pt' : PageTable S} {m m₁ : MPool} (hS : S.Valid)
    (hin : InSpace S (archMmClearPa begin) (S.updateEnd endAddr)) (hwf : pt.Wf strict)
    (hm : m.Wf)
    (h : pt.identityUpdate aarch64 begin endAddr attrs ⟨false, unmap⟩ m = some (.ok, pt', m₁)) :
    Remade (S.updateEnd endAddr) attrs unmap (archMmClearPa begin) pt pt' ∧
      pt.need (S.updateEnd endAddr) attrs unmap (archMmClearPa begin) ≤ m.count ∧
      m₁.count + pt'.tableCount +
          (leaks (S.updateEnd endAddr) attrs ⟨true, unmap⟩ (archMmClearPa begin) pt).card =
        m.count + pt.tableCount := by
  have hneed := (identityUpdate_need_iff hS hwf hm hin).mp ⟨pt', m₁, h⟩
  obtain ⟨r, hr, hspec⟩ := identityUpdate_spec hS hin attrs unmap pt hm
  cases hr.symm.trans h
  have hpages := congrArg Multiset.card (hspec.ok rfl).2
  simp only [Multiset.card_add, card_pages] at hpages
  obtain ⟨⟨o, mid, s⟩, hfirst, -⟩ := mapRoot_splitPass hS hin attrs ⟨false, unmap⟩ rfl pt hm
  simp only [identityUpdate, aarch64_clearPa, hfirst] at h
  cases o with
  | err => cases h
  | ok =>
    refine ⟨mapRoot_remade hS hin hwf hm hfirst h, hneed, ?_⟩
    simp only [MPool.count]
    omega

end PageTable

end Hafnium
