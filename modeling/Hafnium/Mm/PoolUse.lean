import Hafnium.Mm.OutOfRange
import Hafnium.Mm.Temporary

/-!
# What updates take from the pool

Whether an update finds the tables that it needs, and what it leaves in the pool, can be
read off the page table and the pool before it.
-/

namespace Hafnium

open Support Aarch64 Multiset

/-! ## Pools up to the addresses of single pages -/

namespace MPool

/-- The pool after a number of pages have been allocated and others freed. -/
def spend (need freed : Nat) (m : MPool) : MPool := (fun m => m.free 0)^[freed] (m.draw need)

/-- The pools hold the same runs of pages, and as many single pages. -/
structure Alike (m m' : MPool) : Prop where
  chunkList : m.pool.chunkList = m'.pool.chunkList
  length : m.pool.entryList.length = m'.pool.entryList.length
  fallback : m.fallback = m'.fallback

variable {m m' : MPool}

theorem Alike.trans {m₁ m₂ m₃ : MPool} (h : m₁.Alike m₂) (h' : m₂.Alike m₃) : m₁.Alike m₃ :=
  ⟨h.chunkList.trans h'.chunkList, h.length.trans h'.length, h.fallback.trans h'.fallback⟩

/-- Single pages, pages in runs, and pages of the pools behind. -/
theorem count_eq_add (m : MPool) : m.count = m.pool.entryList.length +
    (m.pool.chunkList.map Chunk.pages).sum.card + (m.fallback.map Pool.pages).sum.card := by
  simp only [count, pages, Pool.pages, card_add, coe_card]

theorem Alike.count (h : m.Alike m') : m.count = m'.count := by
  rw [count_eq_add, count_eq_add, h.chunkList, h.length, h.fallback]

theorem Alike.alloc (h : m.Alike m') :
    ((m.alloc.map Prod.snd).getD m).Alike ((m'.alloc.map Prod.snd).getD m') := by
  obtain ⟨⟨chunks, entries⟩, fallback⟩ := m
  obtain ⟨⟨chunks', entries'⟩, fallback'⟩ := m'
  obtain ⟨rfl, hlength, rfl⟩ := h
  cases entries with
  | cons entry entries =>
    obtain ⟨entry', entries', rfl⟩ := List.exists_cons_of_length_eq_add_one hlength.symm
    exact ⟨rfl, Nat.succ_inj.mp hlength, rfl⟩
  | nil =>
    obtain rfl : entries' = [] := List.eq_nil_of_length_eq_zero hlength.symm
    exact ⟨rfl, rfl, rfl⟩

theorem Alike.spend (h : m.Alike m') (need freed : Nat) :
    (m.spend need freed).Alike (m'.spend need freed) := by
  have hdraw : (m.draw need).Alike (m'.draw need) := by
    induction need with
    | zero => exact h
    | succ need ih => exact ih.alloc
  rw [MPool.spend, MPool.spend]
  induction freed with
  | zero => exact hdraw
  | succ freed ih =>
    rw [Function.iterate_succ_apply', Function.iterate_succ_apply']
    exact ⟨ih.chunkList, congrArg (· + 1) ih.length, ih.fallback⟩

/-- Freed pages become single pages. -/
theorem alike_spend {need freed : Nat} (hchunks : m.pool.chunkList = (m'.draw need).pool.chunkList)
    (hfallback : m.fallback = (m'.draw need).fallback)
    (hcount : m.count = (m'.draw need).count + freed) : m.Alike (m'.spend need freed) := by
  have hfree : ∀ s : MPool, ((fun m => m.free 0)^[freed] s).pool.chunkList = s.pool.chunkList ∧
      ((fun m => m.free 0)^[freed] s).pool.entryList.length = s.pool.entryList.length + freed ∧
      ((fun m => m.free 0)^[freed] s).fallback = s.fallback := by
    clear hcount
    intro s
    induction freed with
    | zero => exact ⟨rfl, rfl, rfl⟩
    | succ freed ih =>
      rw [Function.iterate_succ_apply']
      exact ⟨ih.1, congrArg (· + 1) ih.2.1, ih.2.2⟩
  obtain ⟨h₁, h₂, h₃⟩ := hfree (m'.draw need)
  rw [count_eq_add, count_eq_add, hchunks, hfallback] at hcount
  exact ⟨hchunks.trans h₁.symm, by rw [spend, h₂]; omega, hfallback.trans h₃.symm⟩

/-- A run of pages can be allocated from both or from none. -/
theorem Alike.allocPages (h : m.Alike m') (size align : Nat) :
    (m.allocPages size align).isSome = (m'.allocPages size align).isSome := by
  have hpool : (m.pool.allocPages size align).isSome = (m'.pool.allocPages size align).isSome := by
    obtain ⟨⟨chunks, entries⟩, fallback⟩ := m
    obtain ⟨⟨chunks', entries'⟩, fallback'⟩ := m'
    obtain ⟨rfl, hlength, -⟩ := h
    rw [Pool.allocPages, Pool.allocPages]
    split
    · cases entries with
      | cons entry entries =>
        obtain ⟨entry', entries', rfl⟩ := List.exists_cons_of_length_eq_add_one hlength.symm
        rfl
      | nil =>
        obtain rfl : entries' = [] := List.eq_nil_of_length_eq_zero hlength.symm
        rfl
    · dsimp only
      cases Pool.popIfSome (Pool.placeIn size align) chunks <;> rfl
  rw [MPool.allocPages, MPool.allocPages, allocWith, allocWith, ← h.fallback]
  revert hpool
  cases m.pool.allocPages size align <;> cases m'.pool.allocPages size align <;> simp

end MPool

namespace PageTable

variable {S : Stage} {attrs : BitVec 64} {unmap strict : Bool} {begin endAddr : Nat}
  {pt pt₁ pt₂ : PageTable S} {f : Nat → PageTableEntry S.maxLevel → Nat}

theorem total_of_le (h : endAddr ≤ begin) : pt.total endAddr begin f = 0 := by
  rw [total, visits_eq_nil h]
  rfl

/-- The number of tables that `identity_map` takes from the pool for a range. -/
def mapNeed (begin endAddr : Nat) (mode : Mode) (pt : PageTable S) : Nat :=
  pt.need (S.updateEnd endAddr) (S.modeToAttrs aarch64 mode) false (archMmClearPa begin)

/-- The number of tables that `identity_map` gives back.  A valid block leaks the tables in
whose place it is put. -/
def mapFrees (begin endAddr : Nat) (mode : Mode) (pt : PageTable S) : Nat :=
  if mode &&& Mode.INVALID = 0#32 then 0
  else pt.wholeTables (S.updateEnd endAddr) (archMmClearPa begin)

theorem mapFrees_of_valid {mode : Mode} (h : mode &&& Mode.INVALID = 0#32) (begin endAddr : Nat)
    (pt : PageTable S) : pt.mapFrees begin endAddr mode = 0 := if_pos h

/-- The number of tables that `unmap` takes from the pool for a range that has been mapped
under a mode before. -/
def laterNeed (begin endAddr : Nat) (mode : Mode) (pt : PageTable S) : Nat :=
  pt.later (S.updateEnd endAddr) (S.modeToAttrs aarch64 mode) (archMmClearPa begin)

/-- The number of tables that `unmap` gives back for a range that has been mapped under a
mode before. -/
def laterFrees (begin endAddr : Nat) (mode : Mode) (pt : PageTable S) : Nat :=
  pt.recovered (S.updateEnd endAddr) (S.modeToAttrs aarch64 mode) (archMmClearPa begin)

/-- The number of tables that `unmap` takes from the pool for a range. -/
def unmapNeed (begin endAddr : Nat) (pt : PageTable S) : Nat :=
  pt.need (S.updateEnd endAddr)
    (S.modeToAttrs aarch64 (Mode.UNOWNED ||| Mode.INVALID ||| Mode.SHARED)) true
    (archMmClearPa begin)

/-- The number of tables that `unmap` gives back for a range. -/
def unmapFrees (begin endAddr : Nat) (pt : PageTable S) : Nat :=
  pt.total (S.updateEnd endAddr) (archMmClearPa begin)
    (PageTableEntry.freed (S.updateEnd endAddr))

section Pool

variable (hpt : pt.Regular strict) {m m₁ m₂ : MPool} (hm : m.Wf)
include hpt hm

/-- An update that does not slice the root tables past their end succeeds exactly if the
pool holds the tables that it needs. -/
theorem identityUpdate_ok_iff (hidx : index (archMmClearPa begin) S.rootLevel ≤ S.rootTableCount) :
    (∃ pt' m', pt.identityUpdate aarch64 begin endAddr attrs ⟨false, unmap⟩ m =
        some (.ok, pt', m')) ↔
      pt.need (S.updateEnd endAddr) attrs unmap (archMmClearPa begin) ≤ m.count := by
  have hS := hpt.fits.toValid
  by_cases hlt : archMmClearPa begin < S.updateEnd endAddr
  · exact identityUpdate_need_iff hS hpt.wf hm (inSpace_update hS hlt)
  · rw [Nat.not_lt] at hlt
    rw [show pt.need _ attrs unmap _ = 0 from total_of_le hlt]
    exact ⟨fun _ => Nat.zero_le _, fun _ => ⟨pt, m, identityUpdate_of_le hlt hidx⟩⟩

/-- What a successful mapping leaves in the pool. -/
theorem identityMap_left {mode : Mode}
    (h : pt.identityMap aarch64 begin endAddr mode m = some (.ok, pt₁, m₁)) :
    m₁.count = m.count - pt.mapNeed begin endAddr mode + pt.mapFrees begin endAddr mode := by
  have hS := hpt.fits.toValid
  have hattrs := attrsOk_modeToAttrs S mode
  have hpa : S.updateEnd endAddr ≤ 2 ^ 48 :=
    (Nat.min_le_right _ _).trans hpt.fits.ptableAddrSpaceEnd_le_field
  rw [mapNeed, mapFrees]
  rcases identityUpdate_cases hS hm h with ⟨hin, -⟩ | ⟨hle, -, -, rfl⟩
  · obtain ⟨hremade, hneed, hall⟩ := identityUpdate_spends hS hin hpt.wf hm h
    have hcount := hremade.tableCount_map hS hin hpt.wf
    split
    · rename_i hmode
      have hvalid : ∀ l, archMmPteIsValid (S.modeToAttrs aarch64 mode) l = true := by
        intro l
        rw [isValid_modeToAttrs, hmode]
        rfl
      rw [card_leaks hS hin hpt.wf hpa hattrs hvalid] at hall
      omega
    · rename_i hmode
      have hleaks := @leaks_eq_zero_of_invalid S pt hS begin endAddr
        (S.modeToAttrs aarch64 mode) ⟨true, false⟩ (by
          intro l b hb hlt
          rw [RawPageTable.newEntry_isValid_map ⟨hb, by omega⟩ hattrs, isValid_modeToAttrs]
          exact decide_eq_false hmode)
      rw [hleaks, card_zero] at hall
      omega
  · have hneed : pt.need (S.updateEnd endAddr) (S.modeToAttrs aarch64 mode) false
        (archMmClearPa begin) = 0 := total_of_le hle
    rw [hneed, wholeTables, total_of_le hle, ite_self]
    rfl

/-- What unmapping a range leaves in the pool. -/
theorem unmap_count (h : pt.unmap aarch64 begin endAddr m = some (.ok, pt₁, m₁)) :
    m₁.count = m.count - pt.unmapNeed begin endAddr + pt.unmapFrees begin endAddr := by
  have hS := hpt.fits.toValid
  rw [unmapNeed, unmapFrees]
  rcases identityUpdate_cases hS hm h with ⟨hin, -⟩ | ⟨hle, -, -, rfl⟩
  · obtain ⟨hremade, hneed, hall⟩ := identityUpdate_spends hS hin hpt.wf hm h
    have hcount := hremade.tableCount_add_total pt fun t b hb i b' hb' =>
      (((hremade.visited t b hb).visited i b' hb').tableCount_unmap (hpt.wf t i)
        ((hin.child hS hb).child hb') (attrsOk_modeToAttrs S _)).1
    rw [leaks_unmap hS, card_zero] at hall
    change _ = _ + pt.need _ _ true _ at hcount
    omega
  · rw [show pt.need _ _ true _ = 0 from total_of_le hle, total_of_le hle]
    rfl

/-- What unmapping takes and gives back for a range that has been mapped. -/
theorem unmap_of_identityMap {mode : Mode}
    (h : pt.identityMap aarch64 begin endAddr mode m = some (.ok, pt₁, m₁)) :
    pt₁.unmapNeed begin endAddr = pt.laterNeed begin endAddr mode ∧
      pt₁.unmapFrees begin endAddr = pt.laterFrees begin endAddr mode := by
  have hS := hpt.fits.toValid
  rw [unmapNeed, unmapFrees, laterNeed, laterFrees]
  rcases identityUpdate_cases hS hm h with ⟨hin, -⟩ | ⟨hle, -⟩
  · exact (identityUpdate_spends hS hin hpt.wf hm h).1.mapped hS hin hpt.wf
  · exact ⟨(total_of_le hle).trans (total_of_le hle).symm,
      (total_of_le hle).trans (total_of_le hle).symm⟩

/-- A range that has been mapped can be unmapped exactly if the pool holds the tables that
this takes. -/
theorem unmap_ok_iff {mode : Mode} {m₁' : MPool} (hm₁ : m₁'.Wf)
    (h : pt.identityMap aarch64 begin endAddr mode m = some (.ok, pt₁, m₁)) :
    (∃ pt₂ m₂, pt₁.unmap aarch64 begin endAddr m₁' = some (.ok, pt₂, m₂)) ↔
      pt.laterNeed begin endAddr mode ≤ m₁'.count := by
  rw [← (unmap_of_identityMap hpt hm h).1]
  exact identityUpdate_ok_iff (hpt.identityUpdate hm (attrsOk_modeToAttrs S mode) h).1 hm₁
    (index_le_of_identityUpdate h)

/-- Up to the addresses of single pages, an update leaves the pool as if it took the tables
that it needs before it gives back others. -/
theorem identityUpdate_alike
    (h : pt.identityUpdate aarch64 begin endAddr attrs ⟨false, unmap⟩ m = some (.ok, pt₁, m₁))
    {freed : Nat} (hcount : m₁.count = m.count -
      pt.need (S.updateEnd endAddr) attrs unmap (archMmClearPa begin) + freed) :
    m₁.Alike (m.spend (pt.need (S.updateEnd endAddr) attrs unmap (archMmClearPa begin)) freed) := by
  have hS := hpt.fits.toValid
  rcases identityUpdate_cases hS hm h with ⟨hin, -⟩ | ⟨hle, -, -, rfl⟩
  · -- the first pass only allocates, and the second one only frees
    obtain ⟨⟨o, mid, s⟩, hfirst, hsplit, hspent, -⟩ := mapRoot_spends hS hpt.wf hm hin attrs unmap
    simp only [identityUpdate, aarch64_clearPa, hfirst] at h
    cases o with
    | err => cases h
    | ok =>
      obtain ⟨k, hdraw, hk⟩ := hsplit.drawn.draws
      obtain ⟨r, hsecond, hcommit⟩ := mapRoot_commitPass hS hin rfl (hsplit.covered rfl).commit s
      cases hsecond.symm.trans h
      obtain rfl := Nat.add_left_cancel (hk.trans (hspent rfl).symm)
      refine MPool.alike_spend ?_ ?_ (by rw [← hdraw]; exact hcount.trans (by omega))
      · rw [← hdraw]
        exact hcommit.freed.chunkList
      · rw [← hdraw]
        exact hcommit.freed.fallback
  · have hneed : pt.need (S.updateEnd endAddr) attrs unmap (archMmClearPa begin) = 0 :=
      total_of_le hle
    rw [hneed, Nat.sub_zero] at hcount
    rw [hneed]
    exact MPool.alike_spend rfl rfl hcount

end Pool

end PageTable

end Hafnium
