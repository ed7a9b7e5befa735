import Hafnium.Mm.Restore
import Hafnium.Ownership
import Hafnium.Support.Post

/-!
# Failed transfers are undone

The functions that move memory between VMs either complete or leave the meaning
of every stage-2 table as it was.  The restoring updates never run out of
memory, whatever other CPUs do to the page pool in the meantime.
-/

namespace Hafnium

open Support Aarch64 PageTable Stage PageTableEntry Option

/-! ## Pools shared with other CPUs -/

/-- Other CPUs leave a pool usable. -/
def Interference.Ok (env : Interference) : Prop := ∀ k p, p.Usable → (env k p).Usable

theorem MPool.wf_interfere {m : MPool} (hm : m.Wf) {f : Pool → Pool}
    (hf : ∀ p, p.Usable → (f p).Usable) : (m.interfere f).Wf := by
  rw [wf_iff] at hm ⊢
  refine ⟨hm.1, fun p hp => ?_⟩
  obtain ⟨q, hq, rfl⟩ := List.mem_map.mp hp
  exact hf q (hm.2 q hq)

theorem MPool.interfere_id (m : MPool) : m.interfere id = m := by
  rw [interfere, List.map_id]

/-- The pages of the pool itself are out of reach for others. -/
theorem MPool.card_pool_le (m : MPool) (f : Pool → Pool) :
    m.pool.pages.card ≤ (m.interfere f).count := by
  rw [count, pages, Multiset.card_add]
  exact Nat.le_add_right _ _

/-! ## Mapping a region and mapping it back -/

/-- What a page table says about a page mapped with these attributes. -/
def attrsView (attrs : BitVec 64) : Option (BitVec 64) :=
  if archMmPteIsPresent attrs 0 then some attrs else none

/-- A view with the pages of a region mapped with the given attributes. -/
def mappedView (begin endAddr : Nat) (attrs : BitVec 64) (view : Nat → Option (BitVec 64)) :
    Nat → Option (BitVec 64) := fun a =>
  if begin ≤ a ∧ a < endAddr then attrsView attrs else view a

theorem attrsView_of_attrs {x : Leaf} {attrs : BitVec 64} (h : x.attrs = attrs) :
    x.view = attrsView attrs := by
  rw [Leaf.view, attrsView, ← h, Leaf.isPresent, Leaf.attrs, archMmPteIsPresent_pteAttrs,
    archMmPteIsPresent_level _ x.level 0]

theorem attrsView_of_view {x : Leaf} {attrs : BitVec 64} (h : x.view = some attrs) :
    attrsView attrs = some attrs := by
  rw [Leaf.view, ite_none_right_eq_some, some.injEq] at h
  rw [← attrsView_of_attrs h.2, Leaf.view, if_pos h.1, h.2]

theorem mappedView_mappedView (begin endAddr : Nat) (attrs attrs' : BitVec 64)
    (v : Nat → Option (BitVec 64)) :
    mappedView begin endAddr attrs (mappedView begin endAddr attrs' v) =
      mappedView begin endAddr attrs v := by
  funext a
  simp only [mappedView]
  split <;> rfl

theorem mappedView_comm {begin endAddr begin' endAddr' : Nat}
    (hdisj : endAddr ≤ begin' ∨ endAddr' ≤ begin) (attrs attrs' : BitVec 64)
    (v : Nat → Option (BitVec 64)) :
    mappedView begin endAddr attrs (mappedView begin' endAddr' attrs' v) =
      mappedView begin' endAddr' attrs' (mappedView begin endAddr attrs v) := by
  funext a
  simp only [mappedView]
  split <;> split <;> first | rfl | omega

/-- The attributes with which a range is mapped back: those of the mode that was
read from its attributes. -/
def restoredAttrs (S : Stage) (orig : BitVec 64) : BitVec 64 :=
  S.modeToAttrs aarch64 (attrsToMode aarch64 orig)

/-- Reading the mode back recovers attributes that encode a mode. -/
theorem restoredAttrs_eq {S : Stage} (hkind : S.kind = .stage2) (mode : Mode) :
    restoredAttrs S (S.modeToAttrs aarch64 mode) = S.modeToAttrs aarch64 mode := by
  simp only [restoredAttrs, modeToAttrs, hkind]
  exact archMmModeToStage2Attrs_attrsToMode mode

/-- Every page keeps its meaning, or was mapped with the mode read from it. -/
def Reread (S : Stage) (v v' : Nat → Option (BitVec 64)) : Prop :=
  ∀ a, v' a = v a ∨ ∃ orig, v a = some orig ∧ v' a = attrsView (restoredAttrs S orig)

theorem Reread.refl (S : Stage) (v : Nat → Option (BitVec 64)) : Reread S v v := fun _ => Or.inl rfl

theorem Reread.mapped {S : Stage} {v v' : Nat → Option (BitVec 64)} (h : Reread S v v')
    {begin endAddr : Nat} {orig : BitVec 64}
    (horig : ∀ a, begin ≤ a → a < endAddr → v a = some orig) :
    Reread S v (mappedView begin endAddr (restoredAttrs S orig) v') := by
  intro a
  rw [mappedView]
  split
  · rename_i ha
    exact Or.inr ⟨orig, horig a ha.1 ha.2, rfl⟩
  · exact h a

namespace PageTable

variable {S : Stage} {strict : Bool} {begin endAddr : Nat} {attrs : BitVec 64}
  {pt pt' : PageTable S} {pool pool' : MPool} {env : Pool → Pool}

/-- The region of a range of whole pages in the address space is the range. -/
theorem region_eq (hS : S.Fits) (hin : InSpace S begin endAddr) :
    archMmClearPa begin = begin ∧ S.updateEnd endAddr = endAddr := by
  have hle := hS.ptableAddrSpaceEnd_le_field
  have h1 := hin.lt
  have h2 := hin.le
  have h3 := hin.beginPage
  have h4 := hin.endPage
  rw [archMmClearPa_eq, updateEnd, roundUpToPage, roundDownToPage, pageSize_eq]
  omega

/-- What mapping a range of whole pages does: `r` is its result. -/
structure MapResult (strict : Bool) (begin endAddr : Nat) (attrs : BitVec 64) (pt : PageTable S)
    (r : Outcome × PageTable S × MPool) : Prop where
  regular : r.2.1.Regular strict
  poolWf : r.2.2.Wf
  err : r.1 = .err → pt.Splits r.2.1
  ok : r.1 = .ok → ∃ mid, pt.Splits mid ∧ Updated endAddr attrs ⟨true, false⟩ begin mid r.2.1

theorem identityMapIn_spec (hpt : pt.Regular strict) (hpool : pool.Wf)
    (henv : ∀ p, p.Usable → (env p).Usable) (hin : InSpace S begin endAddr) (mode : Mode) :
    ∃ r, pt.identityMapIn env begin endAddr mode pool = .ok r ∧
      MapResult strict begin endAddr (S.modeToAttrs aarch64 mode) pt r := by
  obtain ⟨hbegin, hend⟩ := region_eq hpt.fits hin
  have hpool' := MPool.wf_interfere hpool henv
  obtain ⟨r, hr, hspec⟩ := identityUpdate_spec hpt.fits.toValid (by rwa [hbegin, hend])
    (S.modeToAttrs aarch64 mode) false pt hpool'
  obtain ⟨hreg, hwf⟩ := hpt.identityUpdate hpool' (attrsOk_modeToAttrs S mode) hr
  rw [hbegin, hend] at hspec
  refine ⟨r, ?_, hreg, hwf, fun h => (hspec.err h).1, fun h => ?_⟩
  · rw [identityMapIn, identityMap, hr, orPanic]
  · obtain ⟨⟨mid, hsplits, -, hupd⟩, -⟩ := hspec.ok h
    exact ⟨mid, hsplits, hupd⟩
variable {r : Outcome × PageTable S × MPool}

theorem MapResult.view_err (hpt : pt.Regular strict)
    (h : MapResult strict begin endAddr attrs pt r) (hr : r.1 = .err) : r.2.1.view = pt.view :=
  funext ((h.err hr).view hpt.wf)

theorem MapResult.view_ok (hpt : pt.Regular strict)
    (hin : InSpace S begin endAddr) (hattrs : AttrsOk attrs)
    (h : MapResult strict begin endAddr attrs pt r) (hr : r.1 = .ok) :
    r.2.1.view = mappedView begin endAddr attrs pt.view := by
  obtain ⟨mid, hsplits, hupd⟩ := h.ok hr
  have hS := hpt.fits.toValid
  have hbound : endAddr ≤ 2 ^ 48 := hin.le.trans hpt.fits.ptableAddrSpaceEnd_le_field
  funext a
  rw [mappedView]
  split
  · rename_i ha
    obtain ⟨x, hx, htarget⟩ :=
      hupd.target hS hin (hsplits.wf hpt.wf) (fun _ => hbound) hattrs ha.1 ha.2
    rw [view, hx, bind_some]
    exact attrsView_of_attrs htarget.1
  · rename_i ha
    rw [hupd.frame hS hin (hsplits.wf hpt.wf) (fun _ => hbound) hattrs ha, hsplits.view hpt.wf]

/-- After a range with uniform attributes has been mapped with another mode, it
can be mapped back without any table. -/
theorem MapResult.covered_again (hkind : S.kind = .stage2) {mode : Mode} {orig : BitVec 64}
    (hpt : pt.Regular strict) (hin : InSpace S begin endAddr)
    (h : MapResult strict begin endAddr (S.modeToAttrs aarch64 mode) pt r) (hr : r.1 = .ok)
    (hview : ∀ a, begin ≤ a → a < endAddr → pt.view a = some orig) :
    Covered endAddr (restoredAttrs S orig) ⟨false, false⟩ begin r.2.1 := by
  obtain ⟨mid, hsplits, hupd⟩ := h.ok hr
  refine hupd.covered_again (fun hsame => ?_) hpt.fits.toValid hin (hsplits.wf hpt.wf)
    fun a hlo hhi => (hsplits.view hpt.wf a).trans (hview a hlo hhi)
  rw [hsame, restoredAttrs_eq hkind]

/-- What another range needs no table for, it needs none for afterwards. -/
theorem MapResult.covered_other {begin' endAddr' : Nat} {attrs' : BitVec 64}
    (hpt : pt.Regular strict) (hin : InSpace S begin endAddr)
    (hin' : InSpace S begin' endAddr') (hdisj : endAddr' ≤ begin ∨ endAddr ≤ begin')
    (h : MapResult strict begin endAddr attrs pt r)
    (hcovered : Covered endAddr' attrs' ⟨false, false⟩ begin' pt) :
    Covered endAddr' attrs' ⟨false, false⟩ begin' r.2.1 := by
  obtain ⟨_ | _, pt', pool'⟩ := r
  · obtain ⟨mid, hsplits, hupd⟩ := h.ok rfl
    exact (hcovered.of_splits hsplits hpt.wf).of_updated hpt.fits.toValid hupd hin' hin hdisj
      (hsplits.wf hpt.wf)
  · exact hcovered.of_splits (h.err rfl) hpt.wf

theorem defrag_regular (hpt : pt.Regular strict) (hpool : pool.Wf) :
    (pt.defrag aarch64 pool).1.Regular strict ∧ (pt.defrag aarch64 pool).2.Wf ∧
      (pt.defrag aarch64 pool).1.view = pt.view := by
  have h := defrag_spec hpt.wf hpt.plain pool
  exact ⟨⟨hpt.fits, h.wf, h.plain⟩, h.freed.wf hpool, funext h.view⟩

/-- A region that needs no table can be mapped with any pool. -/
theorem identityMapIn_of_covered (hS : S.Fits) (hin : InSpace S begin endAddr) (mode : Mode)
    (hcovered : Covered endAddr (S.modeToAttrs aarch64 mode) ⟨false, false⟩ begin pt)
    (env : Pool → Pool) (pool : MPool) :
    ∃ pt' pool', pt.identityMapIn env begin endAddr mode pool = .ok (.ok, pt', pool') := by
  obtain ⟨hbegin, hend⟩ := region_eq hS hin
  obtain ⟨pt', pool', h⟩ := identityUpdate_of_covered hS.toValid (by rwa [hbegin, hend])
    (by rwa [hbegin, hend]) (pool.interfere env)
  exact ⟨pt', pool', by rw [identityMapIn, identityMap, h, orPanic]⟩

/-- A region that needed no table can still be updated after a defragmentation:
the tables it needs again are among those freed into the pool itself. -/
theorem identityUpdate_of_defrag (hpt : pt.Regular strict) (hpool : pool.Wf)
    (henv : ∀ p, p.Usable → (env p).Usable) {unmap : Bool}
    (hin : InSpace S (archMmClearPa begin) (S.updateEnd endAddr))
    (hcovered : Covered (S.updateEnd endAddr) attrs ⟨false, unmap⟩ (archMmClearPa begin) pt) :
    ∃ pt' pool', (pt.defrag aarch64 pool).1.identityUpdate aarch64 begin endAddr attrs
      ⟨false, unmap⟩ ((pt.defrag aarch64 pool).2.interfere env) = some (.ok, pt', pool') := by
  have hspec := defrag_spec hpt.wf hpt.plain pool
  generalize pt.defrag aarch64 pool = r at hspec ⊢
  have hpool' := MPool.wf_interfere (hspec.freed.wf hpool) henv
  have hneed : r.1.need (S.updateEnd endAddr) attrs unmap (archMmClearPa begin) ≤
      (r.2.interfere env).count := by
    have hle := hspec.need_le (S.updateEnd endAddr) attrs unmap (archMmClearPa begin)
    have hcards := congrArg Multiset.card hspec.pages
    have hown := r.2.card_pool_le env
    rw [hcovered.need_eq_zero hpt.wf] at hle
    simp only [MPool.pages, hspec.freed.fallback, Multiset.card_add] at hcards
    omega
  exact (identityUpdate_need_iff hpt.fits.toValid hspec.wf hpool' hin).mpr hneed

theorem identityMapIn_of_defrag (hpt : pt.Regular strict) (hpool : pool.Wf)
    (henv : ∀ p, p.Usable → (env p).Usable) (hin : InSpace S begin endAddr) (mode : Mode)
    (hcovered : Covered endAddr (S.modeToAttrs aarch64 mode) ⟨false, false⟩ begin pt) :
    ∃ pt' pool', (pt.defrag aarch64 pool).1.identityMapIn env begin endAddr mode
      (pt.defrag aarch64 pool).2 = .ok (.ok, pt', pool') := by
  obtain ⟨hbegin, hend⟩ := region_eq hpt.fits hin
  obtain ⟨pt', pool', h⟩ := identityUpdate_of_defrag hpt hpool henv (by rwa [hbegin, hend])
    (by rwa [hbegin, hend])
  exact ⟨pt', pool', by rw [identityMapIn, identityMap, h, orPanic]⟩

/-- Mapping any range leaves a table regular. -/
theorem Regular.identityMapIn (hpt : pt.Regular strict) (hpool : pool.Wf)
    (henv : ∀ p, p.Usable → (env p).Usable) {mode : Mode} {o : Outcome}
    (h : pt.identityMapIn env begin endAddr mode pool = .ok (o, pt', pool')) :
    pt'.Regular strict ∧ pool'.Wf :=
  hpt.identityUpdate (MPool.wf_interfere hpool henv) (attrsOk_modeToAttrs S mode)
    (orPanic_eq_ok.mp h)

theorem Regular.unmapIn (hpt : pt.Regular strict) (hpool : pool.Wf)
    (henv : ∀ p, p.Usable → (env p).Usable) {o : Outcome}
    (h : pt.unmapIn env begin endAddr pool = .ok (o, pt', pool')) :
    pt'.Regular strict ∧ pool'.Wf :=
  hpt.identityUpdate (MPool.wf_interfere hpool henv) (attrsOk_modeToAttrs S _)
    (orPanic_eq_ok.mp h)

end PageTable

namespace Transfer

variable {S H : Stage} {strict : Bool} {begin endAddr : Nat} {t t' : Transfer S H}

/-- All tables of a transfer are regular. -/
structure Regular (strict : Bool) (t : Transfer S H) : Prop where
  fromPtable : t.fromPtable.Regular strict
  toPtable : t.toPtable.Regular strict
  hypervisorPtable : t.hypervisorPtable.Regular strict
  pool : t.pool.Wf

theorem Regular.defragSender (ht : t.Regular strict) : t.defragSender.Regular strict := by
  have hspec := defrag_regular ht.fromPtable ht.pool
  rw [Transfer.defragSender]
  generalize t.fromPtable.defrag aarch64 t.pool = r at hspec ⊢
  exact ⟨hspec.1, ht.toPtable, ht.hypervisorPtable, hspec.2.1⟩

theorem Regular.defragHypervisor (ht : t.Regular strict) : t.defragHypervisor.Regular strict := by
  have hspec := defrag_regular ht.hypervisorPtable ht.pool
  rw [Transfer.defragHypervisor]
  generalize t.hypervisorPtable.defrag aarch64 t.pool = r at hspec ⊢
  exact ⟨ht.fromPtable, ht.toPtable, hspec.1, hspec.2.1⟩

/-- Clearing memory only touches the hypervisor's table and the pool. -/
theorem clearMemory_post {env : Interference} (henv : env.Ok) (ht : t.Regular strict)
    (begin endAddr : Nat) :
    Post (t.clearMemory env begin endAddr) (fun p => p = .mapRoot ∨ p = .unmap) fun r =>
      r.2.Regular strict ∧ r.2.fromPtable = t.fromPtable ∧ r.2.toPtable = t.toPtable := by
  refine Post.bind (R := fun r => r.2.1.Regular strict ∧ r.2.2.Wf)
    (.intro (fun p h => Or.inl (orPanic_eq_error.mp h).2) fun r h =>
      ht.hypervisorPtable.identityMapIn ht.pool (henv 0) h) ?_
  rintro ⟨_ | _, hyp, pool⟩ ⟨hhyp, hpool⟩
  · refine Post.bind (R := fun r => r.2.1.Regular strict ∧ r.2.2.Wf)
      (.intro (fun p h => Or.inl (orPanic_eq_error.mp h).2) fun r h =>
        hhyp.unmapIn hpool (henv 1) h) ?_
    rintro ⟨_ | _, hyp', pool'⟩ ⟨hhyp', hpool'⟩
    · exact ⟨⟨ht.fromPtable, ht.toPtable, hhyp', hpool'⟩, rfl, rfl⟩
    · exact Or.inr rfl
  · exact ⟨Regular.defragHypervisor ⟨ht.fromPtable, ht.toPtable, hhyp, hpool⟩, rfl, rfl⟩

section Sender

variable {env : Pool → Pool} (henv : ∀ p, p.Usable → (env p).Usable) (ht : t.Regular strict)
  (hin : InSpace S begin endAddr)
include henv ht hin

theorem mapSender_post (mode : Mode) :
    Post (t.mapSender env begin endAddr mode) (fun _ => False) fun r =>
      r.2.Regular strict ∧ r.2.toPtable = t.toPtable ∧
        PageTable.MapResult strict begin endAddr (S.modeToAttrs aarch64 mode) t.fromPtable
          (r.1, r.2.fromPtable, r.2.pool) := by
  obtain ⟨r, hmap, hres⟩ := identityMapIn_spec ht.fromPtable ht.pool henv hin mode
  rw [mapSender, hmap]
  exact ⟨⟨hres.regular, ht.toPtable, ht.hypervisorPtable, hres.poolWf⟩, rfl, hres⟩

theorem mapRecipient_post (mode : Mode) :
    Post (t.mapRecipient env begin endAddr mode) (fun _ => False) fun r =>
      r.2.Regular strict ∧ r.2.fromPtable = t.fromPtable ∧
        PageTable.MapResult strict begin endAddr (S.modeToAttrs aarch64 mode) t.toPtable
          (r.1, r.2.toPtable, r.2.pool) := by
  obtain ⟨r, hmap, hres⟩ := identityMapIn_spec ht.toPtable ht.pool henv hin mode
  rw [mapRecipient, hmap]
  exact ⟨⟨ht.fromPtable, hres.regular, ht.hypervisorPtable, hres.poolWf⟩, rfl, hres⟩

/-- If the restoring update succeeds, it maps the range with the mode given. -/
theorem restoreSender_post (mode : Mode) (hok : ∃ pt' pool',
      t.fromPtable.identityMapIn env begin endAddr mode t.pool = .ok (.ok, pt', pool')) :
    Post (t.restoreSender env begin endAddr mode) (fun _ => False) fun t' =>
      t'.Regular strict ∧ t'.toPtable = t.toPtable ∧ t'.fromPtable.view =
        mappedView begin endAddr (S.modeToAttrs aarch64 mode) t.fromPtable.view := by
  obtain ⟨pt', pool', hmap⟩ := hok
  obtain ⟨r, hr, hres⟩ := identityMapIn_spec ht.fromPtable ht.pool henv hin mode
  rw [hmap] at hr
  cases hr
  have hview := hres.view_ok ht.fromPtable hin (attrsOk_modeToAttrs S mode) rfl
  rw [restoreSender, mapSender, hmap]
  exact ⟨⟨hres.regular, ht.toPtable, ht.hypervisorPtable, hres.poolWf⟩, rfl, hview⟩

/-- A range that can be mapped without any table can be restored even after the
sender's table has been defragmented. -/
theorem defragSender_restore_post (mode : Mode)
    (hcovered : PageTable.Covered endAddr (S.modeToAttrs aarch64 mode) ⟨false, false⟩ begin
      t.fromPtable) :
    Post (t.defragSender.restoreSender env begin endAddr mode) (fun _ => False) fun t' =>
      t'.Regular strict ∧ t'.toPtable = t.toPtable ∧ t'.fromPtable.view =
        mappedView begin endAddr (S.modeToAttrs aarch64 mode) t.fromPtable.view := by
  have hview : t.defragSender.fromPtable.view = t.fromPtable.view :=
    (defrag_regular ht.fromPtable ht.pool).2.2
  rw [← hview]
  exact restoreSender_post henv ht.defragSender hin mode
    (identityMapIn_of_defrag ht.fromPtable ht.pool henv hin mode hcovered)

end Sender

/-- The tables after a completed transfer. -/
structure Done (begin endAddr : Nat) (fromMode toMode : Mode) (t t' : Transfer S H) : Prop where
  fromView : t'.fromPtable.view =
    mappedView begin endAddr (S.modeToAttrs aarch64 fromMode) t.fromPtable.view
  toView : t'.toPtable.view =
    mappedView begin endAddr (S.modeToAttrs aarch64 toMode) t.toPtable.view

/-- The tables after a failed transfer. -/
structure Undone (t t' : Transfer S H) : Prop where
  fromView : Reread S t.fromPtable.view t'.fromPtable.view
  toView : t'.toPtable.view = t.toPtable.view

/-- The panics of `share_memory` when it clears the memory. -/
def ClearPanics (env : Interference) (request : HfShare) (begin endAddr : Nat) (t : Transfer S H)
    (p : Panic) : Prop :=
  (p = .mapRoot ∨ p = .unmap) ∧ ∃ t₁,
    t.mapSender (env 0) begin endAddr request.modes.1 = .ok (.ok, t₁) ∧
      t₁.clearMemory (fun k => env (k + 1)) begin endAddr = .error p

section Update

variable {env : Interference} {orig : BitVec 64} (henv : env.Ok) (ht : t.Regular strict)
  (hin : InSpace S begin endAddr)
include henv ht hin

/-- The end of a transfer: the recipient's range is mapped, or the sender's range
is mapped back. -/
theorem complete_post (toMode : Mode)
    (hcovered : PageTable.Covered endAddr (restoredAttrs S orig) ⟨false, false⟩ begin
      t.fromPtable) :
    Post (t.complete env begin endAddr (attrsToMode aarch64 orig) toMode) (fun _ => False)
      fun r => r.2.Regular strict ∧
        (r.1 = .ok → r.2.fromPtable.view = t.fromPtable.view ∧ r.2.toPtable.view =
          mappedView begin endAddr (S.modeToAttrs aarch64 toMode) t.toPtable.view) ∧
        (r.1 = .err → r.2.toPtable.view = t.toPtable.view ∧ r.2.fromPtable.view =
          mappedView begin endAddr (restoredAttrs S orig) t.fromPtable.view) := by
  refine Post.bind (mapRecipient_post (henv 0) ht hin _) ?_
  rintro ⟨o₁, t₁⟩ ⟨ht₁, hfrom₁, hres₁⟩
  refine Post.ite (fun h => ?_) fun h => ?_
  · refine Post.bind (defragSender_restore_post (henv 1) ht₁ hin
      (attrsToMode aarch64 orig) (by rwa [hfrom₁])) ?_
    rintro t₂ ⟨ht₂, hto₂, hview₂⟩
    refine ⟨ht₂, nofun, fun _ => ⟨?_, ?_⟩⟩
    · rw [hto₂]
      exact hres₁.view_err ht.toPtable h
    · rw [hview₂, hfrom₁]
      rfl
  · have hok₁ : o₁ = .ok := by cases o₁ <;> simp_all
    refine ⟨ht₁, fun _ => ⟨by rw [hfrom₁], ?_⟩, nofun⟩
    exact hres₁.view_ok ht.toPtable hin (attrsOk_modeToAttrs S _) hok₁

variable (hkind : S.kind = .stage2)
  (horig : ∀ a, begin ≤ a → a < endAddr → t.fromPtable.view a = some orig)
include hkind horig

/-- `share_memory` completes the transfer or undoes it, or panics when it clears the
memory; a restoring update never fails. -/
theorem shareMemoryUpdate_post (request : HfShare) :
    Post (shareMemoryUpdate env request begin endAddr (attrsToMode aarch64 orig) t)
      (t.ClearPanics env request begin endAddr) fun r => r.2.Regular strict ∧
        (r.1 = .ok → Done begin endAddr request.modes.1 request.modes.2 t r.2) ∧
        (r.1 = .err → Undone t r.2) := by
  refine Post.bind ((mapSender_post (henv 0) ht hin _).and_eq.mono (fun _ h => h.1.elim)
    fun _ h => h) ?_
  rintro ⟨o₁, t₁⟩ ⟨⟨ht₁, hto₁, hres₁⟩, hmap₁⟩
  refine Post.ite (fun h => ?_) fun h => ?_
  · refine ⟨ht₁, nofun, fun _ => ⟨?_, by rw [hto₁]⟩⟩
    rw [hres₁.view_err ht.fromPtable h]
    exact .refl S _
  have hok₁ : o₁ = .ok := by cases o₁ <;> simp_all
  have hview₁ := hres₁.view_ok ht.fromPtable hin (attrsOk_modeToAttrs S _) hok₁
  have hcovered := hres₁.covered_again hkind ht.fromPtable hin hok₁ horig
  refine Post.bind ((clearMemory_post (fun k => henv (k + 1)) ht₁ begin endAddr).and_eq.mono
    (fun _ h => ⟨h.1, t₁, hok₁ ▸ hmap₁, h.2⟩) fun _ h => h.1) ?_
  rintro ⟨o₂, t₂⟩ ⟨ht₂, hfrom₂, hto₂⟩
  refine Post.ite (fun h => ?_) fun h => ?_
  · refine Post.bind ((restoreSender_post (henv 3) ht₂ hin (attrsToMode aarch64 orig)
      ?_).mono (fun _ h => h.elim) fun _ h => h) ?_
    · rw [hfrom₂]
      exact identityMapIn_of_covered ht.fromPtable.fits hin _ hcovered _ _
    · rintro t₃ ⟨ht₃, hto₃, hview₃⟩
      refine ⟨ht₃, nofun, fun _ => ⟨?_, by rw [hto₃, hto₂, hto₁]⟩⟩
      rw [hview₃, hfrom₂, hview₁, mappedView_mappedView]
      exact (Reread.refl S _).mapped horig
  refine (complete_post (fun k => henv (k + 3)) ht₂ hin request.modes.2 (by rwa [hfrom₂])).mono
    (fun _ h => h.elim) fun r hr => ⟨hr.1, fun ho => ?_, fun ho => ?_⟩
  · obtain ⟨hfrom, hto⟩ := hr.2.1 ho
    exact ⟨by rw [hfrom, hfrom₂, hview₁], by rw [hto, hto₂, hto₁]⟩
  · obtain ⟨hto, hfrom⟩ := hr.2.2 ho
    refine ⟨?_, by rw [hto, hto₂, hto₁]⟩
    rw [hfrom, hfrom₂, hview₁, mappedView_mappedView]
    exact (Reread.refl S _).mapped horig

/-- `spci_share_memory` completes the transfer or undoes it and does not panic. -/
theorem spciShareMemoryUpdate_post (fromMode toMode : Mode) :
    Post (spciShareMemoryUpdate env begin endAddr (attrsToMode aarch64 orig) fromMode
      toMode t)
      (fun _ => False) fun r => r.2.Regular strict ∧
        ((r.1 = .success ∧ Done begin endAddr fromMode toMode t r.2) ∨
          (r.1 = .noMemory ∧ Undone t r.2)) := by
  refine Post.bind (mapSender_post (henv 0) ht hin _) ?_
  rintro ⟨o₁, t₁⟩ ⟨ht₁, hto₁, hres₁⟩
  refine Post.ite (fun h => ?_) fun h => ?_
  · refine ⟨ht₁, Or.inr ⟨rfl, ?_, by rw [hto₁]⟩⟩
    rw [hres₁.view_err ht.fromPtable h]
    exact .refl S _
  have hok₁ : o₁ = .ok := by cases o₁ <;> simp_all
  have hview₁ := hres₁.view_ok ht.fromPtable hin (attrsOk_modeToAttrs S _) hok₁
  have hcovered := hres₁.covered_again hkind ht.fromPtable hin hok₁ horig
  refine Post.bind (complete_post (fun k => henv (k + 1)) ht₁ hin toMode hcovered) ?_
  rintro ⟨_ | _, t₂⟩ ⟨ht₂, hok, herr⟩
  · obtain ⟨hfrom, hto⟩ := hok rfl
    exact ⟨ht₂, Or.inl ⟨rfl, by rw [hfrom, hview₁], by rw [hto, hto₁]⟩⟩
  · obtain ⟨hto, hfrom⟩ := herr rfl
    refine ⟨ht₂, Or.inr ⟨rfl, ?_, by rw [hto, hto₁]⟩⟩
    rw [hfrom, hview₁, mappedView_mappedView]
    exact (Reread.refl S _).mapped horig

end Update

/-- A transfer that the checks let through has been completed. -/
def Moved (begin endAddr : Nat) (t t' : Transfer S H) : Prop :=
  ∃ orig fromMode toMode, Granted begin endAddr t.fromPtable t.toPtable orig fromMode toMode ∧
    Done begin endAddr fromMode toMode t t'

theorem Undone.refl (t : Transfer S H) : Undone t t := ⟨.refl S _, rfl⟩

section Call

variable {env : Interference} (hkind : S.kind = .stage2) (henv : env.Ok) (ht : t.Regular strict)
include hkind henv ht

theorem shareMemory_post (request : HfShare) (begin : Nat) {endAddr : Nat}
    (hend : endAddr < 2 ^ 64) :
    Post (shareMemory env request begin endAddr t) (t.ClearPanics env request begin endAddr)
      fun r => r.2.Regular strict ∧ (r.1 = .ok → Moved begin endAddr t r.2) ∧
        (r.1 = .err → Undone t r.2) := by
  rw [shareMemory]
  split
  · exact ⟨ht, nofun, fun _ => .refl t⟩
  · rename_i orig hcheck
    have hgranted := granted_of_shareMemoryCheck ht.fromPtable.fits.toValid hend hcheck
    obtain ⟨attrs, rfl, hview⟩ := hgranted.uniform.view hgranted.present
    refine (shareMemoryUpdate_post henv ht hgranted.uniform.inSpace hkind hview request).mono
      (fun _ h => h) fun r hr => ⟨hr.1, fun ho => ?_, hr.2.2⟩
    exact ⟨_, _, _, hgranted, hr.2.1 ho⟩

/-- The first constituent of a message is transferred, or nothing happens. -/
theorem spciShareMemory_post (constituent : SpciMemoryRegionConstituent)
    (memoryToAttributes : Mode) (share : SpciMemoryShare) :
    Post (spciShareMemory env constituent memoryToAttributes share t) (fun _ => False)
      fun r => r.2.Regular strict ∧ (r.1 = .success → ∃ orig fromMode toMode,
          spciMsgCheckTransition t.toPtable t.fromPtable share constituent.range.1
            constituent.range.2 memoryToAttributes = some (orig, fromMode, toMode) ∧
          Done constituent.range.1 constituent.range.2 fromMode toMode t r.2) ∧
        (r.1 ≠ .success → Undone t r.2) := by
  rw [spciShareMemory]
  split
  · exact ⟨ht, nofun, fun _ => .refl t⟩
  · rename_i orig fromMode toMode hcheck
    have hheld := (spciMsgCheckTransition_spec ht.fromPtable.fits.toValid
      (Nat.mod_lt _ (by decide)) hcheck).1
    obtain ⟨attrs, rfl, hview⟩ := hheld.uniform.view hheld.present
    refine (spciShareMemoryUpdate_post henv ht hheld.uniform.inSpace hkind hview fromMode
      toMode).mono (fun _ h => h) fun r hr => ⟨hr.1, fun ho => ?_, fun ho => ?_⟩
    · rcases hr.2 with ⟨-, hdone⟩ | ⟨hmem, -⟩
      · exact ⟨_, _, _, hcheck, hdone⟩
      · exact absurd (ho.symm.trans hmem) (by decide)
    · rcases hr.2 with ⟨hsuccess, -⟩ | ⟨-, hundone⟩
      · exact absurd hsuccess ho
      · exact hundone

end Call

end Transfer

/-! ## Mailbox pages -/

namespace MailboxSetup

variable {S H : Stage} {strict : Bool} {begin endAddr : Nat} {t t' : MailboxSetup S H}

structure Regular (strict : Bool) (t : MailboxSetup S H) : Prop where
  ptable : t.ptable.Regular strict
  hypervisorPtable : t.hypervisorPtable.Regular strict
  pool : t.pool.Wf

theorem Regular.defrag (ht : t.Regular strict) : t.defrag.Regular strict := by
  have hspec := defrag_regular ht.ptable ht.pool
  exact ⟨hspec.1, ht.hypervisorPtable, hspec.2.1⟩

theorem Regular.defragHypervisor (ht : t.Regular strict) : t.defragHypervisor.Regular strict := by
  have hspec := defrag_regular ht.hypervisorPtable ht.pool
  exact ⟨ht.ptable, hspec.1, hspec.2.1⟩

section Step

variable {env : Pool → Pool} (henv : ∀ p, p.Usable → (env p).Usable) (ht : t.Regular strict)
include henv ht

theorem mapHypervisor_post (begin endAddr : Nat) (mode : Mode) :
    Post (t.mapHypervisor env begin endAddr mode) (fun p => p = .mapRoot ∨ p = .unmap)
      fun r => r.2.Regular strict ∧ r.2.ptable = t.ptable := by
  refine Post.bind (R := fun r => r.2.1.Regular strict ∧ r.2.2.Wf)
    (.intro (fun p h => Or.inl (orPanic_eq_error.mp h).2) fun r h =>
      ht.hypervisorPtable.identityMapIn ht.pool henv h) ?_
  rintro ⟨o, hyp, pool⟩ ⟨hhyp, hpool⟩
  exact ⟨⟨ht.ptable, hhyp, hpool⟩, rfl⟩

theorem unmapHypervisor_post (begin endAddr : Nat) :
    Post (t.unmapHypervisor env begin endAddr) (fun p => p = .mapRoot ∨ p = .unmap)
      fun t' => t'.Regular strict ∧ t'.ptable = t.ptable := by
  refine Post.bind (R := fun r => r.2.1.Regular strict ∧ r.2.2.Wf)
    (.intro (fun p h => Or.inl (orPanic_eq_error.mp h).2) fun r h =>
      ht.hypervisorPtable.unmapIn ht.pool henv h) ?_
  rintro ⟨_ | _, hyp, pool⟩ ⟨hhyp, hpool⟩
  · exact ⟨⟨ht.ptable, hhyp, hpool⟩, rfl⟩
  · exact Or.inr rfl

variable (hin : InSpace S begin endAddr)
include hin

theorem map_post (mode : Mode) :
    Post (t.map env begin endAddr mode) (fun _ => False) fun r => r.2.Regular strict ∧
      PageTable.MapResult strict begin endAddr (S.modeToAttrs aarch64 mode) t.ptable
        (r.1, r.2.ptable, r.2.pool) := by
  obtain ⟨r, hmap, hres⟩ := identityMapIn_spec ht.ptable ht.pool henv hin mode
  rw [map, hmap]
  exact ⟨⟨hres.regular, ht.hypervisorPtable, hres.poolWf⟩, hres⟩

/-- If the restoring update succeeds, it maps the page with the mode given. -/
theorem restore_post (mode : Mode) (hok : ∃ pt' pool',
      t.ptable.identityMapIn env begin endAddr mode t.pool = .ok (.ok, pt', pool')) :
    Post (t.restore env begin endAddr mode) (fun _ => False) fun t' => t'.Regular strict ∧
      PageTable.MapResult strict begin endAddr (S.modeToAttrs aarch64 mode) t.ptable
        (.ok, t'.ptable, t'.pool) := by
  obtain ⟨pt', pool', hmap⟩ := hok
  obtain ⟨r, hr, hres⟩ := identityMapIn_spec ht.ptable ht.pool henv hin mode
  rw [hmap] at hr
  cases hr
  rw [restore, map, hmap]
  exact ⟨⟨hres.regular, ht.hypervisorPtable, hres.poolWf⟩, hres⟩

end Step

/-- The hypervisor's side of the configuration leaves the VM's table alone. -/
theorem configureStage1_post {env : Interference} (henv : env.Ok) (ht : t.Regular strict)
    (sendBegin sendEnd recvBegin recvEnd : Nat) :
    Post (t.configureStage1 env sendBegin sendEnd recvBegin recvEnd)
      (fun p => p = .mapRoot ∨ p = .unmap)
      fun r => r.2.Regular strict ∧ r.2.ptable = t.ptable := by
  refine Post.bind (mapHypervisor_post (henv 0) ht _ _ _) ?_
  rintro ⟨o₁, t₁⟩ ⟨ht₁, heq₁⟩
  refine Post.ite (fun _ => ⟨ht₁.defragHypervisor, heq₁⟩) fun _ => ?_
  refine Post.bind (mapHypervisor_post (henv 1) ht₁ _ _ _) ?_
  rintro ⟨o₂, t₂⟩ ⟨ht₂, heq₂⟩
  refine Post.ite (fun _ => ?_) fun _ => ⟨ht₂, heq₂.trans heq₁⟩
  refine Post.bind (unmapHypervisor_post (henv 2) ht₂.defragHypervisor _ _) ?_
  rintro t₃ ⟨ht₃, heq₃⟩
  exact ⟨ht₃, heq₃.trans (heq₂.trans heq₁)⟩

/-- The modes of configured mailbox pages. -/
def sendMode : Mode := Mode.UNOWNED ||| Mode.SHARED ||| Mode.R ||| Mode.W
def recvMode : Mode := Mode.UNOWNED ||| Mode.SHARED ||| Mode.R

/-- Both pages are mapped in the VM's table, which leads to `t'`. -/
def Reaches (env : Interference) (sendBegin sendEnd recvBegin recvEnd : Nat)
    (t t' : MailboxSetup S H) : Prop :=
  ∃ t₁, t.map (env 0) sendBegin sendEnd sendMode = .ok (.ok, t₁) ∧
    t₁.map (env 1) recvBegin recvEnd recvMode = .ok (.ok, t')

/-- The panics on the hypervisor's side of the configuration. -/
def Stage1Panics (env : Interference) (sendBegin sendEnd recvBegin recvEnd : Nat)
    (t : MailboxSetup S H) (p : Panic) : Prop :=
  (p = .mapRoot ∨ p = .unmap) ∧ ∃ t', t.Reaches env sendBegin sendEnd recvBegin recvEnd t' ∧
    t'.configureStage1 (fun k => env (k + 2)) sendBegin sendEnd recvBegin recvEnd = .error p

section Pages

variable {env : Interference} {sendBegin sendEnd recvBegin recvEnd : Nat}
  {origSend origRecv : BitVec 64} (hkind : S.kind = .stage2) (henv : env.Ok)
  (ht : t.Regular strict) (hsend : InSpace S sendBegin sendEnd)
  (hrecv : InSpace S recvBegin recvEnd) (hdisj : sendEnd ≤ recvBegin ∨ recvEnd ≤ sendBegin)
  (horigSend : ∀ a, sendBegin ≤ a → a < sendEnd → t.ptable.view a = some origSend)
  (horigRecv : ∀ a, recvBegin ≤ a → a < recvEnd → t.ptable.view a = some origRecv)
include hkind henv ht hsend hrecv hdisj horigSend horigRecv

/-- The configuration maps both pages, or undoes what it has done to the VM's
table; a restoring update never fails. -/
theorem configurePages_post :
    Post (t.configurePages env sendBegin sendEnd (attrsToMode aarch64 origSend)
        recvBegin recvEnd (attrsToMode aarch64 origRecv))
      (t.Stage1Panics env sendBegin sendEnd recvBegin recvEnd) fun r => r.2.Regular strict ∧
        (r.1 = .ok → r.2.ptable.view = mappedView recvBegin recvEnd (S.modeToAttrs aarch64 recvMode)
            (mappedView sendBegin sendEnd (S.modeToAttrs aarch64 sendMode) t.ptable.view)) ∧
        (r.1 = .err → Reread S t.ptable.view r.2.ptable.view) := by
  have hattrs := attrsOk_modeToAttrs S
  refine Post.bind ((map_post (henv 0) ht hsend sendMode).and_eq.mono (fun _ h => h.1.elim)
    fun _ h => h) ?_
  rintro ⟨o₁, t₁⟩ ⟨⟨ht₁, hres₁⟩, hmap₁⟩
  refine Post.ite (fun h => ?_) fun h => ?_
  · refine ⟨ht₁, nofun, fun _ => ?_⟩
    rw [hres₁.view_err ht.ptable h]
    exact .refl S _
  have hok₁ : o₁ = .ok := by cases o₁ <;> simp_all
  have hview₁ := hres₁.view_ok ht.ptable hsend (hattrs sendMode) hok₁
  have hcovered₁ := hres₁.covered_again hkind ht.ptable hsend hok₁ horigSend
  have horigRecv₁ : ∀ a, recvBegin ≤ a → a < recvEnd → t₁.ptable.view a = some origRecv := by
    intro a hlo hhi
    rw [hview₁, mappedView, if_neg (by omega)]
    exact horigRecv a hlo hhi
  refine Post.bind ((map_post (henv 1) ht₁ hrecv recvMode).and_eq.mono (fun _ h => h.1.elim)
    fun _ h => h) ?_
  rintro ⟨o₂, t₂⟩ ⟨⟨ht₂, hres₂⟩, hmap₂⟩
  have hcovered₂ := hres₂.covered_other ht₁.ptable hrecv hsend hdisj hcovered₁
  refine Post.ite (fun h => ?_) fun h => ?_
  · -- only the send page has to be restored, after a defragmentation
    refine Post.bind ((restore_post (henv 2) ht₂.defrag hsend (attrsToMode aarch64 origSend)
      (identityMapIn_of_defrag ht₂.ptable ht₂.pool (henv 2) hsend _ hcovered₂)).mono
      (fun _ h => h.elim) fun _ h => h) ?_
    rintro t₃ ⟨ht₃, hres₃⟩
    refine ⟨ht₃, nofun, fun _ => ?_⟩
    have hdefrag : t₂.defrag.ptable.view = t₂.ptable.view :=
      (defrag_regular ht₂.ptable ht₂.pool).2.2
    rw [hres₃.view_ok ht₂.defrag.ptable hsend (hattrs _) rfl, hdefrag,
      hres₂.view_err ht₁.ptable h, hview₁, mappedView_mappedView]
    exact (Reread.refl S _).mapped horigSend
  have hok₂ : o₂ = .ok := by cases o₂ <;> simp_all
  have hview₂ := hres₂.view_ok ht₁.ptable hrecv (hattrs recvMode) hok₂
  have hcoveredRecv := hres₂.covered_again hkind ht₁.ptable hrecv hok₂ horigRecv₁
  refine Post.bind ((configureStage1_post (fun k => henv (k + 2)) ht₂ _ _ _ _).and_eq.mono
    (fun _ h => ⟨h.1, t₂, ⟨t₁, hok₁ ▸ hmap₁, hok₂ ▸ hmap₂⟩, h.2⟩) fun _ h => h.1) ?_
  rintro ⟨o₃, t₃⟩ ⟨ht₃, heq₃⟩
  refine Post.ite (fun h => ?_) fun h => ?_
  · refine Post.bind ((restore_post (henv 5) ht₃ hrecv (attrsToMode aarch64 origRecv)
      (identityMapIn_of_covered ht.ptable.fits hrecv _ (by rwa [heq₃]) _ _)).mono
      (fun _ h => h.elim) fun _ h => h) ?_
    rintro t₄ ⟨ht₄, hres₄⟩
    have hcovered₄ := hres₄.covered_other ht₃.ptable hrecv hsend hdisj (by rwa [heq₃])
    refine Post.bind ((restore_post (henv 6) ht₄ hsend (attrsToMode aarch64 origSend)
      (identityMapIn_of_covered ht.ptable.fits hsend _ hcovered₄ _ _)).mono
      (fun _ h => h.elim) fun _ h => h) ?_
    rintro t₅ ⟨ht₅, hres₅⟩
    refine ⟨ht₅, nofun, fun _ => ?_⟩
    rw [hres₅.view_ok ht₄.ptable hsend (hattrs _) rfl,
      hres₄.view_ok ht₃.ptable hrecv (hattrs _) rfl, heq₃, hview₂, hview₁,
      mappedView_mappedView, mappedView_comm hdisj, mappedView_mappedView]
    exact ((Reread.refl S _).mapped horigSend).mapped horigRecv
  · refine ⟨ht₃, fun _ => ?_, nofun⟩
    rw [heq₃, hview₂, hview₁]

end Pages

/-- Two exclusive pages of the VM have become its mailbox. -/
structure Configured (send recv : Nat) (t t' : MailboxSetup S H) : Prop where
  disjoint : pageEnd send ≤ recv ∨ pageEnd recv ≤ send
  sendPage : ∃ mode, Held send (pageEnd send) t.ptable mode ∧
    PageState.ofMode mode = .exclusiveOwner
  recvPage : ∃ mode, Held recv (pageEnd recv) t.ptable mode ∧
    PageState.ofMode mode = .exclusiveOwner
  view : t'.ptable.view = mappedView recv (pageEnd recv) (S.modeToAttrs aarch64 recvMode)
    (mappedView send (pageEnd send) (S.modeToAttrs aarch64 sendMode) t.ptable.view)

theorem configure_post {env : Interference} (hkind : S.kind = .stage2) (henv : env.Ok)
    (ht : t.Regular strict) (send recv : Nat) :
    Post (t.configure env send recv)
      (t.Stage1Panics env send (pageEnd send) recv (pageEnd recv))
      fun r => r.2.Regular strict ∧ (r.1 = .ok → Configured send recv t r.2) ∧
        (r.1 = .err → Reread S t.ptable.view r.2.ptable.view) := by
  rw [configure]
  split
  · exact ⟨ht, nofun, fun _ => .refl S _⟩
  · rename_i origSend origRecv hcheck
    obtain ⟨hdisj, ⟨hsend, howner⟩, hrecv, howner'⟩ :=
      configureCheck_spec ht.ptable.fits.toValid hcheck
    obtain ⟨attrs, rfl, hview⟩ := hsend.uniform.view hsend.present
    obtain ⟨attrs', rfl, hview'⟩ := hrecv.uniform.view hrecv.present
    refine (configurePages_post hkind henv ht hsend.uniform.inSpace hrecv.uniform.inSpace hdisj
      hview hview').mono (fun _ h => h) fun r hr => ⟨hr.1, fun ho => ?_, hr.2.2⟩
    exact ⟨hdisj, ⟨_, hsend, howner⟩, ⟨_, hrecv, howner'⟩, hr.2.1 ho⟩

end MailboxSetup

/-! ## Exactness -/

/-- All present leaves carry attributes that a mode was turned into. -/
def PageTable.Encoded {S : Stage} (pt : PageTable S) : Prop :=
  ∀ a attrs, pt.view a = some attrs → ∃ mode, attrs = S.modeToAttrs aarch64 mode

section Exact

variable {S H : Stage} {strict : Bool}

/-- Mapping with the mode read back changes nothing if the attributes encode
modes. -/
theorem Reread.eq (hkind : S.kind = .stage2) {pt : PageTable S} (hpt : pt.Encoded)
    {v : Nat → Option (BitVec 64)} (h : Reread S pt.view v) : v = pt.view := by
  funext a
  rcases h a with h | ⟨orig, horig, h⟩
  · exact h
  · obtain ⟨mode, rfl⟩ := hpt a orig horig
    obtain ⟨x, -, hx⟩ := bind_eq_some_iff.mp horig
    rw [h, restoredAttrs_eq hkind, horig]
    exact attrsView_of_view hx

/-- The functions that transfer memory or configure a mailbox never fail to
restore a table, and if they return an error, all tables mean what they meant
before, whatever other CPUs do to the page pool meanwhile.  They panic at most on
the hypervisor's own table, never where they restore one. -/
theorem rollback_exact (hkind : S.kind = .stage2) {env : Interference} (henv : env.Ok) :
    (∀ (t : Transfer S H) (request : HfShare) (begin endAddr : Nat), endAddr < 2 ^ 64 →
      t.Regular strict → t.fromPtable.Encoded →
      shareMemory env request begin endAddr t ≠ .error .restore ∧
      (∀ p, shareMemory env request begin endAddr t = .error p → ∃ t₁,
        t.mapSender (env 0) begin endAddr request.modes.1 = .ok (.ok, t₁) ∧
          t₁.clearMemory (fun k => env (k + 1)) begin endAddr = .error p) ∧
      ∀ t', shareMemory env request begin endAddr t = .ok (.err, t') →
        t'.fromPtable.view = t.fromPtable.view ∧ t'.toPtable.view = t.toPtable.view) ∧
    (∀ (t : Transfer S H) (constituent : SpciMemoryRegionConstituent) (memoryToAttributes : Mode)
      (share : SpciMemoryShare), t.Regular strict → t.fromPtable.Encoded →
      (∀ p, spciShareMemory env constituent memoryToAttributes share t ≠ .error p) ∧
      ∀ r t', spciShareMemory env constituent memoryToAttributes share t = .ok (r, t') →
        r ≠ .success →
        t'.fromPtable.view = t.fromPtable.view ∧ t'.toPtable.view = t.toPtable.view) ∧
    (∀ (t : MailboxSetup S H) (send recv : Nat), t.Regular strict → t.ptable.Encoded →
      t.configure env send recv ≠ .error .restore ∧
      (∀ p, t.configure env send recv = .error p → ∃ t',
        t.Reaches env send (pageEnd send) recv (pageEnd recv) t' ∧
          t'.configureStage1 (fun k => env (k + 2)) send (pageEnd send) recv (pageEnd recv) =
            .error p) ∧
      ∀ t', t.configure env send recv = .ok (.err, t') → t'.ptable.view = t.ptable.view) := by
  refine ⟨fun t request begin endAddr hend ht hencoded => ?_,
    fun t constituent memoryToAttributes share ht hencoded => ?_,
    fun t send recv ht hencoded => ?_⟩
  · have hpost := Transfer.shareMemory_post hkind henv ht request begin hend
    refine ⟨fun h => ?_, fun p h => (hpost.of_error h).2, fun t' h => ?_⟩
    · exact absurd (hpost.of_error h).1 (by decide)
    · have hundone := (hpost.of_ok h).2.2 rfl
      exact ⟨hundone.fromView.eq hkind hencoded, hundone.toView⟩
  · have hpost := Transfer.spciShareMemory_post hkind henv ht constituent memoryToAttributes share
    refine ⟨fun p h => hpost.of_error h, fun r t' h hr => ?_⟩
    have hundone := (hpost.of_ok h).2.2 hr
    exact ⟨hundone.fromView.eq hkind hencoded, hundone.toView⟩
  · have hpost := MailboxSetup.configure_post hkind henv ht send recv
    refine ⟨fun h => ?_, fun p h => (hpost.of_error h).2, fun t' h => ?_⟩
    · exact absurd (hpost.of_error h).1 (by decide)
    · exact ((hpost.of_ok h).2.2 rfl).eq hkind hencoded

end Exact

namespace PageTable

variable {S : Stage}

/-- A table that maps one block. -/
def sparseTable (S : Stage) (root : Nat) (t : Fin S.rootTableCount) (k : Fin 512) (mode : Mode) :
    PageTable S where
  root
  tables t' i :=
    if t' = t ∧ i = k then
      .block aarch64 S.maxLevel (slotBase (S.rootBase t) (entrySize S.maxLevel) k)
        (S.modeToAttrs aarch64 mode)
    else .absent aarch64 S.maxLevel

theorem sparseTable_cases (root : Nat) (t t' : Fin S.rootTableCount) (k i : Fin 512) (mode : Mode) :
    ((t' = t ∧ i = k) ∧ (sparseTable S root t k mode).tables t' i =
        .block aarch64 S.maxLevel (slotBase (S.rootBase t) (entrySize S.maxLevel) k)
          (S.modeToAttrs aarch64 mode)) ∨
      (sparseTable S root t k mode).tables t' i = .absent aarch64 S.maxLevel := by
  by_cases h : t' = t ∧ i = k
  · exact Or.inl ⟨h, if_pos h⟩
  · exact Or.inr (if_neg h)

theorem isPa_slot (hS : S.Fits) (t : Fin S.rootTableCount) (k : Fin 512) :
    IsPa (slotBase (S.rootBase t) (entrySize S.maxLevel) k) := by
  have haligned := slotBase_aligned (InSpace.rootBase_aligned S t) k
  have hend := slotBase_add_le (S.rootBase t) S.maxLevel k
  have hspace : S.rootBase t + entrySize S.rootLevel ≤ S.ptableAddrSpaceEnd := by
    rw [rootBase, slotBase, Nat.zero_add, ← Nat.succ_mul]
    exact Nat.mul_le_mul_right _ t.isLt
  have hpos := entrySize_pos S.maxLevel
  have hfield := hS.ptableAddrSpaceEnd_le_field
  refine ⟨?_, ?_⟩
  · exact Nat.mod_eq_zero_of_dvd ((pageSize_dvd_entrySize _).trans
      (Nat.dvd_of_mod_eq_zero haligned))
  · rw [rootLevel] at hspace
    omega

theorem regular_sparseTable (strict : Bool) (hS : S.Fits)
    (hallowed : archMmIsBlockAllowed S.maxLevel = true) (root : Nat) (t : Fin S.rootTableCount)
    (k : Fin 512) (mode : Mode) : (sparseTable S root t k mode).Regular strict := by
  refine ⟨hS, fun t' i => ?_, fun t' i => ?_⟩
  · rcases sparseTable_cases root t t' k i mode with ⟨⟨rfl, rfl⟩, h⟩ | h
    · rw [h]
      exact wf_block (isPa_slot hS t' i) (attrsOk_modeToAttrs S mode) hallowed
    · rw [h]
      exact wf_absent
  · rcases sparseTable_cases root t t' k i mode with ⟨-, h⟩ | h
    · rw [h]
      exact plain_leaf _
    · rw [h]
      exact plain_leaf _

theorem view_sparseTable (hS : S.Fits) (root : Nat) (t : Fin S.rootTableCount) (k : Fin 512)
    (mode : Mode) (a : Nat) :
    (sparseTable S root t k mode).view a = attrsView (S.modeToAttrs aarch64 mode) ∨
      (sparseTable S root t k mode).view a = none := by
  refine view_ind (P := fun v => v = attrsView (S.modeToAttrs aarch64 mode) ∨ v = none) _ _
    (Or.inr rfl) fun t' i => ?_
  rcases sparseTable_cases root t t' k i mode with ⟨-, h⟩ | h
  · rw [h, block, lookup_leaf]
    exact Or.inl (attrsView_of_attrs (archMmPteAttrs_blockPte (isPa_slot hS t k)
      (attrsOk_modeToAttrs S mode) _ _))
  · rw [h]
    exact Or.inr (view_absent a)

theorem encoded_sparseTable (hS : S.Fits) (root : Nat) (t : Fin S.rootTableCount) (k : Fin 512)
    (mode : Mode) : (sparseTable S root t k mode).Encoded := by
  intro a attrs h
  rcases view_sparseTable hS root t k mode a with hview | hview
  · rw [h, attrsView] at hview
    split at hview
    · exact ⟨mode, some.inj hview⟩
    · contradiction
  · rw [h] at hview
    contradiction

/-- Memory that one of three VMs has, and no other. -/
theorem owned_sparseTable (hS : S.Fits) (hkind : S.kind = .stage2) {root a : Nat}
    {t : Fin S.rootTableCount} {k : Fin 512} {ptable : Fin 3 → PageTable S} {i : Fin 3}
    (hi : ptable i = sparseTable S root t k (Mode.R ||| Mode.W ||| Mode.X))
    (hrest : ∀ j, j ≠ i → (ptable j).view a = none) :
    Owned fun j => PageState.ofView ((ptable j).view a) := by
  have hrest' : ∀ j, j ≠ i → PageState.ofView ((ptable j).view a) = .none := by
    intro j hj
    rw [hrest j hj]
    rfl
  rcases view_sparseTable hS root t k (Mode.R ||| Mode.W ||| Mode.X) a with h | h
  · refine .exclusive i ?_ hrest'
    rw [hi, h, modeToAttrs, hkind]
    decide
  · refine .nobody fun j => ?_
    by_cases hj : j = i
    · rw [hj, hi, h]
      rfl
    · exact hrest' j hj

def blockTable (root : Nat) (k : Fin 512) (mode : Mode) : PageTable exampleStage :=
  sparseTable exampleStage root ⟨0, Nat.one_pos⟩ k mode

end PageTable

open PageTable in
/-- A VM that has a block, and a pool that holds a single page. -/
def scarceTransfer : Transfer exampleStage exampleStage where
  fromPtable := blockTable 0x20000 0 (Mode.R ||| Mode.W ||| Mode.X)
  toPtable := emptyTable
  hypervisorPtable := emptyTable
  mem _ := 0
  pool := .newWithFallback (.ofPool ⟨[], [0x1000]⟩)

open PageTable in
theorem regular_scarceTransfer : scarceTransfer.Regular true :=
  ⟨regular_sparseTable true fits_exampleStage rfl _ _ _ _, regular_emptyTable true,
    regular_emptyTable true, by decide⟩

/-- The page is used up by splitting the block, so that the memory cannot be
cleared; the block is mapped back without any page. -/
theorem rollback_exact_scarce :
    ∃ t', shareMemory (fun _ p => p) .give 0 0x1000 scarceTransfer = .ok (.err, t') ∧
      t'.fromPtable.view = scarceTransfer.fromPtable.view ∧
      t'.toPtable.view = scarceTransfer.toPtable.view := by
  have herr : (shareMemory (fun _ p => p) .give 0 0x1000 scarceTransfer).map Prod.fst =
      .ok .err := by
    decide +kernel
  obtain ⟨⟨_, t'⟩, ht', rfl⟩ := map_eq_ok.mp herr
  exact ⟨t', ht', ((rollback_exact rfl fun _ _ h => h).1 scarceTransfer .give 0 0x1000 (by decide)
    regular_scarceTransfer (PageTable.encoded_sparseTable PageTable.fits_exampleStage _ _ _
      _)).2.2 t' ht'⟩

end Hafnium
