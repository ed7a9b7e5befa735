import Hafnium.Isolation
import Hafnium.Mm.OutOfRange

/-!
# Updates of the hypervisor's table

Clearing memory maps it in the hypervisor's table and unmaps it again, and configuring
a mailbox maps two pages, which are unmapped if a later step fails.  What is unmapped is
not restored to what it was before.
-/

namespace Hafnium

open Support Aarch64 PageTable

/-- A view without the pages of a region. -/
def unmappedView (begin endAddr : Nat) (view : Nat → Option (BitVec 64)) :
    Nat → Option (BitVec 64) := fun a =>
  if begin ≤ a ∧ a < endAddr then none else view a

/-- Removing the pages of a region from a view keeps it exactly if there were
none. -/
theorem unmappedView_eq_iff {begin endAddr : Nat} {v : Nat → Option (BitVec 64)} :
    unmappedView begin endAddr v = v ↔ ∀ a, begin ≤ a → a < endAddr → v a = none := by
  constructor
  · intro h a hlo hhi
    rw [← h, unmappedView, if_pos ⟨hlo, hhi⟩]
  · intro h
    funext a
    rw [unmappedView]
    split
    · rename_i ha
      exact (h a ha.1 ha.2).symm
    · rfl

theorem unmappedView_mappedView (begin endAddr : Nat) (attrs : BitVec 64)
    (v : Nat → Option (BitVec 64)) :
    unmappedView begin endAddr (mappedView begin endAddr attrs v) =
      unmappedView begin endAddr v := by
  funext a
  simp only [unmappedView, mappedView]
  split <;> rfl

/-! ## Updates of any range -/

namespace PageTable

variable {S : Stage} {strict : Bool} {begin endAddr : Nat} {attrs : BitVec 64}
  {pt pt' : PageTable S} {pool pool' : MPool} {env : Pool → Pool} {o : Outcome}

/-- The pages of a region can be unmapped without any table. -/
def Loose (begin endAddr : Nat) (pt : PageTable S) : Prop :=
  index begin S.rootLevel ≤ S.rootTableCount ∧ ∀ attrs, Covered endAddr attrs ⟨false, true⟩ begin pt

/-- What mapping a range does: `begin` and `endAddr` are the bounds of the part
that the table can express. -/
structure MapEffect (begin endAddr : Nat) (attrs : BitVec 64) (pt : PageTable S) (o : Outcome)
    (pt' : PageTable S) : Prop where
  err : o = .err → pt.Splits pt'
  ok : o = .ok → pt'.view = mappedView begin endAddr attrs pt.view
  loose : o = .ok → (∀ a, begin ≤ a → a < endAddr → pt.view a = none) → pt'.Loose begin endAddr

theorem mappedView_of_le {v : Nat → Option (BitVec 64)} (h : endAddr ≤ begin) :
    mappedView begin endAddr attrs v = v := by
  funext a
  rw [mappedView, if_neg (by omega)]

theorem unmappedView_of_le {v : Nat → Option (BitVec 64)} (h : endAddr ≤ begin) :
    unmappedView begin endAddr v = v :=
  unmappedView_eq_iff.mpr fun a _ _ => by omega

theorem updateEnd_le (hS : S.Fits) (endAddr : Nat) : S.updateEnd endAddr ≤ 2 ^ 48 :=
  (Nat.min_le_right _ _).trans hS.ptableAddrSpaceEnd_le_field

section Any

variable (hpt : pt.Regular strict) (hpool : pool.Wf) (henv : ∀ p, p.Usable → (env p).Usable)
include hpt hpool henv

theorem mapEffect_of_identityMapIn {mode : Mode}
    (h : pt.identityMapIn env begin endAddr mode pool = .ok (o, pt', pool')) :
    MapEffect (archMmClearPa begin) (S.updateEnd endAddr) (S.modeToAttrs aarch64 mode) pt o
      pt' := by
  have hmap := orPanic_eq_ok.mp h
  have hidx := index_le_of_identityUpdate hmap
  have hattrs := attrsOk_modeToAttrs S mode
  have hS := hpt.fits.toValid
  rcases identityUpdate_cases hS (MPool.wf_interfere hpool henv) hmap with
    ⟨hin, hspec⟩ | ⟨hle, rfl, rfl, -⟩
  · refine ⟨fun ho => (hspec.err ho).1, fun ho => ?_, fun ho hnone => ⟨hidx, fun attrs => ?_⟩⟩
    · funext a
      rw [mappedView]
      split
      · rename_i ha
        obtain ⟨x, hx, htarget⟩ := hspec.target hS hin ho hpt.wf
          (fun _ => updateEnd_le hpt.fits _) hattrs ha.1 ha.2
        dsimp only at hx
        rw [view, hx, Option.bind_some]
        exact attrsView_of_attrs htarget.1
      · rename_i ha
        exact hspec.frame hS hin ho hpt.wf (fun _ => updateEnd_le hpt.fits _) hattrs ha
    · obtain ⟨⟨mid, hsplits, -, hupd⟩, -⟩ := hspec.ok ho
      exact hupd.covered_unmap hS hin (hsplits.wf hpt.wf) fun a hlo hhi =>
        (hsplits.view hpt.wf a).trans (hnone a hlo hhi)
  · refine ⟨by simp, fun _ => (mappedView_of_le hle).symm, fun _ _ =>
      ⟨hidx, fun attrs t b hb => ?_⟩⟩
    rw [visits_eq_nil hle] at hb
    exact absurd hb List.not_mem_nil

theorem view_of_unmapIn (h : pt.unmapIn env begin endAddr pool = .ok (.ok, pt', pool')) :
    pt'.view = unmappedView (archMmClearPa begin) (S.updateEnd endAddr) pt.view := by
  have hS := hpt.fits.toValid
  rcases identityUpdate_cases hS (MPool.wf_interfere hpool henv) (orPanic_eq_ok.mp h) with
    ⟨hin, hspec⟩ | ⟨hle, -, rfl, -⟩
  · have hattrs := attrsOk_modeToAttrs S (Mode.UNOWNED ||| Mode.INVALID ||| Mode.SHARED)
    funext a
    rw [unmappedView]
    split
    · rename_i ha
      obtain ⟨x, hx, htarget⟩ := hspec.target hS hin rfl hpt.wf (by simp) hattrs ha.1 ha.2
      dsimp only at hx
      rw [view, hx, Option.bind_some]
      exact Leaf.view_eq_none.mpr htarget
    · rename_i ha
      exact hspec.frame hS hin rfl hpt.wf (by simp) hattrs ha
  · exact (unmappedView_of_le hle).symm

/-- Unmapping a range does not panic if mapping it does not. -/
theorem unmapIn_total
    (hidx : index (archMmClearPa begin) S.rootLevel ≤ S.rootTableCount) (endAddr : Nat) :
    ∃ r, pt.unmapIn env begin endAddr pool = .ok r := by
  by_cases hlt : archMmClearPa begin < S.updateEnd endAddr
  · obtain ⟨r, h, -⟩ := identityUpdate_spec hpt.fits.toValid
      (inSpace_update hpt.fits.toValid hlt)
      (S.modeToAttrs aarch64 (Mode.UNOWNED ||| Mode.INVALID ||| Mode.SHARED)) true pt
      (MPool.wf_interfere hpool henv)
    exact ⟨r, by rw [unmapIn, unmap, h, orPanic]⟩
  · refine ⟨(.ok, pt, pool.interfere env), ?_⟩
    rw [unmapIn, unmap, identityUpdate_of_le (Nat.not_lt.mp hlt) hidx, orPanic]

/-- Unmapping a region that has been mapped brings the table back to what it was
exactly if no page of the region was mapped before. -/
theorem unmapIn_kept_iff {α : Type} {v : Nat → Option (BitVec 64)}
    {f : PageTable S × MPool → Except Panic α} {Q : α → Prop}
    (hidx : index (archMmClearPa begin) S.rootLevel ≤ S.rootTableCount)
    (hview : pt.view = mappedView (archMmClearPa begin) (S.updateEnd endAddr) attrs v)
    (hok : (∀ a, archMmClearPa begin ≤ a → a < S.updateEnd endAddr → v a = none) →
      ∃ pt' pool', pt.unmapIn env begin endAddr pool = .ok (.ok, pt', pool'))
    (hf : ∀ r, Post (f r) (· ≠ .unmap) Q ↔ r.1.view = v) :
    Post (do f (← unwrap .unmap (← pt.unmapIn env begin endAddr pool))) (· ≠ .unmap) Q ↔
      ∀ a, archMmClearPa begin ≤ a → a < S.updateEnd endAddr → v a = none := by
  obtain ⟨⟨_ | _, pt', pool'⟩, hunmap⟩ := unmapIn_total hpt hpool henv hidx endAddr
  · have hview' := view_of_unmapIn hpt hpool henv hunmap
    rw [hview, unmappedView_mappedView] at hview'
    rw [hunmap, ← unmappedView_eq_iff, ← hview']
    exact hf (pt', pool')
  · rw [hunmap]
    refine iff_of_false (fun h => h rfl) fun h => ?_
    obtain ⟨pt'', pool'', hok⟩ := hok h
    exact absurd (hunmap.symm.trans hok) (by simp)

/-- A region that needs no table can be unmapped even after a defragmentation. -/
theorem Loose.unmapIn_defrag (hloose : pt.Loose (archMmClearPa begin) (S.updateEnd endAddr)) :
    ∃ pt' pool', (pt.defrag aarch64 pool).1.unmapIn env begin endAddr (pt.defrag aarch64 pool).2 =
      .ok (.ok, pt', pool') := by
  by_cases hlt : archMmClearPa begin < S.updateEnd endAddr
  · obtain ⟨pt', pool', h⟩ := identityUpdate_of_defrag hpt hpool henv
      (inSpace_update hpt.fits.toValid hlt) (hloose.2 _)
    exact ⟨pt', pool', by rw [unmapIn, unmap, h, orPanic]⟩
  · refine ⟨(pt.defrag aarch64 pool).1, (pt.defrag aarch64 pool).2.interfere env, ?_⟩
    rw [unmapIn, unmap, identityUpdate_of_le (Nat.not_lt.mp hlt) hloose.1, orPanic]

end Any

/-- A region that needs no table can be unmapped with any pool. -/
theorem Loose.unmapIn (hS : S.Fits) (hloose : pt.Loose (archMmClearPa begin) (S.updateEnd endAddr))
    (env : Pool → Pool) (pool : MPool) :
    ∃ pt' pool', pt.unmapIn env begin endAddr pool = .ok (.ok, pt', pool') := by
  by_cases hlt : archMmClearPa begin < S.updateEnd endAddr
  · obtain ⟨pt', pool', h⟩ := identityUpdate_of_covered hS.toValid (inSpace_update hS.toValid hlt)
      (hloose.2 _) (pool.interfere env)
    exact ⟨pt', pool', by rw [PageTable.unmapIn, unmap, h, orPanic]⟩
  · refine ⟨pt, pool.interfere env, ?_⟩
    rw [PageTable.unmapIn, unmap, identityUpdate_of_le (Nat.not_lt.mp hlt) hloose.1, orPanic]

theorem Loose.of_splits (hs : pt.Splits pt') (hpt : pt.Wf strict) (h : pt.Loose begin endAddr) :
    pt'.Loose begin endAddr :=
  ⟨h.1, fun attrs => (h.2 attrs).of_splits hs hpt⟩

/-- Addresses beyond the address space are not mapped. -/
theorem view_of_ge (pt : PageTable S) {a : Nat} (ha : S.ptableAddrSpaceEnd ≤ a) :
    pt.view a = none := by
  refine view_eq_none pt fun h => ?_
  rw [Nat.div_lt_iff_lt_mul (entrySize_pos _)] at h
  exact Nat.not_lt.mpr ha h

/-- The part of a range of VM memory that a table of another stage can express. -/
theorem region_other {H : Stage} (hS : S.Fits) (hin : InSpace S begin endAddr) :
    archMmClearPa begin = begin ∧ H.updateEnd endAddr = min endAddr H.ptableAddrSpaceEnd := by
  have hle := hS.ptableAddrSpaceEnd_le_field
  have h1 := hin.lt
  have h2 := hin.le
  have h3 := hin.beginPage
  have h4 := hin.endPage
  have hround : roundUpToPage endAddr = endAddr := by
    rw [roundUpToPage, roundDownToPage, pageSize_eq]
    omega
  rw [archMmClearPa_eq, Stage.updateEnd, hround]
  omega

theorem unmapped_region_iff {H : Stage} (hS : S.Fits) (hin : InSpace S begin endAddr)
    (pt : PageTable H) :
    (∀ a, archMmClearPa begin ≤ a → a < H.updateEnd endAddr → pt.view a = none) ↔
      ∀ a, begin ≤ a → a < endAddr → pt.view a = none := by
  obtain ⟨hbegin, hend⟩ := region_other (H := H) hS hin
  rw [hbegin, hend]
  constructor
  · intro h a hlo hhi
    by_cases ha : a < H.ptableAddrSpaceEnd
    · exact h a hlo (lt_min hhi ha)
    · exact view_of_ge pt (Nat.not_lt.mp ha)
  · intro h a hlo hhi
    exact h a hlo (lt_min_iff.mp hhi).1

end PageTable

/-! ## Clearing memory -/

namespace Transfer

variable {S H : Stage} {strict : Bool} {begin endAddr : Nat} {t t' : Transfer S H}

/-- The memory can be cleared, and `hyp` is the hypervisor's table meanwhile. -/
def ClearsIn (env : Interference) (begin endAddr : Nat) (t : Transfer S H) (hyp : PageTable H) :
    Prop :=
  ∃ pool, t.hypervisorPtable.identityMapIn (env 0) begin endAddr Mode.W t.pool =
    .ok (.ok, hyp, pool)

section Clear

variable {env : Interference} (henv : env.Ok) (ht : t.Regular strict)
include henv ht

/-- The pages that are cleared are not mapped afterwards. -/
theorem clearMemory_view (begin endAddr : Nat) :
    Post (t.clearMemory env begin endAddr) (fun _ => True) fun r =>
      (r.1 = .err → r.2.hypervisorPtable.view = t.hypervisorPtable.view) ∧
      (r.1 = .ok → r.2.hypervisorPtable.view =
        unmappedView (archMmClearPa begin) (H.updateEnd endAddr) t.hypervisorPtable.view) := by
  refine Post.bind (.intro (fun _ _ => trivial) fun r h => And.intro
    (ht.hypervisorPtable.identityMapIn ht.pool (henv 0) h)
    (mapEffect_of_identityMapIn ht.hypervisorPtable ht.pool (henv 0) h)) ?_
  rintro ⟨_ | _, hyp, pool⟩ ⟨⟨hhyp, hpool⟩, heffect⟩
  · refine Post.bind (R := fun r => r.1 = .ok → r.2.1.view =
      unmappedView (archMmClearPa begin) (H.updateEnd endAddr) hyp.view)
      (.intro (fun _ _ => trivial) ?_) ?_
    · rintro ⟨o, hyp', pool'⟩ h rfl
      exact view_of_unmapIn hhyp hpool (henv 1) h
    · rintro ⟨_ | _, hyp', pool'⟩ hview
      · refine ⟨nofun, fun _ => ?_⟩
        rw [← unmappedView_mappedView, ← heffect.ok rfl]
        exact hview rfl
      · trivial
  · refine ⟨fun _ => ?_, nofun⟩
    exact (defrag_regular hhyp hpool).2.2.trans
      (funext ((heffect.err rfl).view ht.hypervisorPtable.wf))

/-- Clearing memory keeps the hypervisor's table and does not panic in the unmap
exactly if it finds none of the pages mapped. -/
theorem clearMemory_kept_iff (begin endAddr : Nat) :
    Post (t.clearMemory env begin endAddr) (· ≠ .unmap)
        (fun r => r.2.hypervisorPtable.view = t.hypervisorPtable.view) ↔
      ∀ hyp, t.ClearsIn env begin endAddr hyp → ∀ a, archMmClearPa begin ≤ a →
        a < H.updateEnd endAddr → t.hypervisorPtable.view a = none := by
  rw [clearMemory, Post.bind_iff]
  cases hmap : t.hypervisorPtable.identityMapIn (env 0) begin endAddr Mode.W t.pool with
  | error p =>
    rw [(orPanic_eq_error.mp hmap).2]
    refine iff_of_true (fun h => absurd h nofun) ?_
    rintro hyp ⟨pool, h⟩
    cases hmap.symm.trans h
  | ok r =>
    obtain ⟨hhyp, hpool⟩ := ht.hypervisorPtable.identityMapIn ht.pool (henv 0) hmap
    have heffect := mapEffect_of_identityMapIn ht.hypervisorPtable ht.pool (henv 0) hmap
    have hidx := index_le_of_identityUpdate (orPanic_eq_ok.mp hmap)
    obtain ⟨_ | _, hyp, pool⟩ := r
    · refine (unmapIn_kept_iff hhyp hpool (henv 1) hidx (heffect.ok rfl)
        (fun h => (heffect.loose rfl h).unmapIn ht.hypervisorPtable.fits _ _)
        fun _ => Iff.rfl).trans ?_
      exact ⟨fun h _ _ => h, fun h => h hyp ⟨pool, hmap⟩⟩
    · refine iff_of_true ?_ ?_
      · exact (defrag_regular hhyp hpool).2.2.trans
          (funext ((heffect.err rfl).view ht.hypervisorPtable.wf))
      · rintro hyp' ⟨pool', h⟩
        exact absurd (hmap.symm.trans h) (by simp)

end Clear

section Frame

variable (env : Pool → Pool) (begin endAddr : Nat) (mode : Mode) (t : Transfer S H)

theorem mapSender_hypervisorPtable : Post (t.mapSender env begin endAddr mode) (fun _ => True)
    fun r => r.2.hypervisorPtable = t.hypervisorPtable :=
  Post.bind_ok fun _ _ => rfl

theorem mapRecipient_hypervisorPtable : Post (t.mapRecipient env begin endAddr mode)
    (fun _ => True) fun r => r.2.hypervisorPtable = t.hypervisorPtable :=
  Post.bind_ok fun _ _ => rfl

theorem restoreSender_hypervisorPtable : Post (t.restoreSender env begin endAddr mode)
    (fun _ => True) fun t' => t'.hypervisorPtable = t.hypervisorPtable := by
  refine Post.bind (mapSender_hypervisorPtable env begin endAddr mode t) ?_
  rintro ⟨_ | _, t₁⟩ h
  · exact h
  · trivial

theorem complete_hypervisorPtable (env : Interference) (origFromMode toMode : Mode) :
    Post (t.complete env begin endAddr origFromMode toMode) (fun _ => True)
      fun r => r.2.hypervisorPtable = t.hypervisorPtable := by
  refine Post.bind (mapRecipient_hypervisorPtable (env 0) begin endAddr toMode t) ?_
  rintro ⟨o, t₁⟩ h₁
  refine Post.ite (fun _ => ?_) fun _ => h₁
  exact Post.bind (restoreSender_hypervisorPtable (env 1) begin endAddr origFromMode
    t₁.defragSender)
    fun t₂ h₂ => h₂.trans h₁

/-- Messages do not touch the hypervisor's table. -/
theorem spciShareMemory_hypervisorPtable (env : Interference)
    (constituent : SpciMemoryRegionConstituent) (memoryToAttributes : Mode)
    (share : SpciMemoryShare) :
    Post (spciShareMemory env constituent memoryToAttributes share t) (fun _ => True)
      fun r => r.2.hypervisorPtable = t.hypervisorPtable := by
  rw [spciShareMemory]
  split
  · rfl
  · refine Post.bind (mapSender_hypervisorPtable (env 0) _ _ _ t) ?_
    rintro ⟨o, t₁⟩ h₁
    refine Post.ite (fun _ => h₁) fun _ => ?_
    exact Post.bind (complete_hypervisorPtable _ _ t₁ _ _ _) fun r h₂ => h₂.trans h₁

end Frame

/-- `share_memory` gets as far as clearing the memory, and `hyp` is the hypervisor's
table meanwhile. -/
def Clears (env : Interference) (request : HfShare) (begin endAddr : Nat) (t : Transfer S H)
    (hyp : PageTable H) : Prop :=
  ∃ orig t₁, shareMemoryCheck request begin endAddr t.fromPtable t.toPtable = some orig ∧
    t.mapSender (env 0) begin endAddr request.modes.1 = .ok (.ok, t₁) ∧
    t₁.ClearsIn (fun k => env (k + 1)) begin endAddr hyp

section Share

variable {env : Interference} (hkind : S.kind = .stage2) (henv : env.Ok) (ht : t.Regular strict)
include hkind henv ht

omit hkind in
/-- What `share_memory` does after clearing the memory does not fail and does not
touch the hypervisor's table. -/
theorem finish_hypervisorPtable (hin : InSpace S begin endAddr) {orig : BitVec 64}
    (hcovered : PageTable.Covered endAddr (restoredAttrs S orig) ⟨false, false⟩ begin t.fromPtable)
    (o : Outcome) (toMode : Mode) :
    Post (if o = .err then do
        return (.err, ← t.restoreSender (env 3) begin endAddr (Stage.attrsToMode aarch64 orig))
      else t.complete (fun k => env (k + 3)) begin endAddr (Stage.attrsToMode aarch64 orig) toMode)
      (fun _ => False) fun r => r.2.hypervisorPtable = t.hypervisorPtable := by
  refine Post.ite (fun _ => ?_) fun _ => .intro (fun p h => ?_) fun r h => ?_
  · have hrestore := restoreSender_post (henv 3) ht hin (Stage.attrsToMode aarch64 orig)
      (identityMapIn_of_covered ht.fromPtable.fits hin _ hcovered _ _)
    refine Post.bind (R := fun t' : Transfer S H => t'.hypervisorPtable = t.hypervisorPtable)
      (.intro (fun p h => hrestore.of_error h) fun t' h => ?_) fun t' h => h
    exact (restoreSender_hypervisorPtable _ _ _ _ t).of_ok h
  · exact (complete_post (fun k => henv (k + 3)) ht hin toMode hcovered).of_error h
  · exact (complete_hypervisorPtable _ _ t _ _ _).of_ok h

/-- `share_memory` keeps the hypervisor's table exactly if it finds none of the
pages mapped there when it clears them. -/
theorem shareMemory_kept_iff (request : HfShare) (begin : Nat) {endAddr : Nat}
    (hend : endAddr < 2 ^ 64) :
    Post (shareMemory env request begin endAddr t) (· ≠ .unmap)
        (fun r => r.2.hypervisorPtable.view = t.hypervisorPtable.view) ↔
      ∀ hyp, t.Clears env request begin endAddr hyp → ∀ a, begin ≤ a → a < endAddr →
        t.hypervisorPtable.view a = none := by
  rw [shareMemory]
  split
  · rename_i hcheck
    refine iff_of_true rfl ?_
    rintro hyp ⟨orig, t₁, hsome, -⟩
    cases hcheck.symm.trans hsome
  · rename_i orig hcheck
    have hgranted := granted_of_shareMemoryCheck ht.fromPtable.fits.toValid hend hcheck
    obtain ⟨attrs, rfl, hview⟩ := hgranted.uniform.view hgranted.present
    have hin := hgranted.uniform.inSpace
    rw [shareMemoryUpdate, Post.bind_iff]
    have hpost := mapSender_post (henv 0) ht hin request.modes.1
    have hframe := mapSender_hypervisorPtable (env 0) begin endAddr request.modes.1 t
    cases hmap : t.mapSender (env 0) begin endAddr request.modes.1 with
    | error p => exact (hpost.of_error hmap).elim
    | ok r =>
      obtain ⟨ht₁, hto₁, hres₁⟩ := hpost.of_ok hmap
      have hhyp₁ := hframe.of_ok hmap
      obtain ⟨_ | _, t₁⟩ := r
      · have hcovered := hres₁.covered_again hkind ht.fromPtable hin rfl hview
        have hiff := clearMemory_kept_iff (fun k => henv (k + 1)) ht₁ begin endAddr
        rw [unmapped_region_iff ht.fromPtable.fits hin] at hiff
        refine Post.bind_iff.trans ((Post.congr_of_ok fun r hr => ?_).trans (hiff.trans ?_))
        · obtain ⟨ht₂, hfrom₂, -⟩ :=
            (clearMemory_post (fun k => henv (k + 1)) ht₁ begin endAddr).of_ok hr
          have hfinish := finish_hypervisorPtable henv ht₂ hin (by rwa [hfrom₂]) r.1
            request.modes.2
          refine hfinish.congr_of_total fun r' hr' => ?_
          rw [hr', hhyp₁]
        · rw [hhyp₁]
          constructor
          · rintro h hyp ⟨_, t₁', -, hmap', hclears⟩
            cases hmap.symm.trans hmap'
            exact h hyp hclears
          · exact fun h hyp hclears => h hyp ⟨_, t₁, hcheck, hmap, hclears⟩
      · refine iff_of_true (congrArg view hhyp₁) ?_
        rintro hyp ⟨_, _, _, hok, -⟩
        exact absurd (hmap.symm.trans hok) (by simp)

/-- `share_memory` only touches pages of its range in the hypervisor's table, and
only if the checks let it through. -/
theorem shareMemory_view (request : HfShare) (begin : Nat) {endAddr : Nat}
    (hend : endAddr < 2 ^ 64) :
    Post (shareMemory env request begin endAddr t) (fun _ => True) fun r => ∀ a,
      r.2.hypervisorPtable.view a = t.hypervisorPtable.view a ∨ (begin ≤ a ∧ a < endAddr) ∧
          ∃ orig, shareMemoryCheck request begin endAddr t.fromPtable t.toPtable = some orig := by
  rw [shareMemory]
  split
  · exact fun a => Or.inl rfl
  · rename_i orig hcheck
    have hgranted := granted_of_shareMemoryCheck ht.fromPtable.fits.toValid hend hcheck
    obtain ⟨attrs, rfl, hview⟩ := hgranted.uniform.view hgranted.present
    have hin := hgranted.uniform.inSpace
    obtain ⟨hbegin, hend'⟩ := region_other (H := H) ht.fromPtable.fits hin
    refine Post.bind (.intro (fun _ _ => trivial) fun r h => And.intro
      ((mapSender_post (henv 0) ht hin request.modes.1).of_ok h)
      ((mapSender_hypervisorPtable (env 0) begin endAddr request.modes.1 t).of_ok h)) ?_
    rintro ⟨o₁, t₁⟩ ⟨⟨ht₁, -, hres₁⟩, hhyp₁⟩
    dsimp only at hhyp₁ ht₁ hres₁
    refine Post.ite (fun _ a => Or.inl (by rw [hhyp₁])) fun ho₁ => ?_
    have hok₁ : o₁ = .ok := by cases o₁ <;> simp_all
    have hcovered := hres₁.covered_again hkind ht.fromPtable hin hok₁ hview
    refine Post.bind (.intro (fun _ _ => trivial) fun r h => And.intro
      ((clearMemory_post (fun k => henv (k + 1)) ht₁ begin endAddr).of_ok h)
      ((clearMemory_view (fun k => henv (k + 1)) ht₁ begin endAddr).of_ok h)) ?_
    rintro ⟨o₂, t₂⟩ ⟨⟨ht₂, hfrom₂, -⟩, herr, hok⟩
    refine (finish_hypervisorPtable henv ht₂ hin (by rwa [hfrom₂]) o₂ request.modes.2).mono
      (fun _ h => h.elim) fun r hr a => ?_
    rw [hr, ← hhyp₁]
    cases o₂ with
    | err => exact Or.inl (congrFun (herr rfl) a)
    | ok =>
      dsimp only at hok
      rw [hok rfl, hbegin, hend', unmappedView]
      split
      · rename_i ha
        exact Or.inr ⟨⟨ha.1, (lt_min_iff.mp ha.2).1⟩, _, hcheck⟩
      · exact Or.inl rfl

end Share
end Transfer

/-! ## Mailbox pages -/

namespace MailboxSetup

variable {S H : Stage} {strict : Bool} {begin endAddr : Nat} {t t' : MailboxSetup S H}

/-- What mapping a range in the hypervisor's table does. -/
structure MapsHypervisor (strict : Bool) (begin endAddr : Nat) (mode : Mode)
    (t : MailboxSetup S H) (o : Outcome) (t' : MailboxSetup S H) : Prop where
  regular : t'.Regular strict
  ptable : t'.ptable = t.ptable
  index_le : index (archMmClearPa begin) H.rootLevel ≤ H.rootTableCount
  effect : PageTable.MapEffect (archMmClearPa begin) (H.updateEnd endAddr)
    (H.modeToAttrs aarch64 mode) t.hypervisorPtable o t'.hypervisorPtable

theorem mapHypervisor_spec {env : Pool → Pool} (henv : ∀ p, p.Usable → (env p).Usable)
    (ht : t.Regular strict) {mode : Mode} {o : Outcome}
    (h : t.mapHypervisor env begin endAddr mode = .ok (o, t')) :
    MapsHypervisor strict begin endAddr mode t o t' := by
  obtain ⟨⟨o', hyp, pool⟩, hmap, h⟩ := bind_eq_ok.mp h
  cases h
  obtain ⟨hhyp, hpool⟩ := ht.hypervisorPtable.identityMapIn ht.pool henv hmap
  exact ⟨⟨ht.ptable, hhyp, hpool⟩, rfl, index_le_of_identityUpdate (orPanic_eq_ok.mp hmap),
    mapEffect_of_identityMapIn ht.hypervisorPtable ht.pool henv hmap⟩

theorem mapHypervisor_ne_unmap {env : Pool → Pool} {mode : Mode} {p : Panic}
    (h : t.mapHypervisor env begin endAddr mode = .error p) : p ≠ .unmap := by
  have hpost : Post (t.mapHypervisor env begin endAddr mode) (· ≠ .unmap) fun _ => True :=
    Post.bind (R := fun _ => True) (.intro (fun p h => by rw [(orPanic_eq_error.mp h).2]; nofun)
      fun _ _ => trivial) fun _ _ => trivial
  exact hpost.of_error h

/-- The send page is mapped for the hypervisor, but the receive page cannot be. -/
def Retracts (env : Interference) (sendBegin sendEnd recvBegin recvEnd : Nat)
    (t : MailboxSetup S H) : Prop :=
  ∃ t₁ t₂, t.mapHypervisor (env 0) sendBegin sendEnd Mode.R = .ok (.ok, t₁) ∧
    t₁.mapHypervisor (env 1) recvBegin recvEnd Mode.W = .ok (.err, t₂)

section Stage1

variable {env : Interference} (henv : env.Ok) (ht : t.Regular strict)
  (sendBegin sendEnd recvBegin recvEnd : Nat)
include henv ht

theorem configureStage1_view :
    Post (t.configureStage1 env sendBegin sendEnd recvBegin recvEnd) (fun _ => True) fun r =>
      (r.1 = .ok → r.2.hypervisorPtable.view =
        mappedView (archMmClearPa recvBegin) (H.updateEnd recvEnd) (H.modeToAttrs aarch64 Mode.W)
          (mappedView (archMmClearPa sendBegin) (H.updateEnd sendEnd)
            (H.modeToAttrs aarch64 Mode.R) t.hypervisorPtable.view)) ∧
      (r.1 = .err → r.2.hypervisorPtable.view = t.hypervisorPtable.view ∨
        r.2.hypervisorPtable.view = unmappedView (archMmClearPa sendBegin) (H.updateEnd sendEnd)
            t.hypervisorPtable.view) := by
  refine Post.bind (.intro (fun _ _ => trivial) fun r h => mapHypervisor_spec (henv 0) ht h) ?_
  rintro ⟨o₁, t₁⟩ h₁
  have hdefrag : ∀ {t : MailboxSetup S H}, t.Regular strict →
      t.defragHypervisor.hypervisorPtable.view = t.hypervisorPtable.view := fun ht =>
    (defrag_regular ht.hypervisorPtable ht.pool).2.2
  refine Post.ite (fun ho => ⟨nofun, fun _ => Or.inl ?_⟩) fun ho => ?_
  · exact (hdefrag h₁.regular).trans (funext ((h₁.effect.err ho).view ht.hypervisorPtable.wf))
  have hok₁ : o₁ = .ok := by cases o₁ <;> simp_all
  refine Post.bind (.intro (fun _ _ => trivial) fun r h =>
    mapHypervisor_spec (henv 1) h₁.regular h) ?_
  rintro ⟨o₂, t₂⟩ h₂
  refine Post.ite (fun ho => ?_) fun ho => ⟨fun _ => ?_, nofun⟩
  · refine Post.bind (R := fun t₃ : MailboxSetup S H => t₃.hypervisorPtable.view =
      unmappedView (archMmClearPa sendBegin) (H.updateEnd sendEnd)
        t₂.defragHypervisor.hypervisorPtable.view) ?_ fun t₃ h₃ => ⟨nofun, fun _ => Or.inr ?_⟩
    · refine Post.bind (R := fun r => r.1 = .ok → r.2.1.view =
        unmappedView (archMmClearPa sendBegin) (H.updateEnd sendEnd)
          t₂.defragHypervisor.hypervisorPtable.view) (.intro (fun _ _ => trivial) ?_) ?_
      · rintro ⟨o, hyp, pool⟩ h rfl
        have hreg := h₂.regular.defragHypervisor
        exact view_of_unmapIn hreg.hypervisorPtable hreg.pool (henv 2) h
      · rintro ⟨_ | _, hyp, pool⟩ h
        · exact h rfl
        · trivial
    · rw [h₃, hdefrag h₂.regular,
        funext ((h₂.effect.err ho).view h₁.regular.hypervisorPtable.wf), h₁.effect.ok hok₁,
        unmappedView_mappedView]
  · have hok₂ : o₂ = .ok := by cases o₂ <;> simp_all
    rw [h₂.effect.ok hok₂, h₁.effect.ok hok₁]

/-- A failed configuration keeps the hypervisor's table and does not panic in the
unmap exactly if a send page that has to be unmapped again was not mapped before. -/
theorem configureStage1_kept_iff :
    Post (t.configureStage1 env sendBegin sendEnd recvBegin recvEnd) (· ≠ .unmap)
        (fun r => r.1 = .err → r.2.hypervisorPtable.view = t.hypervisorPtable.view) ↔
      (t.Retracts env sendBegin sendEnd recvBegin recvEnd → ∀ a, archMmClearPa sendBegin ≤ a →
        a < H.updateEnd sendEnd → t.hypervisorPtable.view a = none) := by
  have hdefrag : ∀ {t : MailboxSetup S H}, t.Regular strict →
      t.defragHypervisor.hypervisorPtable.view = t.hypervisorPtable.view := fun ht =>
    (defrag_regular ht.hypervisorPtable ht.pool).2.2
  rw [configureStage1, Post.bind_iff]
  cases hmap₁ : t.mapHypervisor (env 0) sendBegin sendEnd Mode.R with
  | error p =>
    refine iff_of_true (mapHypervisor_ne_unmap hmap₁) ?_
    rintro ⟨t₁, t₂, h, -⟩
    cases hmap₁.symm.trans h
  | ok r₁ =>
    obtain ⟨_ | _, t₁⟩ := r₁
    · have h₁ := mapHypervisor_spec (henv 0) ht hmap₁
      refine Post.bind_iff.trans ?_
      cases hmap₂ : t₁.mapHypervisor (env 1) recvBegin recvEnd Mode.W with
      | error p =>
        refine iff_of_true (mapHypervisor_ne_unmap hmap₂) ?_
        rintro ⟨_, t₂, h, h'⟩
        cases hmap₁.symm.trans h
        cases hmap₂.symm.trans h'
      | ok r₂ =>
        obtain ⟨_ | _, t₂⟩ := r₂
        · refine iff_of_true nofun ?_
          rintro ⟨_, t₂, h, h'⟩
          cases hmap₁.symm.trans h
          exact absurd (hmap₂.symm.trans h') (by simp)
        · have h₂ := mapHypervisor_spec (henv 1) h₁.regular hmap₂
          have hreg := h₂.regular.defragHypervisor
          have hview : t₂.defragHypervisor.hypervisorPtable.view =
              mappedView (archMmClearPa sendBegin) (H.updateEnd sendEnd)
                (H.modeToAttrs aarch64 Mode.R) t.hypervisorPtable.view := by
            rw [hdefrag h₂.regular,
              funext ((h₂.effect.err rfl).view h₁.regular.hypervisorPtable.wf),
              h₁.effect.ok rfl]
          refine (Post.bind_iff.trans (unmapIn_kept_iff hreg.hypervisorPtable hreg.pool
            (henv 2) h₁.index_le hview (fun h => ?_) fun _ => ?_)).trans ?_
          · exact ((h₁.effect.loose rfl h).of_splits (h₂.effect.err rfl)
              h₁.regular.hypervisorPtable.wf).unmapIn_defrag h₂.regular.hypervisorPtable
                h₂.regular.pool (henv 2)
          · exact ⟨fun h => h rfl, fun h _ => h⟩
          · exact ⟨fun h _ => h, fun h => h ⟨t₁, t₂, hmap₁, hmap₂⟩⟩
    · have h₁ := mapHypervisor_spec (henv 0) ht hmap₁
      refine iff_of_true (fun _ => ?_) ?_
      · exact (hdefrag h₁.regular).trans
          (funext ((h₁.effect.err rfl).view ht.hypervisorPtable.wf))
      · rintro ⟨_, t₂, h, -⟩
        exact absurd (hmap₁.symm.trans h) (by simp)

end Stage1

section Frame

variable {env : Pool → Pool} (henv : ∀ p, p.Usable → (env p).Usable) (ht : t.Regular strict)
  (hin : InSpace S begin endAddr) (mode : Mode)
include henv ht hin

theorem map_hypervisorPtable : Post (t.map env begin endAddr mode) (fun _ => False) fun r =>
    r.2.Regular strict ∧ r.2.hypervisorPtable = t.hypervisorPtable := by
  obtain ⟨r, hmap, hres⟩ := identityMapIn_spec ht.ptable ht.pool henv hin mode
  rw [map, hmap]
  exact ⟨⟨hres.regular, ht.hypervisorPtable, hres.poolWf⟩, rfl⟩

theorem restore_hypervisorPtable : Post (t.restore env begin endAddr mode) (· = .restore) fun t' =>
    t'.Regular strict ∧ t'.hypervisorPtable = t.hypervisorPtable := by
  refine Post.bind ((map_hypervisorPtable henv ht hin mode).mono (fun _ h => h.elim)
    fun _ h => h) ?_
  rintro ⟨_ | _, t'⟩ h
  · exact h
  · rfl

end Frame

section Pages

variable {env : Interference} {sendBegin sendEnd recvBegin recvEnd : Nat} (henv : env.Ok)
  (ht : t.Regular strict) (hsend : InSpace S sendBegin sendEnd)
  (hrecv : InSpace S recvBegin recvEnd)
include henv ht hsend hrecv

/-- What `configure` does after the hypervisor's side has failed leaves the
hypervisor's table alone. -/
theorem restorePages_hypervisorPtable (origSendMode origRecvMode : Mode) : Post (do
        let t ← t.restore (env 5) recvBegin recvEnd origRecvMode
        return (Outcome.err, ← t.restore (env 6) sendBegin sendEnd origSendMode))
      (· = .restore) fun r => r.1 = .err ∧ r.2.hypervisorPtable = t.hypervisorPtable := by
  refine Post.bind (restore_hypervisorPtable (henv 5) ht hrecv origRecvMode) ?_
  rintro t₁ ⟨ht₁, h₁⟩
  refine Post.bind (restore_hypervisorPtable (henv 6) ht₁ hsend origSendMode) ?_
  rintro t₂ ⟨-, h₂⟩
  exact ⟨rfl, h₂.trans h₁⟩

theorem Reaches.spec (h : t.Reaches env sendBegin sendEnd recvBegin recvEnd t') :
    t'.Regular strict ∧ t'.hypervisorPtable = t.hypervisorPtable := by
  obtain ⟨t₁, hmap₁, hmap₂⟩ := h
  obtain ⟨ht₁, h₁⟩ := (map_hypervisorPtable (henv 0) ht hsend _).of_ok hmap₁
  obtain ⟨ht₂, h₂⟩ := (map_hypervisorPtable (henv 1) ht₁ hrecv _).of_ok hmap₂
  exact ⟨ht₂, h₂.trans h₁⟩

omit henv ht hsend hrecv in
theorem Reaches.unique {t'' : MailboxSetup S H}
    (h : t.Reaches env sendBegin sendEnd recvBegin recvEnd t')
    (h' : t.Reaches env sendBegin sendEnd recvBegin recvEnd t'') : t' = t'' := by
  obtain ⟨t₁, h₁, h₂⟩ := h
  obtain ⟨t₁', h₁', h₂'⟩ := h'
  cases h₁.symm.trans h₁'
  cases h₂.symm.trans h₂'
  rfl

/-- A configuration that does not get to the hypervisor's side fails. -/
theorem configurePages_of_not_reaches
    (h : ∀ t', ¬t.Reaches env sendBegin sendEnd recvBegin recvEnd t')
    (origSendMode origRecvMode : Mode) :
    Post (t.configurePages env sendBegin sendEnd origSendMode recvBegin recvEnd origRecvMode)
      (· = .restore) fun r => r.1 = .err ∧ r.2.hypervisorPtable = t.hypervisorPtable := by
  refine Post.bind (.intro (fun p hp => ((map_hypervisorPtable (henv 0) ht hsend sendMode).of_error
    hp).elim) fun r hr => And.intro hr ((map_hypervisorPtable (henv 0) ht hsend _).of_ok hr)) ?_
  rintro ⟨o₁, t₁⟩ ⟨hmap₁, ht₁, h₁⟩
  refine Post.ite (fun _ => ⟨rfl, h₁⟩) fun ho₁ => ?_
  refine Post.bind (.intro (fun p hp => ((map_hypervisorPtable (henv 1) ht₁ hrecv recvMode).of_error
    hp).elim) fun r hr => And.intro hr ((map_hypervisorPtable (henv 1) ht₁ hrecv _).of_ok hr)) ?_
  rintro ⟨o₂, t₂⟩ ⟨hmap₂, ht₂, h₂⟩
  refine Post.ite (fun _ => ?_) fun ho₂ => ?_
  · refine Post.bind (restore_hypervisorPtable (henv 2) ht₂.defrag hsend origSendMode) ?_
    rintro t₃ ⟨-, h₃⟩
    exact ⟨rfl, h₃.trans (h₂.trans h₁)⟩
  · have hok₁ : o₁ = .ok := by cases o₁ <;> simp_all
    have hok₂ : o₂ = .ok := by cases o₂ <;> simp_all
    subst hok₁
    subst hok₂
    exact absurd ⟨t₁, hmap₁, hmap₂⟩ (h t₂)

omit henv ht hsend hrecv in
theorem configurePages_of_reaches (h : t.Reaches env sendBegin sendEnd recvBegin recvEnd t')
    (origSendMode origRecvMode : Mode) :
    t.configurePages env sendBegin sendEnd origSendMode recvBegin recvEnd origRecvMode = (do
      let (r, t) ← t'.configureStage1 (fun k => env (k + 2)) sendBegin sendEnd recvBegin recvEnd
      if r = .err then
        let t ← t.restore (env 5) recvBegin recvEnd origRecvMode
        return (.err, ← t.restore (env 6) sendBegin sendEnd origSendMode)
      return (.ok, t)) := by
  obtain ⟨t₁, hmap₁, hmap₂⟩ := h
  rw [sendMode] at hmap₁
  rw [recvMode] at hmap₂
  rw [configurePages, hmap₁]
  change (t₁.map (env 1) recvBegin recvEnd _ >>= _) = _
  rw [hmap₂]
  rfl

end Pages

/-- `configure` has to unmap the send page again. -/
def Withdraws (env : Interference) (send recv : Nat) (t : MailboxSetup S H) : Prop :=
  ∃ origs t', configureCheck send recv t.ptable = some origs ∧
    t.Reaches env send (pageEnd send) recv (pageEnd recv) t' ∧
    t'.Retracts (fun k => env (k + 2)) send (pageEnd send) recv (pageEnd recv)

section Configure

variable {env : Interference} (hkind : S.kind = .stage2) (henv : env.Ok) (ht : t.Regular strict)
include hkind henv ht

/-- A failed configuration keeps the hypervisor's table exactly if a send page that
has to be unmapped again was not mapped before. -/
theorem configure_kept_iff (send recv : Nat) : Post (t.configure env send recv) (· ≠ .unmap)
        (fun r => r.1 = .err → r.2.hypervisorPtable.view = t.hypervisorPtable.view) ↔
      (t.Withdraws env send recv → ∀ a, send ≤ a → a < pageEnd send →
        t.hypervisorPtable.view a = none) := by
  have hpost := configure_post hkind henv ht send recv
  rw [configure] at hpost ⊢
  split at hpost
  · rename_i hcheck
    refine iff_of_true (fun _ => rfl) ?_
    rintro ⟨origs, t', hsome, -⟩
    cases hcheck.symm.trans hsome
  · rename_i origSend origRecv hcheck
    obtain ⟨-, ⟨hsend, -⟩, hrecv, -⟩ := configureCheck_spec ht.ptable.fits.toValid hcheck
    have hinSend := hsend.uniform.inSpace
    have hinRecv := hrecv.uniform.inSpace
    by_cases hreach : ∃ t', t.Reaches env send (pageEnd send) recv (pageEnd recv) t'
    · obtain ⟨t', ht'⟩ := hreach
      obtain ⟨hreg, hhyp⟩ := ht'.spec henv ht hinSend hinRecv
      have hiff := configureStage1_kept_iff (fun k => henv (k + 2)) hreg send (pageEnd send) recv
        (pageEnd recv)
      rw [unmapped_region_iff ht.ptable.fits hinSend, hhyp] at hiff
      rw [configurePages_of_reaches ht'] at hpost ⊢
      refine Post.bind_iff.trans ((Post.congr_of_ok fun r hr => ?_).trans (hiff.trans ?_))
      · rw [hr] at hpost
        obtain ⟨ht₃, -⟩ := (configureStage1_post (fun k => henv (k + 2)) hreg _ _ _ _).of_ok hr
        obtain ⟨_ | _, t₃⟩ := r
        · exact iff_of_true (by rintro ⟨⟩) (by rintro ⟨⟩)
        · have hrestore := restorePages_hypervisorPtable henv ht₃ hinSend hinRecv origSend origRecv
          -- a restoring update does not fail, and nothing else can
          refine (Post.intro (fun p hp => ?_) fun r hr => hrestore.of_ok hr).congr_of_total
            fun r' hr' => ?_
          · have hrestored := hrestore.of_error hp
            rcases (hpost.of_error hp).1 with h | h
            · cases hrestored.symm.trans h
            · cases hrestored.symm.trans h
          · rw [hr'.1, hr'.2]
      · constructor
        · rintro h ⟨_, t'', -, ht'', hretracts⟩
          rw [ht''.unique ht'] at hretracts
          exact h hretracts
        · exact fun h hretracts => h ⟨_, t', hcheck, ht', hretracts⟩
    · have hnot := configurePages_of_not_reaches henv ht hinSend hinRecv
        (fun t' ht' => hreach ⟨t', ht'⟩) origSend origRecv
      refine iff_of_true (hnot.mono (fun p h => by simp [h]) fun r hr _ => by rw [hr.2]) ?_
      rintro ⟨_, t', -, ht', -⟩
      exact absurd ⟨t', ht'⟩ hreach

omit hkind in
/-- A completed configuration maps the send and the receive page; a failed one
touches at most these pages. -/
theorem configure_view (send recv : Nat) : Post (t.configure env send recv) (fun _ => True) fun r =>
      (r.1 = .ok → (∃ origs, configureCheck send recv t.ptable = some origs) ∧
        r.2.hypervisorPtable.view =
          mappedView recv (H.updateEnd (pageEnd recv)) (H.modeToAttrs aarch64 Mode.W)
            (mappedView send (H.updateEnd (pageEnd send)) (H.modeToAttrs aarch64 Mode.R)
              t.hypervisorPtable.view)) ∧
      ∀ a, r.2.hypervisorPtable.view a = t.hypervisorPtable.view a ∨
        ((send ≤ a ∧ a < pageEnd send) ∨ (recv ≤ a ∧ a < pageEnd recv)) ∧
          ∃ origs, configureCheck send recv t.ptable = some origs := by
  rw [configure]
  split
  · exact ⟨by simp, fun a => Or.inl rfl⟩
  · rename_i origSend origRecv hcheck
    obtain ⟨-, ⟨hsend, -⟩, hrecv, -⟩ := configureCheck_spec ht.ptable.fits.toValid hcheck
    have hinSend := hsend.uniform.inSpace
    have hinRecv := hrecv.uniform.inSpace
    obtain ⟨hbegin, hend⟩ := region_other (H := H) ht.ptable.fits hinSend
    obtain ⟨hbegin', hend'⟩ := region_other (H := H) ht.ptable.fits hinRecv
    by_cases hreach : ∃ t', t.Reaches env send (pageEnd send) recv (pageEnd recv) t'
    · obtain ⟨t', ht'⟩ := hreach
      obtain ⟨hreg, hhyp⟩ := ht'.spec henv ht hinSend hinRecv
      rw [configurePages_of_reaches ht']
      refine Post.bind (.intro (fun _ _ => trivial) fun r h => And.intro
        ((configureStage1_post (fun k => henv (k + 2)) hreg _ _ _ _).of_ok h)
        ((configureStage1_view (fun k => henv (k + 2)) hreg _ _ _ _).of_ok h)) ?_
      rintro ⟨_ | _, t₃⟩ ⟨⟨ht₃, -⟩, hok, herr⟩
      · rw [hhyp, hbegin, hbegin', hend, hend'] at hok
        refine ⟨fun _ => ⟨⟨_, hcheck⟩, by rw [hend, hend']; exact hok rfl⟩, fun a => ?_⟩
        rw [hok rfl, mappedView, mappedView]
        split
        · rename_i ha
          exact Or.inr ⟨Or.inr ⟨ha.1, (lt_min_iff.mp ha.2).1⟩, _, hcheck⟩
        split
        · rename_i ha
          exact Or.inr ⟨Or.inl ⟨ha.1, (lt_min_iff.mp ha.2).1⟩, _, hcheck⟩
        · exact Or.inl rfl
      · refine (restorePages_hypervisorPtable henv ht₃ hinSend hinRecv origSend origRecv).mono
          (fun _ _ => trivial) fun r hr => ⟨by simp [hr.1], fun a => ?_⟩
        rw [hr.2]
        rw [hhyp, hbegin, hend] at herr
        rcases herr rfl with h | h
        · exact Or.inl (congrFun h a)
        · rw [h, unmappedView]
          split
          · rename_i ha
            exact Or.inr ⟨Or.inl ⟨ha.1, (lt_min_iff.mp ha.2).1⟩, _, hcheck⟩
          · exact Or.inl rfl
    · refine (configurePages_of_not_reaches henv ht hinSend hinRecv
        (fun t' ht' => hreach ⟨t', ht'⟩) origSend origRecv).mono (fun _ _ => trivial) fun r hr =>
          ⟨by simp [hr.1], fun a => Or.inl (by rw [hr.2])⟩

end Configure
end MailboxSetup

end Hafnium
