import Hafnium.Mm.IdentityMap

/-!
# Reading modes back

`get_mode` reads the attributes of a range and turns them into a mode.  It only
succeeds if the range lies in the address space and all its pages have the same
attributes; a mode read back from attributes that a mode was turned into gives
those attributes again.
-/

namespace Hafnium

open Support Aarch64 Stage

/-! ## Modes and attributes -/

namespace Aarch64

/-- The flags that stage-2 attributes record; `D` is not among them. -/
def stage2Flags : Mode :=
  Mode.R ||| Mode.W ||| Mode.X ||| Mode.INVALID ||| Mode.UNOWNED ||| Mode.SHARED

theorem archMmModeToStage2Attrs_flags (mode : Mode) :
    archMmModeToStage2Attrs (mode &&& stage2Flags) = archMmModeToStage2Attrs mode := by
  have hflag : ∀ f : Mode, stage2Flags &&& f = f → mode &&& stage2Flags &&& f = mode &&& f := by
    intro f hf
    rw [BitVec.and_assoc, hf]
  simp only [archMmModeToStage2Attrs, hflag Mode.R (by decide), hflag Mode.W (by decide),
    hflag Mode.X (by decide), hflag Mode.INVALID (by decide), hflag Mode.UNOWNED (by decide),
    hflag Mode.SHARED (by decide)]

/-- What holds of 128 modes holds of the flags of any mode. -/
theorem forall_stage2Flags {P : Mode → Prop} (h : ∀ k < 128, P (BitVec.ofNat 32 k))
    (mode : Mode) : P (mode &&& stage2Flags) := by
  have hlt : (mode &&& stage2Flags).toNat < 128 := by
    rw [BitVec.toNat_and]
    exact Nat.and_lt_two_pow _ (by decide : stage2Flags.toNat < 2 ^ 7)
  have := h _ hlt
  rwa [BitVec.ofNat_toNat, BitVec.setWidth_eq] at this

/-- Attributes that encode a mode are recovered from the mode read back. -/
theorem archMmModeToStage2Attrs_attrsToMode (mode : Mode) : archMmModeToStage2Attrs
        (Mode.fromBitsTruncate (archMmStage2AttrsToMode (archMmModeToStage2Attrs mode))) =
      archMmModeToStage2Attrs mode := by
  rw [← archMmModeToStage2Attrs_flags mode]
  exact forall_stage2Flags (P := fun mode => archMmModeToStage2Attrs
    (Mode.fromBitsTruncate (archMmStage2AttrsToMode (archMmModeToStage2Attrs mode))) =
      archMmModeToStage2Attrs mode) (by decide +kernel) mode

end Aarch64

/-! ## Who may do what with a page -/

/-- What a stage-2 entry says about the relation of a VM to a page. -/
structure PageState where
  valid : Bool
  owned : Bool
  exclusive : Bool
  deriving DecidableEq, Repr

namespace PageState

/-- The VM has nothing to do with the page. -/
def none : PageState := ⟨false, false, false⟩

/-- The state recorded in attributes. -/
def ofAttrs (attrs : BitVec 64) : PageState :=
  ⟨attrs &&& pteValid != 0#64, attrs &&& stage2SwOwned != 0#64, attrs &&& stage2SwExclusive != 0#64⟩

/-- The state of a page, by what the page table says about it. -/
def ofView : Option (BitVec 64) → PageState
  | .none => none
  | some attrs => ofAttrs attrs

/-- The state that a mode stands for. -/
def ofMode (mode : Mode) : PageState :=
  ⟨!mode.contains Mode.INVALID, !mode.contains Mode.UNOWNED, !mode.contains Mode.SHARED⟩

/-- Memory that is neither valid nor owned has no other distinctions. -/
def normal (s : PageState) : PageState := if s.valid || s.owned then s else none

theorem ofAttrs_pteAttrs (pte : Pte) (level : Nat) :
    ofAttrs (archMmPteAttrs pte level) = ofAttrs pte := by
  have hbit : ∀ m : BitVec 64, pteAttrMask &&& m = m → archMmPteAttrs pte level &&& m =
      pte &&& m := by
    intro m hm
    rw [archMmPteAttrs, BitVec.and_assoc, hm]
  simp only [ofAttrs, hbit pteValid (by decide), hbit stage2SwOwned (by decide),
    hbit stage2SwExclusive (by decide)]

theorem ofView_leaf (x : Leaf) : ofView x.view = (ofAttrs x.attrs).normal := by
  rw [Leaf.attrs, ofAttrs_pteAttrs]
  cases hp : x.isPresent with
  | true =>
    rw [Leaf.view, hp, if_pos rfl, ofView, Leaf.attrs, ofAttrs_pteAttrs, normal]
    exact (if_pos hp).symm
  | false =>
    rw [Leaf.view, hp, if_neg Bool.false_ne_true, ofView, normal]
    refine (if_neg ?_).symm
    exact ne_true_of_eq_false hp

/-- Reading a mode from attributes keeps the state. -/
theorem ofMode_attrsToMode (attrs : BitVec 64) :
    ofMode (attrsToMode aarch64 attrs) = ofAttrs attrs := by
  have hflags : ∀ r w x u s i : Bool, ofMode (Mode.fromBitsTruncate (let mode : BitVec 32 := 0#32
         let mode := if r then mode ||| Mode.R else mode
         let mode := if w then mode ||| Mode.W else mode
         let mode := if x then mode ||| Mode.X else mode
         let mode := if u then mode ||| Mode.UNOWNED else mode
         let mode := if s then mode ||| Mode.SHARED else mode
         if i then mode ||| Mode.INVALID else mode)) = ⟨!i, !u, !s⟩ := by
    decide +kernel
  have := hflags (attrs &&& stage2S2ap 1#64 ≠ 0#64) (attrs &&& stage2S2ap 2#64 ≠ 0#64)
    (attrs &&& stage2Xn 3#64 = stage2Xn 0#64) (attrs &&& stage2SwOwned = 0#64)
    (attrs &&& stage2SwExclusive = 0#64) (attrs &&& pteValid = 0#64)
  simp only [decide_eq_true_eq] at this
  rw [attrsToMode, aarch64_stage2AttrsToMode, archMmStage2AttrsToMode, this, ofAttrs]
  simp only [bne, beq_eq_decide]

theorem contains_flags (mode : Mode) {f : Mode} (hf : stage2Flags &&& f = f) :
    (mode &&& stage2Flags).contains f = mode.contains f := by
  rw [Mode.contains, Mode.contains, BitVec.and_assoc, hf]

theorem ofAttrs_modeToStage2Attrs (mode : Mode) :
    ofAttrs (archMmModeToStage2Attrs mode) = ofMode mode := by
  have hmode : ofMode (mode &&& stage2Flags) = ofMode mode := by
    simp only [ofMode, contains_flags mode (f := Mode.INVALID) (by decide),
      contains_flags mode (f := Mode.UNOWNED) (by decide),
      contains_flags mode (f := Mode.SHARED) (by decide)]
  rw [← archMmModeToStage2Attrs_flags mode, ← hmode]
  exact forall_stage2Flags (P := fun mode => ofAttrs (archMmModeToStage2Attrs mode) = ofMode mode)
    (by decide +kernel) mode

end PageState

/-! ## The attributes of a range -/

theorem resReduce_sameAttrs {l : List (Option (BitVec 64))} {attrs : BitVec 64}
    (h : resReduce sameAttrs l = some attrs) : l ≠ [] ∧ ∀ x ∈ l, x = some attrs := by
  cases l with
  | nil => simp [resReduce] at h
  | cons x xs =>
    have hfold : ∀ (xs : List (Option (BitVec 64))) (acc : BitVec 64),
        xs.foldlM (fun acc val => val.bind (sameAttrs acc)) acc = some attrs →
          acc = attrs ∧ ∀ x ∈ xs, x = some attrs := by
      intro xs
      induction xs with
      | nil => simp
      | cons y ys ih =>
        intro acc hacc
        rw [List.foldlM_cons, Option.bind_eq_bind, Option.bind_eq_some_iff] at hacc
        obtain ⟨acc', hy, hys⟩ := hacc
        obtain ⟨v, rfl, hsame⟩ := Option.bind_eq_some_iff.mp hy
        obtain ⟨rfl, hall⟩ := ih acc' hys
        simp only [sameAttrs, Option.ite_none_right_eq_some, Option.some.injEq] at hsame
        obtain ⟨rfl, rfl⟩ := hsame
        exact ⟨rfl, by simpa using hall⟩
    obtain ⟨acc, rfl, hxs⟩ := Option.bind_eq_some_iff.mp h
    obtain ⟨rfl, hall⟩ := hfold xs acc hxs
    exact ⟨by simp, by simpa using hall⟩

theorem resReduce_of_forall {l : List (Option (BitVec 64))} {attrs : BitVec 64} (hne : l ≠ [])
    (h : ∀ x ∈ l, x = some attrs) : resReduce sameAttrs l = some attrs := by
  cases l with
  | nil => exact absurd rfl hne
  | cons x xs =>
    have hfold : ∀ xs : List (Option (BitVec 64)), (∀ x ∈ xs, x = some attrs) →
        xs.foldlM (fun acc val => val.bind (sameAttrs acc)) attrs = some attrs := by
      intro xs
      induction xs with
      | nil =>
        intro _
        rfl
      | cons y ys ih =>
        intro hys
        rw [List.foldlM_cons, hys y List.mem_cons_self, Option.bind_some, sameAttrs, if_pos rfl]
        exact ih fun x hx => hys x (List.mem_cons_of_mem _ hx)
    rw [resReduce, h x List.mem_cons_self, Option.bind_some]
    exact hfold xs fun x hx => h x (List.mem_cons_of_mem _ hx)

namespace PageTableEntry

variable {A : ArchMm}

/-- All pages of the part of an entry that was read have the attributes
returned. -/
theorem getAttrs_spec {level base begin endAddr : Nat} {e : PageTableEntry level}
    {attrs : BitVec 64} (hin : InEntry level base begin endAddr)
    (h : e.getAttrs A endAddr begin = some attrs) {a : Nat} (hlo : base ≤ a)
    (hhi : a < base + entrySize level) (hbegin : begin ≤ a) (hend : a < endAddr) :
    A.pteAttrs (e.lookup a).inner (e.lookup a).level = attrs := by
  induction e generalizing base begin with
  | @leaf level w =>
    rw [lookup_leaf]
    cases level <;> exact Option.some.inj h
  | table w es ih =>
    obtain ⟨b, hb, hba⟩ := hin.visits_of_mem hlo hhi hbegin hend
    have hslot := slot_of_index hin.aligned hlo hhi
    exact ih _ (hin.child hb)
      ((resReduce_sameAttrs h).2 _ (List.mem_map_of_mem hb)) hslot.1 hslot.2 hba

/-- The attributes of the part of an entry can be read if all its pages have them. -/
theorem getAttrs_of_same {level base begin endAddr : Nat} {e : PageTableEntry level}
    {attrs : BitVec 64} (hin : InEntry level base begin endAddr)
    (h : ∀ a, base ≤ a → a < base + entrySize level → begin ≤ a → a < endAddr →
      A.pteAttrs (e.lookup a).inner (e.lookup a).level = attrs) :
    e.getAttrs A endAddr begin = some attrs := by
  induction e generalizing base begin with
  | @leaf level w =>
    have hattrs := h begin hin.lo hin.hi le_rfl hin.lt
    rw [lookup_leaf] at hattrs
    rw [← hattrs]
    cases level <;> rfl
  | @table level w es ih =>
    apply resReduce_of_forall
    · obtain ⟨b, hb, -⟩ := hin.visits_of_mem hin.lo hin.hi le_rfl hin.lt
      exact List.ne_nil_of_mem (List.mem_map_of_mem hb)
    · intro x hx
      obtain ⟨⟨i, b⟩, hb, rfl⟩ := List.mem_map.mp hx
      apply ih i (hin.child hb)
      intro a hlo hhi hbegin hend
      -- the address is in the slot of the child, so the walk for it goes there
      have hi : (⟨index a level, index_lt a level⟩ : Fin 512) = i :=
        Fin.ext (index_of_slot hin.aligned i.isLt hlo hhi)
      have hslot := slotBase_add_le base level i
      have hattrs := h a ((Nat.le_add_right base _).trans hlo) (hhi.trans_le hslot)
        ((hin.le_of_visits hb).trans hbegin) hend
      rwa [lookup_table, hi] at hattrs

end PageTableEntry

namespace PageTable

variable {S : Stage}

/-- All pages of a range resolve to leaves with the given attributes. -/
def HasAttrs (A : ArchMm) (pt : PageTable S) (begin endAddr : Nat) (attrs : BitVec 64) : Prop :=
  ∀ a, begin ≤ a → a < endAddr → ∃ x, pt.lookup a = some x ∧ A.pteAttrs x.inner x.level = attrs

variable {begin endAddr : Nat}

/-- The attributes of a range can be read if and only if it is not empty and in the
address space, and all its pages have them. -/
theorem getAttrs_eq_some_iff {A : ArchMm} (hS : S.Valid) {pt : PageTable S} {attrs : BitVec 64} :
    pt.getAttrs A begin endAddr = some attrs ↔
      InSpace S (roundDownToPage begin) (roundUpToPage endAddr) ∧
        pt.HasAttrs A (roundDownToPage begin) (roundUpToPage endAddr) attrs := by
  constructor
  · intro h
    rw [getAttrs] at h
    split at h
    · simp at h
    rename_i hrange
    rw [not_not] at hrange
    obtain ⟨hne, hall⟩ := resReduce_sameAttrs h
    have hlt : roundDownToPage begin < roundUpToPage endAddr := by
      by_contra hge
      exact hne (List.map_eq_nil_iff.mpr (visits_eq_nil (Nat.not_lt.mp hge)))
    have hin : InSpace S (roundDownToPage begin) (roundUpToPage endAddr) :=
      ⟨hlt, hrange.2, roundDownToPage_mod _, roundUpToPage_mod _⟩
    refine ⟨hin, fun a hbegin hend => ?_⟩
    obtain ⟨-, ht⟩ := InSpace.index_eq hS (hend.trans_le hin.le)
    obtain ⟨b, hb, hba⟩ := hin.visits_of_mem hS hbegin hend ht
    obtain ⟨hlo, hhi⟩ := InSpace.rootBase_le S a
    refine ⟨_, lookup_eq pt ht, ?_⟩
    -- a root table is read like the entry that would refer to it
    have htable : (pt.entry ⟨a / entrySize S.rootLevel, ht⟩).getAttrs A
        (roundUpToPage endAddr) b = some attrs :=
      hall _ (List.mem_map_of_mem (f := fun p => (pt.tables p.1).getAttrsLevel A
        (roundUpToPage endAddr) p.2) hb)
    exact PageTableEntry.getAttrs_spec (hin.child hS hb) htable hlo hhi hba hend
  · rintro ⟨hin, hall⟩
    rw [getAttrs, if_neg (not_not.mpr ⟨hin.lt.le, hin.le⟩)]
    apply resReduce_of_forall
    · obtain ⟨-, ht⟩ := InSpace.index_eq hS (hin.lt.trans_le hin.le)
      obtain ⟨b, hb, -⟩ := hin.visits_of_mem hS le_rfl hin.lt ht
      exact List.ne_nil_of_mem (List.mem_map_of_mem hb)
    · intro x hx
      obtain ⟨⟨t, b⟩, hb, rfl⟩ := List.mem_map.mp hx
      change (pt.entry t).getAttrs A (roundUpToPage endAddr) b = some attrs
      apply PageTableEntry.getAttrs_of_same (hin.child hS hb)
      intro a hlo hhi hba hae
      have ht : a / entrySize S.rootLevel = t := by
        have hdiv := div_eq_of_slot (entrySize_pos S.rootLevel) (Nat.zero_mod _) hlo hhi
        rwa [Nat.zero_div, Nat.zero_add] at hdiv
      have hlt : a / entrySize S.rootLevel < S.rootTableCount := by
        rw [ht]
        exact t.isLt
      obtain ⟨x, hx, hxattrs⟩ := hall a ((hin.le_of_visits hS hb).trans hba) hae
      rw [lookup_eq pt hlt] at hx
      have hfin : (⟨a / entrySize S.rootLevel, hlt⟩ : Fin S.rootTableCount) = t := Fin.ext ht
      rw [hfin] at hx
      rw [Option.some.inj hx]
      exact hxattrs

/-- All pages of a range have the same attributes, and a mode stands for them. -/
structure Uniform (pt : PageTable S) (begin endAddr : Nat) (mode : Mode) : Prop where
  inSpace : InSpace S begin endAddr
  attrs : ∃ attrs, mode = attrsToMode aarch64 attrs ∧
    ∀ a, begin ≤ a → a < endAddr → ∃ x, pt.lookup a = some x ∧ x.attrs = attrs

theorem roundToPage_of_aligned (hbegin : begin % 4096 = 0)
    (hend : endAddr % 4096 = 0) (hlt : endAddr < 2 ^ 64) :
    roundDownToPage begin = begin ∧ roundUpToPage endAddr = endAddr := by
  rw [roundUpToPage, roundDownToPage, roundDownToPage, pageSize_eq]
  omega

/-- A range of whole pages whose mode can be read is uniform. -/
theorem uniform_of_getMode (hS : S.Valid) {pt : PageTable S} {mode : Mode}
    (hbegin : begin % pageSize = 0) (hend : endAddr % pageSize = 0) (hlt : endAddr < 2 ^ 64)
    (h : pt.getMode aarch64 begin endAddr = some mode) : pt.Uniform begin endAddr mode := by
  obtain ⟨attrs, hattrs, hmode⟩ := Option.map_eq_some_iff.mp h
  obtain ⟨hin, hall⟩ := (getAttrs_eq_some_iff hS).mp hattrs
  obtain ⟨hdown, hup⟩ := roundToPage_of_aligned hbegin hend hlt
  rw [hdown, hup] at hin hall
  exact ⟨hin, attrs, hmode.symm, hall⟩

/-- All pages of a range have the same attributes. -/
def SameAttrs (pt : PageTable S) (begin endAddr : Nat) : Prop :=
  ∃ attrs, ∀ a, begin ≤ a → a < endAddr → ∃ x, pt.lookup a = some x ∧ x.attrs = attrs

/-- The mode of a range of whole pages can be read if all of them have the same
attributes. -/
theorem getMode_of_sameAttrs (hS : S.Valid) {pt : PageTable S}
    (hin : InSpace S begin endAddr) (h : pt.SameAttrs begin endAddr) :
    ∃ mode, pt.getMode aarch64 begin endAddr = some mode := by
  obtain ⟨attrs, hall⟩ := h
  have hbound := hS.ptableAddrSpaceEnd_le.1
  have hle := hin.le
  obtain ⟨hdown, hup⟩ := roundToPage_of_aligned hin.beginPage hin.endPage (by omega)
  have hattrs : pt.getAttrs aarch64 begin endAddr = some attrs := by
    rw [getAttrs_eq_some_iff hS, hdown, hup]
    exact ⟨hin, hall⟩
  exact ⟨_, congrArg (Option.map _) hattrs⟩

theorem Uniform.sameAttrs {pt : PageTable S} {mode : Mode}
    (h : pt.Uniform begin endAddr mode) : pt.SameAttrs begin endAddr := by
  obtain ⟨-, attrs, -, hall⟩ := h
  exact ⟨attrs, hall⟩

variable {pt : PageTable S} {begin endAddr : Nat} {mode : Mode}

/-- The state of the pages of a uniform range. -/
theorem Uniform.state (h : pt.Uniform begin endAddr mode) {a : Nat} (hlo : begin ≤ a)
    (hhi : a < endAddr) : PageState.ofView (pt.view a) = (PageState.ofMode mode).normal := by
  obtain ⟨-, attrs, rfl, hall⟩ := h
  obtain ⟨x, hx, rfl⟩ := hall a hlo hhi
  rw [view, hx, Option.bind_some, PageState.ofView_leaf, PageState.ofMode_attrsToMode]

/-- A uniform range that the VM has something to do with is present. -/
theorem Uniform.view (h : pt.Uniform begin endAddr mode)
    (hpresent : ((PageState.ofMode mode).valid || (PageState.ofMode mode).owned) = true) :
    ∃ orig, mode = attrsToMode aarch64 orig ∧
      ∀ a, begin ≤ a → a < endAddr → pt.view a = some orig := by
  obtain ⟨-, attrs, rfl, hall⟩ := h
  refine ⟨attrs, rfl, fun a hlo hhi => ?_⟩
  obtain ⟨x, hx, rfl⟩ := hall a hlo hhi
  rw [PageState.ofMode_attrsToMode, Leaf.attrs, PageState.ofAttrs_pteAttrs] at hpresent
  rw [PageTable.view, hx, Option.bind_some, Leaf.view]
  exact if_pos hpresent

/-! ## Exactness -/

/-- `get_attrs`, where `none` is the panic of slicing the root tables past their end. -/
def getAttrsOrPanic (A : ArchMm) (pt : PageTable S) (begin endAddr : Nat) :
    Option (Option (BitVec 64)) :=
  let ptableEnd := S.rootTableCount * entrySize S.rootLevel
  let begin := roundDownToPage begin
  let endAddr := roundUpToPage endAddr
  if ¬(begin ≤ endAddr ∧ endAddr ≤ ptableEnd) then some none
  else if index begin S.rootLevel > S.rootTableCount then none
  else
    some (resReduce sameAttrs ((visits S endAddr begin).map fun p =>
      (pt.tables p.1).getAttrsLevel A endAddr p.2))

/-- The root tables are never sliced past their end. -/
theorem getAttrsOrPanic_eq (A : ArchMm) (pt : PageTable S) (begin endAddr : Nat) :
    pt.getAttrsOrPanic A begin endAddr = some (pt.getAttrs A begin endAddr) := by
  rw [getAttrsOrPanic, getAttrs]
  by_cases hrange : roundDownToPage begin ≤ roundUpToPage endAddr ∧
      roundUpToPage endAddr ≤ S.rootTableCount * entrySize S.rootLevel
  · have hindex : index (roundDownToPage begin) S.rootLevel ≤ S.rootTableCount := by
      have hdiv := Nat.div_le_div_right (c := entrySize S.rootLevel) (hrange.1.trans hrange.2)
      rw [Nat.mul_div_cancel _ (entrySize_pos _)] at hdiv
      rw [Hafnium.index_eq]
      exact (Nat.mod_le _ _).trans hdiv
    rw [if_neg (not_not.mpr hrange), if_neg (not_not.mpr hrange), if_neg (Nat.not_lt.mpr hindex)]
  · rw [if_pos hrange, if_pos hrange]

/-- A stage-2 mode read back has all its flags but `D`. -/
theorem attrsToMode_modeToStage2Attrs (mode : Mode) :
    attrsToMode aarch64 (archMmModeToStage2Attrs mode) =
      Mode.fromBitsTruncate mode &&& ~~~Mode.D := by
  have hflags : Mode.fromBitsTruncate mode &&& ~~~Mode.D = mode &&& stage2Flags := by
    rw [Mode.fromBitsTruncate, BitVec.and_assoc]
    rfl
  rw [hflags, ← archMmModeToStage2Attrs_flags mode]
  have hall := forall_stage2Flags (P := fun mode =>
    attrsToMode aarch64 (archMmModeToStage2Attrs mode) = mode &&& stage2Flags)
    (by decide +kernel) mode
  rwa [BitVec.and_assoc, BitVec.and_self] at hall

/-- The attributes of a range are returned if and only if all its pages have them, without a
panic; and the mode of a range that was mapped in a stage-2 table is read back without `D`. -/
theorem getAttrs_exact (hS : S.Valid) (pt : PageTable S) (begin endAddr : Nat) :
    (∀ A : ArchMm, ∃ r, pt.getAttrsOrPanic A begin endAddr = some r ∧
      ∀ attrs, r = some attrs ↔
        roundDownToPage begin < roundUpToPage endAddr ∧
        roundUpToPage endAddr ≤ S.ptableAddrSpaceEnd ∧
        pt.HasAttrs A (roundDownToPage begin) (roundUpToPage endAddr) attrs) ∧
    ∀ (strict : Bool) (mode : Mode) (mpool mpool' : MPool) (pt' : PageTable S),
      S.kind = .stage2 → S.Fits → pt.Wf strict → mpool.Wf →
      roundDownToPage begin < roundUpToPage endAddr →
      roundUpToPage endAddr ≤ S.ptableAddrSpaceEnd →
      pt.identityMap aarch64 begin endAddr mode mpool = some (.ok, pt', mpool') →
      pt'.getMode aarch64 begin endAddr = some (Mode.fromBitsTruncate mode &&& ~~~Mode.D) := by
  constructor
  · intro A
    refine ⟨_, getAttrsOrPanic_eq A pt begin endAddr, ?_⟩
    intro attrs
    rw [getAttrs_eq_some_iff hS]
    constructor
    · rintro ⟨hin, hall⟩
      exact ⟨hin.lt, hin.le, hall⟩
    · rintro ⟨hlt, hle, hall⟩
      exact ⟨⟨hlt, hle, roundDownToPage_mod _, roundUpToPage_mod _⟩, hall⟩
  · intro strict mode mpool mpool' pt' hkind hfits hpt hpool hlt hle hmap
    have hfield := hfits.ptableAddrSpaceEnd_le_field
    have hclear : archMmClearPa begin = roundDownToPage begin := by
      apply archMmClearPa_of_lt
      rw [roundDownToPage, pageSize_eq] at hlt
      omega
    have hupdate : S.updateEnd endAddr = roundUpToPage endAddr := Nat.min_eq_left hle
    have hin : InSpace S (roundDownToPage begin) (roundUpToPage endAddr) :=
      ⟨hlt, hle, roundDownToPage_mod _, roundUpToPage_mod _⟩
    have hin' : InSpace S (archMmClearPa begin) (S.updateEnd endAddr) := by
      rwa [hclear, hupdate]
    obtain ⟨r, hr, hspec⟩ :=
      identityUpdate_spec hS hin' (S.modeToAttrs aarch64 mode) false pt hpool
    rw [identityMap, hr] at hmap
    cases hmap
    rw [hclear, hupdate] at hspec
    have hattrs : pt'.getAttrs aarch64 begin endAddr = some (S.modeToAttrs aarch64 mode) := by
      apply (getAttrs_eq_some_iff hS).mpr
      refine ⟨hin, fun a hlo hhi => ?_⟩
      obtain ⟨x, hx, htarget⟩ := hspec.target hS hin rfl hpt (fun _ => hle.trans hfield)
        (attrsOk_modeToAttrs S mode) hlo hhi
      simp only [PageTableEntry.Target, Bool.false_eq_true, if_false] at htarget
      exact ⟨x, hx, htarget.1⟩
    have hmode : S.modeToAttrs aarch64 mode = archMmModeToStage2Attrs mode := by
      rw [modeToAttrs, hkind]
      rfl
    rw [getMode, hattrs, Option.map_some, hmode, attrsToMode_modeToStage2Attrs]

/-- The mode of the first page of a table, once it is mapped. -/
theorem getAttrs_exact_first_page :
    ∃ pt' mpool', emptyTable.identityMap aarch64 0 0x1000 (Mode.R ||| Mode.D) examplePool =
        some (.ok, pt', mpool') ∧
      pt'.getMode aarch64 0 0x1000 = some Mode.R ∧
      ∃ r, pt'.getAttrsOrPanic aarch64 0 0x1000 = some r := by
  have hok : (emptyTable.identityMap aarch64 0 0x1000 (Mode.R ||| Mode.D) examplePool).map
      Prod.fst = some .ok := by
    decide +kernel
  obtain ⟨⟨o, pt', mpool'⟩, hr, rfl⟩ := Option.map_eq_some_iff.mp hok
  have hmode := (getAttrs_exact valid_exampleStage emptyTable 0 0x1000).2 true (Mode.R ||| Mode.D)
    examplePool mpool' pt' rfl fits_exampleStage (wf_emptyTable true) wf_examplePool
    (by decide +kernel) (by decide +kernel) hr
  obtain ⟨r, hpanic, -⟩ := (getAttrs_exact valid_exampleStage pt' 0 0x1000).1 aarch64
  exact ⟨pt', mpool', hr, hmode, r, hpanic⟩

end PageTable
end Hafnium
