import Hafnium.Ownership

/-!
# Which requests to share memory are accepted

The transition tables of `spci_share_memory` are written in terms of modes, of which
several stand for memory that a VM has nothing to do with.  They cater for all of
them, so on modes acceptance depends on the states of the pages only.  But the mode
of a range is only read if all of its entries are the same: a range in which the
recipient has several encodings of that one state is refused.
-/

namespace Hafnium

open PageState PageTableEntry

variable {S : Stage}

/-- A request that the states of the pages allow. -/
structure Lawful (share : SpciMemoryShare) (fromPtable toPtable : PageTable S)
    (begin endAddr : Nat) : Prop where
  inSpace : InSpace S begin endAddr
  move : ∀ a, begin ≤ a → a < endAddr →
    ∃ s t, ShareMove share (ofView (fromPtable.view a)) (ofView (toPtable.view a)) s t

/-- The entries of a range are the same in the table of the sender, and in that of the
recipient. -/
structure Homogeneous (fromPtable toPtable : PageTable S) (begin endAddr : Nat) : Prop where
  sender : fromPtable.SameAttrs begin endAddr
  recipient : toPtable.SameAttrs begin endAddr

/-! ## Transitions -/

/-- The sharing flags of a mode, by the state that it stands for. -/
def PageState.flags (s : PageState) : Mode :=
  (if s.valid then 0 else Mode.INVALID) ||| (if s.owned then 0 else Mode.UNOWNED) |||
    (if s.exclusive then 0 else Mode.SHARED)

theorem PageState.flags_ofMode (mode : Mode) : (ofMode mode).flags = mode &&& Mode.stateMask := by
  have hmask : mode &&& Aarch64.stage2Flags &&& Mode.stateMask = mode &&& Mode.stateMask := by
    rw [BitVec.and_assoc]
    congr 1
  have hmode : ofMode (mode &&& Aarch64.stage2Flags) = ofMode mode := ofMode_congr hmask
  rw [← hmode, ← hmask]
  exact Aarch64.forall_stage2Flags
    (P := fun mode => (ofMode mode).flags = mode &&& Mode.stateMask) (by decide +kernel) mode

theorem PageState.eq_of_normal {s n : PageState} (h : s.normal = n)
    (hn : (n.valid || n.owned) = true) : s = n := by
  rw [normal] at h
  split at h
  · exact h
  · rw [← h] at hn
    exact absurd hn (by decide)

/-- There are two encodings of a state in which a VM has nothing to do with memory. -/
theorem PageState.flags_of_normal {s : PageState} (h : s.normal = .none) :
    s.flags = Mode.INVALID ||| Mode.UNOWNED ∨
      s.flags = Mode.INVALID ||| Mode.UNOWNED ||| Mode.SHARED := by
  obtain ⟨valid, owned, exclusive⟩ := s
  revert h
  revert valid owned exclusive
  decide

/-- The tables have a transition for every move. -/
theorem exists_transition {share : SpciMemoryShare} {s t s' t' : PageState}
    (h : ShareMove share s.normal t.normal s' t') :
    ∃ transition ∈ share.transitions,
      s.flags = transition.origFromMode ∧ t.flags = transition.origToMode := by
  generalize hs : s.normal = n at h
  generalize ht : t.normal = m at h
  cases h with
  | donate =>
    cases eq_of_normal hs rfl
    obtain hflags | hflags := flags_of_normal ht
    · exact ⟨⟨0, _, Mode.INVALID ||| Mode.UNOWNED, 0⟩, by decide, rfl, hflags⟩
    · exact ⟨⟨0, _, Mode.INVALID ||| Mode.UNOWNED ||| Mode.SHARED, 0⟩, by decide, rfl, hflags⟩
  | donateLent =>
    cases eq_of_normal hs rfl
    cases eq_of_normal ht rfl
    exact ⟨⟨Mode.INVALID, Mode.UNOWNED, Mode.INVALID ||| Mode.UNOWNED, 0⟩, by decide⟩
  | donateShared =>
    cases eq_of_normal hs rfl
    cases eq_of_normal ht rfl
    exact ⟨⟨Mode.SHARED, Mode.UNOWNED ||| Mode.SHARED, Mode.INVALID ||| Mode.UNOWNED, 0⟩, by decide⟩
  | lend =>
    cases eq_of_normal hs rfl
    obtain hflags | hflags := flags_of_normal ht
    · exact ⟨⟨0, _, Mode.SHARED, Mode.UNOWNED ||| Mode.SHARED⟩, by decide, rfl, hflags⟩
    · exact ⟨⟨0, _, Mode.SHARED, Mode.UNOWNED ||| Mode.SHARED⟩, by decide, rfl, hflags⟩
  | relinquishLent =>
    cases eq_of_normal hs rfl
    cases eq_of_normal ht rfl
    exact ⟨⟨Mode.UNOWNED, Mode.INVALID, Mode.INVALID ||| Mode.UNOWNED ||| Mode.SHARED, 0⟩,
      by decide⟩
  | relinquishShared =>
    cases eq_of_normal hs rfl
    cases eq_of_normal ht rfl
    exact ⟨⟨Mode.UNOWNED ||| Mode.SHARED, Mode.SHARED,
      Mode.INVALID ||| Mode.UNOWNED ||| Mode.SHARED, 0⟩, by decide⟩

/-- Modes are accepted if and only if the states that they stand for are. -/
theorem spciMsgGetNextState_isSome_iff {share : SpciMemoryShare}
    {memoryToAttributes origFromMode origToMode : Mode} :
    (spciMsgGetNextState share.transitions memoryToAttributes origFromMode origToMode).isSome =
        true ↔
      ∃ s t, ShareMove share (ofMode origFromMode).normal (ofMode origToMode).normal s t := by
  constructor
  · intro h
    obtain ⟨⟨fromMode, toMode⟩, hnext⟩ := Option.isSome_iff_exists.mp h
    obtain ⟨transition, hmem, hfrom, hto, -⟩ := spciMsgGetNextState_spec hnext
    rw [hfrom, hto]
    exact ⟨_, _, (shareMove_of_transition hmem).2⟩
  · rintro ⟨s, t, hmove⟩
    obtain ⟨transition, hmem, hfrom, hto⟩ := exists_transition hmove
    rw [flags_ofMode] at hfrom hto
    rw [spciMsgGetNextState, List.findSome?_isSome_iff]
    exact ⟨transition, hmem, by rw [if_pos ⟨hfrom, hto⟩]; rfl⟩

/-! ## Requests -/

variable {fromPtable toPtable : PageTable S} {share : SpciMemoryShare} {begin endAddr : Nat}
  {memoryToAttributes : Mode}

/-- A request is accepted if and only if it is lawful and the range is homogeneous. -/
theorem spciMsgCheckTransition_isSome_iff (hS : S.Valid) (hend : endAddr < 2 ^ 64) :
    (spciMsgCheckTransition toPtable fromPtable share begin endAddr memoryToAttributes).isSome =
        true ↔
      Lawful share fromPtable toPtable begin endAddr ∧
        Homogeneous fromPtable toPtable begin endAddr := by
  constructor
  · intro h
    obtain ⟨⟨orig, fromMode, toMode⟩, h⟩ := Option.isSome_iff_exists.mp h
    rw [spciMsgCheckTransition] at h
    split at h
    · contradiction
    rename_i haligned
    simp only [isAligned, Bool.or_eq_true, Bool.not_eq_true', beq_eq_false_iff_ne, not_or,
      not_not] at haligned
    obtain ⟨orig', hfrom, h⟩ := Option.bind_eq_some_iff.mp h
    obtain ⟨origTo, hto, h⟩ := Option.bind_eq_some_iff.mp h
    obtain ⟨next, hnext, -⟩ := Option.map_eq_some_iff.mp h
    have hsender := PageTable.uniform_of_getMode hS haligned.1 haligned.2 hend hfrom
    have hrecipient := PageTable.uniform_of_getMode hS haligned.1 haligned.2 hend hto
    have hmove := spciMsgGetNextState_isSome_iff.mp (Option.isSome_of_eq_some hnext)
    refine ⟨⟨hsender.inSpace, ?_⟩, hsender.sameAttrs, hrecipient.sameAttrs⟩
    intro a hlo hhi
    rw [hsender.state hlo hhi, hrecipient.state hlo hhi]
    exact hmove
  · rintro ⟨⟨hin, hmove⟩, hsender, hrecipient⟩
    obtain ⟨orig, hfrom⟩ := PageTable.getMode_of_sameAttrs hS hin hsender
    obtain ⟨origTo, hto⟩ := PageTable.getMode_of_sameAttrs hS hin hrecipient
    have haligned : isAligned begin = true ∧ isAligned endAddr = true := by
      rw [isAligned, isAligned, pageSize_eq, hin.beginPage, hin.endPage]
      exact ⟨rfl, rfl⟩
    have hbegin := (beq_iff_eq.mp haligned.1)
    have hend' := (beq_iff_eq.mp haligned.2)
    -- the state of the first page decides
    obtain ⟨s, t, hfirst⟩ := hmove begin le_rfl hin.lt
    rw [(PageTable.uniform_of_getMode hS hbegin hend' hend hfrom).state le_rfl hin.lt,
      (PageTable.uniform_of_getMode hS hbegin hend' hend hto).state le_rfl hin.lt] at hfirst
    have hnext : (spciMsgGetNextState share.transitions memoryToAttributes orig origTo).isSome =
        true := spciMsgGetNextState_isSome_iff.mpr ⟨s, t, hfirst⟩
    rw [spciMsgCheckTransition, haligned.1, haligned.2, hfrom, hto]
    simpa using hnext

/-- Between tables in which all pages have the same states, acceptance can only differ
for a lawful request, if the range is homogeneous in one pair of tables and not in the
other.  A range that the sender owns exclusively, with the same entries, and that the
recipient has nothing to do with is accepted if and only if the recipient's entries are
the same. -/
theorem acceptance_iff (hS : S.Valid) (hend : endAddr < 2 ^ 64)
    {fromPtable' toPtable' : PageTable S}
    (hfrom : ∀ a, ofView (fromPtable.view a) = ofView (fromPtable'.view a))
    (hto : ∀ a, ofView (toPtable.view a) = ofView (toPtable'.view a)) :
    (((spciMsgCheckTransition toPtable fromPtable share begin endAddr
          memoryToAttributes).isSome = true ↔
        (spciMsgCheckTransition toPtable' fromPtable' share begin endAddr
          memoryToAttributes).isSome = true) ↔
      (Lawful share fromPtable toPtable begin endAddr →
        (Homogeneous fromPtable toPtable begin endAddr ↔
          Homogeneous fromPtable' toPtable' begin endAddr))) ∧
    (share = .donate ∨ share = .lend → InSpace S begin endAddr →
      fromPtable.SameAttrs begin endAddr →
      (∀ a, begin ≤ a → a < endAddr → ofView (fromPtable.view a) = exclusiveOwner ∧
        ofView (toPtable.view a) = .none) →
      ((spciMsgCheckTransition toPtable fromPtable share begin endAddr
          memoryToAttributes).isSome = true ↔ toPtable.SameAttrs begin endAddr)) := by
  have hlawful : Lawful share fromPtable toPtable begin endAddr ↔
      Lawful share fromPtable' toPtable' begin endAddr := by
    constructor
    · rintro ⟨hin, hmove⟩
      refine ⟨hin, ?_⟩
      intro a hlo hhi
      rw [← hfrom a, ← hto a]
      exact hmove a hlo hhi
    · rintro ⟨hin, hmove⟩
      refine ⟨hin, ?_⟩
      intro a hlo hhi
      rw [hfrom a, hto a]
      exact hmove a hlo hhi
  constructor
  · rw [spciMsgCheckTransition_isSome_iff hS hend, spciMsgCheckTransition_isSome_iff hS hend,
      ← hlawful]
    exact and_congr_right_iff
  · intro hshare hin hsame hstates
    have hpermitted : Lawful share fromPtable toPtable begin endAddr := by
      refine ⟨hin, ?_⟩
      intro a hlo hhi
      rw [(hstates a hlo hhi).1, (hstates a hlo hhi).2]
      obtain rfl | rfl := hshare
      · exact ⟨_, _, .donate⟩
      · exact ⟨_, _, .lend⟩
    rw [spciMsgCheckTransition_isSome_iff hS hend]
    constructor
    · rintro ⟨-, -, hrecipient⟩
      exact hrecipient
    · intro hrecipient
      exact ⟨hpermitted, hsame, hrecipient⟩

/-! ## A range with two encodings -/

open PageTable Aarch64

/-- The first 2 MiB are exclusive to a VM. -/
def ownerTable : PageTable exampleStage where
  root := 0x10000
  tables _ i :=
    if i = 0 then .block aarch64 1 0 (archMmModeToStage2Attrs (Mode.R ||| Mode.W ||| Mode.X))
    else .absent aarch64 1

/-- The pages of a VM that once had the second page and has given it away. -/
def giverPages : RawPageTable 0 := fun j =>
  if j = 1 then .block aarch64 0 0x1000 (archMmModeToStage2Attrs (Mode.INVALID ||| Mode.UNOWNED))
  else .absent aarch64 0

def giverTable : PageTable exampleStage where
  root := 0x11000
  tables _ i :=
    if i = 0 then .table (archMmTablePte 1 0x20000) giverPages else .absent aarch64 1

theorem view_giverPages (a : Nat) (j : Fin 512) : ((giverPages j).lookup a).view = Option.none := by
  rw [giverPages]
  split
  · rw [block, lookup_leaf]
    exact Leaf.view_of_not_present (by decide)
  · exact view_absent a

theorem view_giverTable (a : Nat) : giverTable.view a = Option.none := by
  refine view_ind (P := (· = Option.none)) _ _ rfl fun t i => ?_
  by_cases hi : i = 0
  · have htable : giverTable.tables t i = .table (archMmTablePte 1 0x20000) giverPages := if_pos hi
    rw [htable]
    exact view_giverPages a _
  · have habsent : giverTable.tables t i = .absent aarch64 1 := if_neg hi
    rw [habsent]
    exact view_absent a

theorem acceptance_iff_encodings :
    Lawful .donate ownerTable emptyTable 0 0x2000 ∧
      ¬(Homogeneous ownerTable emptyTable 0 0x2000 ↔
        Homogeneous ownerTable giverTable 0 0x2000) := by
  have hstates : ∀ a, ofView (emptyTable.view a) = ofView (giverTable.view a) := by
    intro a
    rw [view_emptyTable, view_giverTable]
  have hdiffer : ¬((spciMsgCheckTransition emptyTable ownerTable .donate 0 0x2000 0#32).isSome =
        true ↔
      (spciMsgCheckTransition giverTable ownerTable .donate 0 0x2000 0#32).isSome = true) := by
    decide +kernel
  apply Classical.not_imp.mp
  intro h
  exact hdiffer ((acceptance_iff valid_exampleStage (by decide) (fun _ => rfl) hstates).1.mpr h)

/-- Two tables of a recipient that has nothing to do with any page: the range is
accepted with one of them and refused with the other. -/
theorem two_encodings_refused :
    (∀ a, ofView (emptyTable.view a) = ofView (giverTable.view a)) ∧
      ∀ share ∈ [SpciMemoryShare.donate, .lend],
        (spciMsgCheckTransition emptyTable ownerTable share 0 0x2000 0#32).isSome = true ∧
          (spciMsgCheckTransition giverTable ownerTable share 0 0x2000 0#32).isSome = false := by
  constructor
  · intro a
    rw [view_emptyTable, view_giverTable]
  · decide +kernel

end Hafnium
