import Hafnium.Arch.Fake
import Hafnium.Mm.Preservation

/-!
# Completeness of defragmentation

`defrag` should leave no table that an absent entry or a block could replace.  For
blocks it does.  An absent entry, however, reports no attributes, so a table of
absent entries stays; only tables of pages that still read as blocks although they
are not present are emptied.  `defrag_complete_iff` says for which page tables
defragmentation is complete, for both encodings of entries.
-/

namespace Hafnium

open Support PageTableEntry Aarch64

/-! ## Encodings -/

/-- What defragmentation relies on in an encoding of entries, for page tables with
entries up to `maxLevel`. -/
structure ArchMm.Mergeable (A : ArchMm) (maxLevel : Nat) : Prop where
  present_of_block : ∀ w level, A.pteIsBlock w (level + 1) = true →
    A.pteIsPresent w (level + 1) = true
  present_attrs : ∀ w level, A.pteIsPresent (A.pteAttrs w level) 0 = A.pteIsPresent w level
  present_level : ∀ attrs level, level + 1 < maxLevel →
    A.pteIsPresent attrs level = A.pteIsPresent attrs 0
  not_present_absent : ∀ level, level ≤ maxLevel → A.pteIsPresent (A.absentPte level) level = false
  attrs_block : ∀ u w v level, level + 1 ≤ maxLevel →
    A.pteAttrs (A.blockPte (level + 1) (A.blockFromPte u level)
        (A.combineTableEntryAttrs (A.pteAttrs w (level + 1)) (A.pteAttrs v level))) (level + 1) =
      A.combineTableEntryAttrs (A.pteAttrs w (level + 1)) (A.pteAttrs v level)
  /-- Where a page can read as a block without being present, absent entries have no
  attributes of present ones. -/
  not_present_attrs_absent : ∀ w, A.pteIsBlock w 0 = true → A.pteIsPresent w 0 = false →
    ∀ level, A.pteIsPresent (A.pteAttrs (A.absentPte level) level) level = false

theorem mergeable_aarch64 (maxLevel : Nat) : aarch64.Mergeable maxLevel where
  present_of_block := by
    intro w level h
    rw [aarch64_pteIsBlock, archMmPteIsBlock_succ] at h
    simp only [Bool.and_eq_true] at h
    exact h.1.2
  present_attrs := fun w level => archMmPteIsPresent_pteAttrs w level 0
  present_level := fun _ _ _ => rfl
  not_present_absent := fun level _ => archMmPteIsPresent_absent level
  attrs_block := by
    intro u w v level _
    exact archMmPteAttrs_blockPte (isPa_tableFromPte u level)
      (attrsOk_combine (archMmPteAttrs w (level + 1))
        (attrsOk_pteAttrs v level)) (level + 1) (level + 1)
  not_present_attrs_absent := by
    intro _ _ _ level
    exact (archMmPteIsPresent_pteAttrs _ level level).trans
      (archMmPteIsPresent_absent level)

theorem mergeable_fake {maxLevel : Nat} (h : maxLevel ≤ 2) : fake.Mergeable maxLevel where
  present_of_block := by
    intro w level hblock
    rw [fake_pteIsBlock, Fake.archMmPteIsBlock, Bool.and_eq_true] at hblock
    exact hblock.1
  present_attrs := Fake.archMmPteIsPresent_pteAttrs
  present_level := by
    intro attrs level hlevel
    have hzero : level = 0 := by omega
    rw [hzero]
  not_present_absent := fun level hlevel => Fake.archMmPteIsPresent_absent (hlevel.trans h)
  attrs_block := by
    intro u w v level hlevel
    apply Fake.archMmPteAttrs_blockPte (hlevel.trans h)
    simp only [fake_combineTableEntryAttrs, Fake.archMmCombineTableEntryAttrs, fake_pteAttrs,
      Fake.archMmPteAttrs]
    rw [BitVec.and_or_distrib_right, BitVec.and_assoc, BitVec.and_assoc, BitVec.and_self]
  not_present_attrs_absent := by
    intro w hblock hpresent
    rw [fake_pteIsBlock, Fake.archMmPteIsBlock, Bool.and_eq_true] at hblock
    rw [fake_pteIsPresent, hblock.1] at hpresent
    contradiction

/-- The encodings of entries. -/
inductive Backend
  | aarch64
  | fake
  deriving DecidableEq, Repr

namespace Backend

def arch : Backend → ArchMm
  | aarch64 => Hafnium.aarch64
  | fake => Hafnium.fake

/-- The entry refers to a table.  Only the descriptors of aarch64 can have
attributes. -/
def IsDescriptor : Backend → Pte → Nat → Prop
  | aarch64, w, level => archMmPteIsTable w level = true
  | fake, w, level => Fake.archMmPteIsTable w level = true ∧ Fake.archMmPteAttrs w level = 0#64

/-- The page tables of an encoding: the fake one has at most two levels below the
root. -/
def Supports (b : Backend) (S : Stage) : Prop := b = fake → S.maxLevel ≤ 2

theorem mergeable {b : Backend} {S : Stage} (h : b.Supports S) : b.arch.Mergeable S.maxLevel := by
  cases b with
  | aarch64 => exact mergeable_aarch64 _
  | fake => exact mergeable_fake (h rfl)

theorem IsDescriptor.isBlock {b : Backend} {w : Pte} {level : Nat} (h : b.IsDescriptor w level) :
    b.arch.pteIsBlock w level = false := by
  cases b with
  | aarch64 => exact archMmPteIsBlock_of_isTable h
  | fake =>
    change Fake.archMmPteIsBlock w level = false
    rw [Fake.archMmPteIsBlock, h.1, Bool.not_true, Bool.and_false]

theorem IsDescriptor.isPresent {b : Backend} {w : Pte} {level : Nat}
    (h : b.IsDescriptor w level) : b.arch.pteIsPresent w level = true := by
  cases b with
  | aarch64 => exact archMmPteIsPresent_of_isTable h
  | fake =>
    change Fake.archMmPteIsPresent w level = true
    rw [← Fake.archMmPteIsPresent_pteAttrs, h.2]
    decide

theorem IsDescriptor.combine {b : Backend} {w : Pte} {level : Nat} (h : b.IsDescriptor w level)
    (attrs : BitVec 64) :
    b.arch.pteIsPresent (b.arch.combineTableEntryAttrs (b.arch.pteAttrs w level) attrs) 0 =
      b.arch.pteIsPresent attrs 0 := by
  cases b with
  | aarch64 => exact archMmPteIsPresent_combine _ _ _
  | fake =>
    change Fake.archMmPteIsPresent (Fake.archMmCombineTableEntryAttrs _ attrs) 0 = _
    rw [Fake.archMmCombineTableEntryAttrs]
    change Fake.archMmPteIsPresent (Fake.archMmPteAttrs w level ||| attrs) 0 = _
    rw [h.2, BitVec.zero_or]
    rfl

end Backend

/-! ## Tables -/

namespace PageTableEntry

variable (A : ArchMm) {level : Nat}

/-- Holds of all tables below an entry. -/
def AllTables (P : {level : Nat} → Pte → RawPageTable level → Prop) :
    {level : Nat} → PageTableEntry level → Prop
  | _, leaf _ => True
  | _ + 1, table w es => P w es ∧ ∀ i, (es i).AllTables P

/-- No entry below is present. -/
def Vacant : {level : Nat} → PageTableEntry level → Prop
  | level, leaf w => A.pteIsPresent w level = false
  | _ + 1, table _ es => ∀ i, (es i).Vacant

/-- All leaves below still read as blocks, and those of the same table have the same
attributes. -/
def Stale : {level : Nat} → PageTableEntry level → Prop
  | level, leaf w => A.pteIsBlock w level = true
  | level + 1, table _ es =>
    (∀ i, (es i).Stale) ∧
      ∀ i j w w', es i = leaf w → es j = leaf w' → A.pteAttrs w level = A.pteAttrs w' level

/-- An entry for the addresses from `base` on is well-formed: present entries are
descriptors of tables, or blocks that map the addresses of their position. -/
def WellFormed (b : Backend) : {level : Nat} → Nat → PageTableEntry level → Prop
  | level, base, leaf w =>
    b.arch.pteIsTable w level = false ∧ (b.arch.pteIsPresent w level = true →
        b.arch.pteIsBlock w level = true ∧ b.arch.blockFromPte w level = base)
  | level + 1, base, table w es =>
    b.IsDescriptor w (level + 1) ∧ ∀ i, (es i).WellFormed b (slotBase base (entrySize level) i)

end PageTableEntry

namespace RawPageTable

variable (A : ArchMm) {level : Nat}

/-- A table that defragmentation has to keep: not all of its entries are absent and,
where blocks are allowed, its entries are not all blocks with the same attributes. -/
def Needed (_ : Pte) (self : RawPageTable level) : Prop :=
  (¬∀ i, (self i).isPresent A = false) ∧ ¬(A.isBlockAllowed (level + 1) = true ∧ ∃ attrs, ∀ i,
      (self i).isPresent A = true ∧ (self i).isBlock A = true ∧ (self i).attrs A = attrs)

/-- A table without present entries below it that defragmentation can detect. -/
def Collapsible (w : Pte) (self : RawPageTable level) : Prop :=
  (table w self).Vacant A → (table w self).Stale A

end RawPageTable

namespace PageTableEntry

open RawPageTable

variable {A : ArchMm} {level maxLevel : Nat}

/-- What the proofs below use of a well-formed entry. -/
def Shaped (A : ArchMm) : {level : Nat} → PageTableEntry level → Prop
  | level, leaf w => A.pteIsPresent w level = true → A.pteIsBlock w level = true
  | level + 1, table w es =>
    (A.pteIsBlock w (level + 1) = false ∧ A.pteIsPresent w (level + 1) = true ∧
      ∀ attrs, A.pteIsPresent (A.combineTableEntryAttrs (A.pteAttrs w (level + 1)) attrs) 0 =
        A.pteIsPresent attrs 0) ∧ ∀ i, (es i).Shaped A
variable {w : Pte}

theorem vacant_leaf :
    (leaf w : PageTableEntry level).Vacant A ↔ A.pteIsPresent w level = false := by
  cases level <;> rfl

theorem stale_leaf : (leaf w : PageTableEntry level).Stale A ↔ A.pteIsBlock w level = true := by
  cases level <;> rfl

theorem shaped_leaf : (leaf w : PageTableEntry level).Shaped A ↔
    (A.pteIsPresent w level = true → A.pteIsBlock w level = true) := by
  cases level <;> rfl

theorem allTables_leaf (P : {level : Nat} → Pte → RawPageTable level → Prop) (w : Pte) :
    (leaf w : PageTableEntry level).AllTables P := by
  cases level <;> exact trivial

theorem shaped_of_wellFormed {b : Backend} {base : Nat} {e : PageTableEntry level}
    (h : e.WellFormed b base) : e.Shaped b.arch := by
  induction e generalizing base with
  | @leaf level w =>
    rw [shaped_leaf]
    intro hpresent
    have hleaf : b.arch.pteIsTable w level = false ∧ (b.arch.pteIsPresent w level = true →
        b.arch.pteIsBlock w level = true ∧ b.arch.blockFromPte w level = base) := by
      cases level <;> exact h
    exact (hleaf.2 hpresent).1
  | @table level w es ih =>
    exact ⟨⟨h.1.isBlock, h.1.isPresent, h.1.combine⟩, fun i => ih i (h.2 i)⟩

/-! ## What becomes of a table -/

theorem merging_defragResult {es : RawPageTable level} (hs : (table w es).Shaped A) :
    Merging A w (fun i => (es i).defragResult A) ((table w es).defragResult A) := by
  rw [defragResult_table_eq, hs.1.1, if_neg Bool.false_ne_true]
  exact merging_mergeResult A w _

/-- If a table reports attributes, all of its entries report the same ones. -/
theorem entries_of_reported {es : RawPageTable level} (hs : (table w es).Shaped A)
    {attrs : BitVec 64} (h : ((table w es).defragResult A).1 = some attrs) :
    ∃ a, ∀ i, ((es i).defragResult A).1 = some a := by
  have hmerging := merging_defragResult hs
  generalize (table w es).defragResult A = r at h hmerging
  cases hmerging with
  | stays _ => contradiction
  | emptied hc _ => exact ⟨_, hc⟩
  | merged hc _ _ => exact ⟨_, hc⟩

/-- A table that reports nothing stays. -/
theorem stays_of_unreported {es : RawPageTable level} (hs : (table w es).Shaped A)
    (h : ((table w es).defragResult A).1 = none) :
    ((table w es).defragResult A).2 = table w (fun i => ((es i).defragResult A).2) ∧
      ∀ a, (∀ i, ((es i).defragResult A).1 = some a) →
        A.pteIsPresent a level = true ∧ A.isBlockAllowed (level + 1) = false := by
  have hmerging := merging_defragResult hs
  generalize (table w es).defragResult A = r at h hmerging ⊢
  cases hmerging with
  | stays hstays => exact ⟨rfl, hstays⟩
  | emptied _ _ => contradiction
  | merged _ _ _ => contradiction

/-- An entry that reports attributes has become a leaf with these attributes. -/
theorem leaf_of_reported (hA : A.Mergeable maxLevel) {e : PageTableEntry level} (hs : e.Shaped A)
    (hlevel : level ≤ maxLevel) {attrs : BitVec 64} (h : (e.defragResult A).1 = some attrs) :
    ∃ w, (e.defragResult A).2 = leaf w ∧ A.pteAttrs w level = attrs := by
  induction e generalizing attrs with
  | @leaf level w =>
    rw [defragResult_leaf] at h ⊢
    refine ⟨w, rfl, ?_⟩
    split at h
    · exact Option.some.inj h
    · contradiction
  | @table level w es ih =>
    have hmerging := merging_defragResult hs
    generalize (table w es).defragResult A = r at h hmerging ⊢
    cases hmerging with
    | stays _ => contradiction
    | emptied _ _ =>
      cases h
      exact ⟨_, rfl, rfl⟩
    | @merged a hc _ _ =>
      cases h
      obtain ⟨v, -, hv⟩ := ih 0 (hs.2 0) (by omega) (hc 0)
      refine ⟨_, rfl, ?_⟩
      rw [← hv]
      exact hA.attrs_block _ _ _ _ hlevel

/-- An entry that reports nothing is no block. -/
theorem isBlock_of_unreported {e : PageTableEntry level} (hs : e.Shaped A)
    (h : (e.defragResult A).1 = none) : (e.defragResult A).2.isBlock A = false := by
  cases e with
  | leaf w =>
    rw [defragResult_leaf] at h ⊢
    split at h
    · contradiction
    · next hblock => exact Bool.eq_false_iff.mpr hblock
  | table w es =>
    rw [(stays_of_unreported hs h).1]
    exact hs.1.1

/-- Whether attributes that an entry reports are those of present memory. -/
theorem isPresent_of_reported (hA : A.Mergeable maxLevel) {e : PageTableEntry level}
    (hs : e.Shaped A) (hlevel : level ≤ maxLevel) {attrs : BitVec 64}
    (h : (e.defragResult A).1 = some attrs) :
    (e.defragResult A).2.isPresent A = A.pteIsPresent attrs 0 := by
  obtain ⟨w, hleaf, hattrs⟩ := leaf_of_reported hA hs hlevel h
  rw [hleaf, ← hattrs, hA.present_attrs]
  rfl

/-! ## Entries that are not present -/

/-- What has become absent had no present entry below it. -/
theorem vacant_of_not_present (hA : A.Mergeable maxLevel) {e : PageTableEntry level}
    (hs : e.Shaped A) (hlevel : level < maxLevel)
    (h : (e.defragResult A).2.isPresent A = false) : e.Vacant A := by
  induction e with
  | leaf w =>
    rw [defragResult_leaf] at h
    exact vacant_leaf.mpr h
  | @table level w es ih =>
    have hmerging := merging_defragResult hs
    generalize (table w es).defragResult A = r at h hmerging
    cases hmerging with
    | stays _ =>
      have hpresent : A.pteIsPresent w (level + 1) = true := hs.1.2.1
      cases h.symm.trans hpresent
    | @emptied a hc ha =>
      intro i
      apply ih i (hs.2 i) (by omega)
      rw [isPresent_of_reported hA (hs.2 i) (by omega) (hc i), ← hA.present_level a level hlevel]
      exact ha
    | @merged a hc ha _ =>
      -- the new block is present because the attributes that were reported are
      obtain ⟨v, -, hv⟩ := leaf_of_reported hA (hs.2 0) (by omega) (hc 0)
      have hblock := hA.attrs_block ((es 0).defragResult A).2.inner w v level (by omega)
      rw [hv] at hblock
      have hpresent := hA.present_attrs (A.blockPte (level + 1)
        (A.blockFromPte ((es 0).defragResult A).2.inner level)
        (A.combineTableEntryAttrs (A.pteAttrs w (level + 1)) a)) (level + 1)
      rw [hblock, hs.1.2.2, ← hA.present_level a level hlevel, ha] at hpresent
      cases h.symm.trans hpresent.symm

/-- If an entry without present entries below it reports attributes, its leaves read
as blocks. -/
theorem stale_of_reported {e : PageTableEntry level} (hs : e.Shaped A) (hvacant : e.Vacant A)
    {attrs : BitVec 64} (h : (e.defragResult A).1 = some attrs) : e.Stale A := by
  have hleaf : ∀ {level : Nat} {w : Pte} {attrs : BitVec 64},
      ((leaf w : PageTableEntry level).defragResult A).1 = some attrs →
        A.pteIsBlock w level = true ∧ A.pteAttrs w level = attrs := by
    intro level w attrs h
    rw [defragResult_leaf] at h
    split at h
    · next hblock => exact ⟨hblock, Option.some.inj h⟩
    · contradiction
  induction e generalizing attrs with
  | leaf w => exact stale_leaf.mpr (hleaf h).1
  | @table level w es ih =>
    obtain ⟨a, hc⟩ := entries_of_reported hs h
    constructor
    · intro i
      exact ih i (hs.2 i) (hvacant i) (hc i)
    · intro i j w w' hi hj
      have hwi := hc i
      have hwj := hc j
      rw [hi] at hwi
      rw [hj] at hwj
      rw [(hleaf hwi).2, (hleaf hwj).2]

/-- Only pages read as blocks without being present. -/
theorem exists_stale_page (hA : A.Mergeable maxLevel) {e : PageTableEntry level}
    (hvacant : e.Vacant A) (hstale : e.Stale A) :
    ∃ w, A.pteIsBlock w 0 = true ∧ A.pteIsPresent w 0 = false := by
  induction e with
  | @leaf level w =>
    rw [vacant_leaf] at hvacant
    rw [stale_leaf] at hstale
    cases level with
    | zero => exact ⟨w, hstale, hvacant⟩
    | succ level =>
      cases hvacant.symm.trans (hA.present_of_block w level hstale)
  | table w es ih => exact ih 0 (hvacant 0) (hstale.1 0)

/-- The attributes that a stale entry reports. -/
def staleAttrs (A : ArchMm) : PageTableEntry level → BitVec 64
  | leaf w => A.pteAttrs w level
  | table _ _ => (absent A level).attrs A

/-- The entries of a stale table are pages with equal attributes, or tables that were
all emptied. -/
theorem same_of_stale (hA : A.Mergeable maxLevel) {es : RawPageTable level}
    (hs : (table w es).Shaped A) (hlevel : level + 1 ≤ maxLevel) (hvacant : (table w es).Vacant A)
    (hstale : (table w es).Stale A)
    (h : ∀ i, ((es i).defragResult A).1 = some ((es i).staleAttrs A) ∧
      ((es i).defragResult A).2.isPresent A = false) :
    ∃ a, (∀ i, ((es i).defragResult A).1 = some a) ∧ A.pteIsPresent a level = false := by
  cases level with
  | zero =>
    refine ⟨(es 0).staleAttrs A, ?_, ?_⟩
    · intro i
      rw [(h i).1]
      obtain ⟨v, hi⟩ : ∃ v, es i = leaf v := by cases es i; exact ⟨_, rfl⟩
      obtain ⟨u, hzero⟩ : ∃ u, es 0 = leaf u := by cases es 0; exact ⟨_, rfl⟩
      rw [hi, hzero]
      exact congrArg some (hstale.2 i 0 v u hi hzero)
    · rw [← isPresent_of_reported hA (hs.2 0) (by omega) (h 0).1]
      exact (h 0).2
  | succ level =>
    refine ⟨(absent A (level + 1)).attrs A, ?_, ?_⟩
    · intro i
      rw [(h i).1]
      have hvacant_i := hvacant i
      have hstale_i := hstale.1 i
      cases hi : es i with
      | leaf v =>
        rw [hi, vacant_leaf] at hvacant_i
        rw [hi, stale_leaf] at hstale_i
        cases hvacant_i.symm.trans (hA.present_of_block v level hstale_i)
      | table v es' => rfl
    · obtain ⟨v, hblock, hpresent⟩ := exists_stale_page hA hvacant hstale
      exact hA.not_present_attrs_absent v hblock hpresent (level + 1)

/-- An entry of which all leaves are stale is emptied. -/
theorem emptied_of_stale (hA : A.Mergeable maxLevel) {e : PageTableEntry level} (hs : e.Shaped A)
    (hlevel : level ≤ maxLevel) (hvacant : e.Vacant A) (hstale : e.Stale A) :
    (e.defragResult A).1 = some (e.staleAttrs A) ∧ (e.defragResult A).2.isPresent A = false := by
  induction e with
  | leaf w =>
    rw [vacant_leaf] at hvacant
    rw [stale_leaf] at hstale
    rw [defragResult_leaf, if_pos hstale]
    exact ⟨rfl, hvacant⟩
  | @table level w es ih =>
    have hentries := fun i => ih i (hs.2 i) (by omega) (hvacant i) (hstale.1 i)
    obtain ⟨a, hc, ha⟩ := same_of_stale hA hs hlevel hvacant hstale hentries
    have hmerging := merging_defragResult hs
    generalize (table w es).defragResult A = r at hmerging ⊢
    cases hmerging with
    | stays hstays => cases ha.symm.trans (hstays a hc).1
    | emptied _ _ => exact ⟨rfl, hA.not_present_absent _ hlevel⟩
    | @merged a' hc' ha' _ =>
      cases Option.some.inj ((hc 0).symm.trans (hc' 0))
      cases ha.symm.trans ha'

/-! ## Completeness -/

theorem isPresent_of_collapsible (hA : A.Mergeable maxLevel) {e : PageTableEntry level}
    (hs : e.Shaped A) (hlevel : level ≤ maxLevel) (hvacant : e.Vacant A)
    (h : e.AllTables (Collapsible A)) : (e.defragResult A).2.isPresent A = false := by
  cases e with
  | leaf w =>
    rw [defragResult_leaf]
    exact vacant_leaf.mp hvacant
  | table w es => exact (emptied_of_stale hA hs hlevel hvacant (h.1 hvacant)).2

/-- A table that stays is needed, unless all that is below it is absent and this goes
unnoticed. -/
theorem needed_iff (hA : A.Mergeable maxLevel) {es : RawPageTable level}
    (hs : (table w es).Shaped A) (hlevel : level + 1 ≤ maxLevel)
    (hreport : ((table w es).defragResult A).1 = none)
    (hentries : ∀ i, (es i).AllTables (Collapsible A)) :
    Needed A w (fun i => ((es i).defragResult A).2) ↔ Collapsible A w es := by
  constructor
  · intro hneeded hvacant
    apply absurd _ hneeded.1
    intro i
    exact isPresent_of_collapsible hA (hs.2 i) (by omega) (hvacant i) (hentries i)
  · intro hcollapsible
    constructor
    · intro habsent
      have hvacant : (table w es).Vacant A := fun i =>
        vacant_of_not_present hA (hs.2 i) (by omega) (habsent i)
      have hreported := emptied_of_stale hA hs hlevel hvacant (hcollapsible hvacant)
      cases hreport.symm.trans hreported.1
    · rintro ⟨hallowed, attrs, hblocks⟩
      have hall : ∀ i, ((es i).defragResult A).1 = some attrs := by
        intro i
        obtain ⟨-, hblock, hattrs⟩ := hblocks i
        cases hr : ((es i).defragResult A).1 with
        | none => cases hblock.symm.trans (isBlock_of_unreported (hs.2 i) hr)
        | some a =>
          obtain ⟨v, hleaf, hv⟩ := leaf_of_reported hA (hs.2 i) (by omega) hr
          dsimp only at hattrs
          rw [hleaf] at hattrs
          rw [← hv, ← hattrs]
          rfl
      have hforbidden := ((stays_of_unreported hs hreport).2 attrs hall).2
      cases hallowed.symm.trans hforbidden

theorem allTables_defragResult_iff (hA : A.Mergeable maxLevel) {e : PageTableEntry level}
    (hs : e.Shaped A) (hlevel : level ≤ maxLevel) :
    (e.defragResult A).2.AllTables (Needed A) ↔ e.AllTables (Collapsible A) := by
  induction e with
  | leaf w =>
    rw [defragResult_leaf]
    exact iff_of_true (allTables_leaf _ w) (allTables_leaf _ w)
  | @table level w es ih =>
    have hentries := fun i => ih i (hs.2 i) (by omega)
    cases hr : ((table w es).defragResult A).1 with
    | some attrs =>
      -- the table is gone, and its entries had become leaves
      obtain ⟨v, hleaf, -⟩ := leaf_of_reported hA hs hlevel hr
      obtain ⟨a, hc⟩ := entries_of_reported hs hr
      rw [hleaf]
      apply iff_of_true (allTables_leaf _ v)
      constructor
      · intro hvacant
        exact stale_of_reported hs hvacant hr
      · intro i
        apply (hentries i).mp
        obtain ⟨v, hleaf, -⟩ := leaf_of_reported hA (hs.2 i) (by omega) (hc i)
        rw [hleaf]
        exact allTables_leaf _ v
    | none =>
      rw [(stays_of_unreported hs hr).1]
      constructor
      · rintro ⟨hneeded, hbelow⟩
        have hbelow' := fun i => (hentries i).mp (hbelow i)
        exact ⟨(needed_iff hA hs hlevel hr hbelow').mp hneeded, hbelow'⟩
      · rintro ⟨hcollapsible, hbelow⟩
        exact ⟨(needed_iff hA hs hlevel hr hbelow).mpr hcollapsible,
          fun i => (hentries i).mpr (hbelow i)⟩

/-- A table of absent entries stays, as these do not report that they are absent. -/
theorem not_allTables_hollow {w v : Pte}
    (hs : (table w fun _ => (leaf v : PageTableEntry level)).Shaped A)
    (hpresent : A.pteIsPresent v level = false) (hblock : A.pteIsBlock v level = false) :
    ¬((table w fun _ => (leaf v : PageTableEntry level)).defragResult A).2.AllTables
      (Needed A) := by
  intro hneeded
  have hnone : ((table w fun _ => (leaf v : PageTableEntry level)).defragResult A).1 = none := by
    rw [Option.eq_none_iff_forall_ne_some]
    intro attrs hreported
    have hstale := stale_of_reported hs (fun _ => vacant_leaf.mpr hpresent) hreported
    cases hblock.symm.trans (stale_leaf.mp (hstale.1 0))
  rw [(stays_of_unreported hs hnone).1] at hneeded
  apply hneeded.1.1
  intro i
  rw [defragResult_leaf]
  exact hpresent

end PageTableEntry

namespace PageTable

variable {S : Stage}

/-- Every entry of the root tables is well-formed. -/
def WellFormed (b : Backend) (pt : PageTable S) : Prop :=
  ∀ t i, (pt.tables t i).WellFormed b (slotBase (S.rootBase t) (entrySize S.maxLevel) i)

/-- No table can be replaced by an absent entry or by a block. -/
def Complete (A : ArchMm) (pt : PageTable S) : Prop :=
  ∀ t i, (pt.tables t i).AllTables (RawPageTable.Needed A)

/-- Every table without present entries below it consists of pages that still read as
blocks, with the same attributes in each table. -/
def Collapsible (A : ArchMm) (pt : PageTable S) : Prop :=
  ∀ t i, (pt.tables t i).AllTables (RawPageTable.Collapsible A)

/-- Defragmentation is complete for exactly the page tables in which it can detect
the tables without present entries. -/
theorem defrag_complete_iff {b : Backend} (hS : b.Supports S) {pt : PageTable S}
    (hwf : pt.WellFormed b) (mpool : MPool) :
    (pt.defrag b.arch mpool).1.Complete b.arch ↔ pt.Collapsible b.arch := by
  have hentry : ∀ t i, ((pt.defrag b.arch mpool).1.tables t i).AllTables
        (RawPageTable.Needed b.arch) ↔
      (pt.tables t i).AllTables (RawPageTable.Collapsible b.arch) := by
    intro t i
    rw [defrag_tables]
    exact allTables_defragResult_iff (Backend.mergeable hS)
      (shaped_of_wellFormed (hwf t i)) le_rfl
  constructor
  · intro h t i
    exact (hentry t i).mp (h t i)
  · intro h t i
    exact (hentry t i).mpr (h t i)

/-- One table, with the same page entry everywhere; all other memory is absent. -/
def uniformTable (b : Backend) (w : Pte) : PageTable exampleStage where
  root := 0x10000
  tables _ i :=
    if i = 0 then .table (b.arch.tablePte 1 0x2000) fun _ => .leaf w else .absent b.arch 1

theorem uniformTable_zero (b : Backend) (w : Pte) (t : Fin exampleStage.rootTableCount) :
    (uniformTable b w).tables t 0 = .table (b.arch.tablePte 1 0x2000) fun _ => .leaf w := rfl

theorem uniformTable_of_ne {b : Backend} {w : Pte} {t : Fin exampleStage.rootTableCount}
    {i : Fin 512} (h : i ≠ 0) : (uniformTable b w).tables t i = .absent b.arch 1 := if_neg h

theorem wellFormed_uniformTable {b : Backend} {w : Pte} (htable : b.arch.pteIsTable w 0 = false)
    (hpresent : b.arch.pteIsPresent w 0 = false) : (uniformTable b w).WellFormed b := by
  intro t i
  by_cases hi : i = 0
  · subst hi
    rw [uniformTable_zero]
    constructor
    · cases b with
      | aarch64 =>
        change archMmPteIsTable (archMmTablePte 1 0x2000) 1 = true
        decide
      | fake =>
        change Fake.archMmPteIsTable (Fake.archMmTablePte 1 0x2000) 1 = true ∧
          Fake.archMmPteAttrs (Fake.archMmTablePte 1 0x2000) 1 = 0#64
        decide
    · intro _
      exact ⟨htable, fun h => absurd (hpresent.symm.trans h) nofun⟩
  · rw [uniformTable_of_ne hi]
    cases b with
    | aarch64 => exact ⟨by decide, fun h => absurd h (by decide)⟩
    | fake => exact ⟨by decide, fun h => absurd h (by decide)⟩

/-- A page that still reads as a block. -/
def stalePte : Pte := pteLevel0Block

theorem defrag_complete_iff_stale :
    (uniformTable .aarch64 stalePte).WellFormed .aarch64 ∧
      ((uniformTable .aarch64 stalePte).defrag aarch64 examplePool).1.Complete aarch64 := by
  have hwf : (uniformTable .aarch64 stalePte).WellFormed .aarch64 :=
    wellFormed_uniformTable (by decide) (by decide)
  constructor
  · exact hwf
  · apply (defrag_complete_iff (b := .aarch64) nofun hwf examplePool).mpr
    intro t i
    by_cases hi : i = 0
    · subst hi
      rw [uniformTable_zero]
      constructor
      · intro _
        constructor
        · intro _
          exact stale_leaf.mpr (by decide)
        · rintro _ _ _ _ ⟨⟩ ⟨⟩
          rfl
      · intro _
        exact allTables_leaf _ _
    · rw [uniformTable_of_ne hi]
      exact allTables_leaf _ _

theorem not_complete_hollow {b : Backend} (hwf : (uniformTable b (b.arch.absentPte 0)).WellFormed b)
    (hpresent : b.arch.pteIsPresent (b.arch.absentPte 0) 0 = false)
    (hblock : b.arch.pteIsBlock (b.arch.absentPte 0) 0 = false) :
    ¬((uniformTable b (b.arch.absentPte 0)).defrag b.arch examplePool).1.Complete b.arch := by
  intro hcomplete
  have hroot : 0 < exampleStage.rootTableCount := by decide
  have hneeded := hcomplete ⟨0, hroot⟩ 0
  rw [defrag_tables] at hneeded
  exact not_allTables_hollow
    (shaped_of_wellFormed (hwf ⟨0, hroot⟩ 0)) hpresent hblock hneeded

theorem hollow_table_stays :
    ((uniformTable .aarch64 (aarch64.absentPte 0)).WellFormed .aarch64 ∧
      ¬((uniformTable .aarch64 (aarch64.absentPte 0)).defrag aarch64 examplePool).1.Complete
        aarch64) ∧
    (uniformTable .fake (fake.absentPte 0)).WellFormed .fake ∧
      ¬((uniformTable .fake (fake.absentPte 0)).defrag fake examplePool).1.Complete fake := by
  have haarch64 : (uniformTable .aarch64 (aarch64.absentPte 0)).WellFormed .aarch64 :=
    wellFormed_uniformTable (by decide) (by decide)
  have hfake : (uniformTable .fake (fake.absentPte 0)).WellFormed .fake :=
    wellFormed_uniformTable (by decide) (by decide)
  exact ⟨⟨haarch64, not_complete_hollow (b := .aarch64) haarch64 (by decide) (by decide)⟩,
    hfake, not_complete_hollow (b := .fake) hfake (by decide) (by decide)⟩

end PageTable
end Hafnium
