import Hafnium.Mm.Completeness

/-!
# Splitting blocks

`populate_table` replaces a block by a table of smaller blocks.  Their addresses are
counted from the word of the entry instead of from the address it stands for.  On
aarch64 the word is the address with attribute bits that the new entries have anyway;
the fake encoding shifts the word by the level, and both the addresses and the attributes
of the new entries are wrong.
-/

namespace Hafnium

open Support PageTableEntry PageTable
open BitVec (getLsbD_and getLsbD_or ofNat)

/-- A block of a level is split into blocks of the level below with the same attributes,
at the addresses of their positions. -/
def SplitsInPlace (A : ArchMm) (level pa : Nat) (attrs : BitVec 64) : Prop :=
  ∀ mpool e' mpool', (leaf (A.blockPte (level + 1) pa attrs) :
      PageTableEntry (level + 1)).populateTable A mpool = (.ok, e', mpool') →
    ∃ w es, e' = .table w es ∧ ∀ i : Fin 512, ∃ v, es i = .leaf v ∧
      A.pteIsBlock v level = true ∧ A.pteAttrs v level = attrs ∧
      A.blockFromPte v level = pa + i * entrySize level

section

variable {A : ArchMm} {level pa : Nat} {attrs : BitVec 64}

/-- The entries of the new table tell whether a block is split in place. -/
theorem splitsInPlace_iff
    (hblock : A.pteIsBlock (A.blockPte (level + 1) pa attrs) (level + 1) = true) :
    SplitsInPlace A level pa attrs ↔ ∀ i : Fin 512,
      let v := A.blockPte level ((A.blockPte (level + 1) pa attrs).toNat + i * entrySize level)
        (A.pteAttrs (A.blockPte (level + 1) pa attrs) (level + 1))
      A.pteIsBlock v level = true ∧ A.pteAttrs v level = attrs ∧
        A.blockFromPte v level = pa + i * entrySize level := by
  constructor
  · intro h i
    obtain ⟨page, mpool', halloc⟩ : ∃ page mpool',
        examplePool.alloc = some (page, mpool') := ⟨_, _, rfl⟩
    obtain ⟨w, es, heq, hes⟩ := h _ _ _ (populateTable_leaf_some halloc)
    cases heq
    obtain ⟨v, hv, hspec⟩ := hes i
    rw [splitEntries_block hblock] at hv
    cases hv
    exact hspec
  · intro h mpool e' mpool' hpopulate
    cases halloc : mpool.alloc with
    | none =>
      rw [populateTable_leaf_none halloc] at hpopulate
      cases hpopulate
    | some p =>
      rw [populateTable_leaf_some halloc] at hpopulate
      cases hpopulate
      exact ⟨_, _, rfl, fun i => ⟨_, splitEntries_block hblock i, h i⟩⟩

end

/-! ## aarch64 -/

namespace Aarch64

theorem splitsInPlace {S : Stage} (hS : S.Fits) {level pa : Nat} {mode : Mode}
    (haligned : pa % entrySize (level + 1) = 0) (hpa : pa < S.ptableAddrSpaceEnd)
    (hblock : archMmPteIsBlock (archMmBlockPte (level + 1) pa (S.modeToAttrs aarch64 mode))
      (level + 1) = true) :
    SplitsInPlace aarch64 level pa (S.modeToAttrs aarch64 mode) := by
  apply (splitsInPlace_iff hblock).mpr
  have hattrs := attrsOk_modeToAttrs S mode
  have hisPa : IsPa pa := by
    have hfield := hS.ptableAddrSpaceEnd_le_field
    refine ⟨?_, by omega⟩
    exact Nat.mod_eq_zero_of_dvd
      ((pageSize_dvd_entrySize _).trans (Nat.dvd_of_mod_eq_zero haligned))
  have haddr := archMmBlockFromPte_blockPte hisPa hattrs (level + 1) (level + 1)
  have hread := archMmPteAttrs_blockPte hisPa hattrs (level + 1) (level + 1)
  have htable := archMmPteIsTable_blockPte hisPa hattrs (level + 1)
  rw [archMmPteIsBlock_succ, Bool.and_eq_true, Bool.and_eq_true] at hblock
  obtain ⟨⟨hallowed, hpresent⟩, -⟩ := hblock
  have hallowed' : archMmIsBlockAllowed level = true := by
    simp only [archMmIsBlockAllowed, decide_eq_true_eq] at hallowed ⊢
    omega
  intro i
  obtain ⟨hlt, hoffset⟩ := isPa_offset i.isLt hallowed
  have hbase : archMmBlockFromPte (archMmBlockPte (level + 1) pa (S.modeToAttrs aarch64 mode))
      (level + 1) % 2 ^ (12 + 9 * (level + 1)) = 0 := by
    rwa [haddr, ← entrySize_eq]
  refine ⟨archMmPteIsBlock_splitPte hbase hlt hoffset htable hpresent hallowed', ?_, ?_⟩
  · exact (archMmPteAttrs_splitPte hbase hlt hoffset level).trans hread
  · have h := archMmBlockFromPte_splitPte hbase hlt hoffset level
    rwa [haddr] at h

end Aarch64

/-! ## The fake encoding -/

namespace Fake

theorem pteAddrMask_getLsbD :
    ∀ i < 64, pteAddrMask.getLsbD i = decide (12 ≤ i ∧ ¬(48 ≤ i ∧ i < 55)) := by
  decide

theorem modeToAttrs_and (S : Stage) (mode : Mode) :
    S.modeToAttrs fake mode &&& pteAttrModeMask = S.modeToAttrs fake mode := by
  rw [Stage.modeToAttrs]
  cases S.kind with
  | stage1 =>
    show archMmModeToStage1Attrs mode &&& pteAttrModeMask = archMmModeToStage1Attrs mode
    rw [archMmModeToStage1Attrs, BitVec.and_assoc, BitVec.and_self]
  | stage2 =>
    show archMmModeToStage2Attrs mode &&& pteAttrModeMask = archMmModeToStage2Attrs mode
    rw [archMmModeToStage2Attrs, BitVec.and_assoc, BitVec.and_self]

/-- A word that keeps its bits when they are shifted down, and has none at the bottom, has
no bits at all. -/
theorem eq_zero_of_shift {v : BitVec 64} {s : Nat} (hs : 0 < s) (hle : s ≤ 4)
    (hlow : ∀ k < 21, v.getLsbD k = false)
    (hshift : ∀ k, 12 ≤ k → v.getLsbD (k + s) = true → v.getLsbD k = true) : v = 0#64 := by
  have hbits : ∀ k, v.getLsbD k = false := by
    intro k
    induction k using Nat.strong_induction_on with
    | h k ih =>
      by_cases hk : k < 21
      · exact hlow k hk
      · apply Bool.eq_false_iff.mpr
        intro hset
        have hbelow := hshift (k - s) (by omega) (by rwa [Nat.sub_add_cancel (by omega)])
        rw [ih (k - s) (by omega)] at hbelow
        contradiction
  apply BitVec.eq_of_getLsbD_eq
  intro k _
  rw [hbits k]
  simp

/-- The bits of an entry that is written and read at a level, above the page bits. -/
theorem getLsbD_block {level k : Nat} (hlevel : level ≤ 2) (hk : 12 ≤ k) (hlt : k < 64)
    (x attrs : BitVec 64) :
    ((archMmBlockPte level x.toNat attrs) <<< pteLevelShift level).getLsbD k =
      (x.getLsbD k || attrs.getLsbD k) := by
  have hshift : ¬k < pteLevelShift level := by
    rw [pteLevelShift]
    omega
  rw [archMmBlockPte, BitVec.ofNat_toNat, BitVec.setWidth_eq, BitVec.getLsbD_shiftLeft,
    BitVec.getLsbD_ushiftRight, Nat.add_sub_cancel' (Nat.not_lt.mp hshift), getLsbD_or]
  simp [hshift, hlt]

/-- If the first entry of the new table is right, the block has neither an address nor
attributes. -/
theorem eq_zero_of_splitsInPlace {level pa : Nat} {attrs : BitVec 64} (hlevel : level + 1 ≤ 2)
    (hattrs : attrs &&& pteAttrModeMask = attrs) (hpa : pa < 2 ^ 48) (haligned : pa % 2 ^ 21 = 0)
    {attrs' : BitVec 64}
    (hread : archMmPteAttrs (archMmBlockPte level (archMmBlockPte (level + 1) pa attrs).toNat
      attrs') level = attrs)
    (haddr : archMmBlockFromPte (archMmBlockPte level (archMmBlockPte (level + 1) pa attrs).toNat
      attrs') level = pa) :
    ofNat 64 pa ||| attrs = 0#64 := by
  have hattrsBit : ∀ k, attrs.getLsbD k = true → 48 ≤ k ∧ k < 55 := by
    intro k hk
    have hlt : k < 64 := BitVec.lt_of_getLsbD hk
    rw [← hattrs, getLsbD_and, pteAttrModeMask_getLsbD k hlt, Bool.and_eq_true,
      decide_eq_true_eq] at hk
    exact hk.2
  have hpaHigh : ∀ k, 48 ≤ k → (ofNat 64 pa).getLsbD k = false := by
    intro k hk
    have hlt : pa < 2 ^ k := hpa.trans_le (Nat.pow_le_pow_right (by decide) hk)
    rw [BitVec.getLsbD_ofNat, Nat.testBit_lt_two_pow hlt, Bool.and_false]
  have hpaLow : ∀ k < 21, (ofNat 64 pa).getLsbD k = false := by
    intro k hk
    rw [← Nat.mul_div_cancel' (Nat.dvd_of_mod_eq_zero haligned), BitVec.getLsbD_ofNat,
      Nat.testBit_two_pow_mul]
    simp [Nat.not_le.mpr hk]
  have haddr' : (archMmBlockPte level (archMmBlockPte (level + 1) pa attrs).toNat attrs' <<<
      pteLevelShift level) &&& pteAddrMask = ofNat 64 pa := by
    apply BitVec.eq_of_toNat_eq
    rw [BitVec.toNat_ofNat, Nat.mod_eq_of_lt (by omega)]
    exact haddr
  apply eq_zero_of_shift (s := pteLevelShift (level + 1))
  · rw [pteLevelShift]
    omega
  · rw [pteLevelShift]
    omega
  · intro k hk
    rw [getLsbD_or, hpaLow k hk, Bool.false_or, Bool.eq_false_iff]
    intro hset
    have := hattrsBit k hset
    omega
  · intro k hk hset
    have hlt : k < 55 := by
      rw [getLsbD_or, Bool.or_eq_true] at hset
      rcases hset with h | h
      · apply Nat.lt_of_not_le
        intro hge
        rw [hpaHigh _ (by omega)] at h
        contradiction
      · have := hattrsBit _ h
        omega
    -- the bit comes down into the new entry
    have hblock := getLsbD_block (show level ≤ 2 by omega) hk (show k < 64 by omega)
      (archMmBlockPte (level + 1) pa attrs) attrs'
    have hword : (archMmBlockPte (level + 1) pa attrs).getLsbD k = true := by
      rw [archMmBlockPte, BitVec.getLsbD_ushiftRight, Nat.add_comm]
      exact hset
    rw [hword, Bool.true_or] at hblock
    rw [getLsbD_or, Bool.or_eq_true]
    by_cases hk48 : 48 ≤ k
    · right
      rw [← hread, archMmPteAttrs, getLsbD_and, hblock,
        pteAttrModeMask_getLsbD k (by omega), Bool.true_and, decide_eq_true_eq]
      exact ⟨hk48, hlt⟩
    · left
      rw [← haddr', getLsbD_and, hblock, pteAddrMask_getLsbD k (by omega), Bool.true_and,
        decide_eq_true_eq]
      omega

/-- A block at the bottom of memory without attributes is split in place. -/
theorem splitsInPlace_zero {level : Nat} (hlevel : level + 1 ≤ 2) :
    SplitsInPlace fake level 0 0#64 := by
  have hcases : level = 0 ∨ level = 1 := by omega
  rcases hcases with rfl | rfl
  · apply (splitsInPlace_iff (by decide)).mpr
    decide +kernel
  · apply (splitsInPlace_iff (by decide)).mpr
    decide +kernel

theorem splitsInPlace_iff_zero {S : Stage} (hS : S.Fits) {level pa : Nat} {mode : Mode}
    (hlevel : level + 1 ≤ 2) (haligned : pa % entrySize (level + 1) = 0)
    (hpa : pa < S.ptableAddrSpaceEnd)
    (hblock : archMmPteIsBlock (archMmBlockPte (level + 1) pa (S.modeToAttrs fake mode))
      (level + 1) = true) :
    SplitsInPlace fake level pa (S.modeToAttrs fake mode) ↔
      pa = 0 ∧ S.modeToAttrs fake mode = 0#64 := by
  constructor
  · intro h
    obtain ⟨-, hread, haddr⟩ := (splitsInPlace_iff hblock).mp h 0
    have hfield := hS.ptableAddrSpaceEnd_le_field
    have hpa48 : pa < 2 ^ 48 := by omega
    have hpage : pa % 2 ^ 21 = 0 := by
      have hdvd : (2 : Nat) ^ 21 ∣ entrySize (level + 1) := by
        rw [entrySize_eq]
        exact Nat.pow_dvd_pow 2 (by omega)
      exact Nat.mod_eq_zero_of_dvd (hdvd.trans (Nat.dvd_of_mod_eq_zero haligned))
    simp only [Fin.val_zero, Nat.zero_mul, Nat.add_zero] at hread haddr
    have hzero := eq_zero_of_splitsInPlace hlevel (modeToAttrs_and S mode) hpa48 hpage hread haddr
    obtain ⟨hpa0, hattrs0⟩ := BitVec.or_eq_zero_iff.mp hzero
    refine ⟨?_, hattrs0⟩
    have hnat := congrArg BitVec.toNat hpa0
    rwa [BitVec.toNat_ofNat, Nat.mod_eq_of_lt (by omega)] at hnat
  · rintro ⟨rfl, hzero⟩
    rw [hzero]
    exact splitsInPlace_zero hlevel

end Fake

/-- Blocks are split in place on aarch64; in the fake encoding, only a block without
attributes at the bottom of memory is. -/
theorem splitsInPlace_backend_iff (b : Backend) (S : Stage) (hS : S.Fits) (hb : b.Supports S)
    {level pa : Nat} (mode : Mode) (hlevel : level + 1 ≤ S.maxLevel)
    (haligned : pa % entrySize (level + 1) = 0) (hpa : pa < S.ptableAddrSpaceEnd)
    (hblock : b.arch.pteIsBlock (b.arch.blockPte (level + 1) pa (S.modeToAttrs b.arch mode))
      (level + 1) = true) :
    SplitsInPlace b.arch level pa (S.modeToAttrs b.arch mode) ↔
      (b = .fake → pa = 0 ∧ S.modeToAttrs b.arch mode = 0#64) := by
  cases b with
  | aarch64 => exact iff_of_true (Aarch64.splitsInPlace hS haligned hpa hblock) nofun
  | fake =>
    rw [forall_prop_of_true rfl]
    exact Fake.splitsInPlace_iff_zero hS (hlevel.trans (hb rfl)) haligned hpa hblock

theorem splitsInPlace_backend_iff_second_block :
    SplitsInPlace aarch64 0 0x200000 (exampleStage.modeToAttrs aarch64 Mode.R) :=
  (splitsInPlace_backend_iff .aarch64 exampleStage fits_exampleStage nofun
    Mode.R (by decide) (by decide) (by decide) (by decide)).mpr nofun

/-- In the fake encoding, the first page of the second block goes to another address. -/
theorem fake_block_not_split_in_place :
    ¬SplitsInPlace fake 0 0x200000 (exampleStage.modeToAttrs fake Mode.R) := by
  intro h
  have hsplit := (splitsInPlace_iff (by decide)).mp h 0
  exact absurd hsplit.2.2 (by decide +kernel)

end Hafnium
