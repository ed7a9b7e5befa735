import Hafnium.Mm.IdentityMap

/-!
# Which entry belongs to which address

Every walk over a table runs two iterators side by side: the entries from the one
of the first address on, and the block addresses of `BlockIter`.  They are computed
by separate formulas.  Here the pairs are shown to be the right ones, for tables of
all levels and for the concatenated root tables.
-/

namespace Hafnium

open List RawPageTable

/-- The iterator over the blocks of a region. -/
structure BlockIter where
  begin : Nat
  endAddr : Nat
  blockSize : Nat

namespace BlockIter

def next (self : BlockIter) : Option (Nat × BlockIter) :=
  if self.begin ≥ self.endAddr then none
  else some (self.begin, { self with begin := startOfNextBlock self.begin self.blockSize })

/-- What the iterator yields when it is asked a number of times. -/
def yields : Nat → BlockIter → List Nat
  | 0, _ => []
  | n + 1, it =>
    match it.next with
    | none => []
    | some (a, it) => a :: yields n it

end BlockIter

/-- The pairs of a walk over `n` cells for blocks of a size, the first of which
starts at `base`, in a region: cell and address belong together, and the blocks
that begin at the addresses partition the region. -/
structure Pairing (n base size : Nat) (index : Nat → Nat) (begin endAddr : Nat)
    (pairs : List (Fin n × Nat)) : Prop where
  index_eq : ∀ i a, (i, a) ∈ pairs → index a = i
  increasing : pairs.Pairwise fun p q => p.1 < q.1 ∧ p.2 < q.2
  /-- The visited cells are those whose addresses meet the region. -/
  meets : ∀ i : Fin n, (∃ a, (i, a) ∈ pairs) ↔
    ∃ x, slotBase base size i ≤ x ∧ x < slotBase base size (i + 1) ∧ begin ≤ x ∧ x < endAddr
  /-- The iterator ends before the cells run out. -/
  yields : ∀ k, n ≤ index begin + k → BlockIter.yields k ⟨begin, endAddr, size⟩ = pairs.map Prod.snd
  covers : ∀ x, (begin ≤ x ∧ x < endAddr) ↔
    ∃ p ∈ pairs, p.2 ≤ x ∧ x < min (startOfNextBlock p.2 size) endAddr
  disjoint : pairs.Pairwise fun p q => startOfNextBlock p.2 size ≤ q.2
  /-- No sum exceeds the machine's words. -/
  noWrap : ∀ p ∈ pairs, p.2 + size < 2 ^ 64

/-! ## Cells of one size -/

section Cells

variable {n base s endAddr k begin : Nat} (hs : 0 < s) (hbase : base % s = 0)
  (hlo : slotBase base s k ≤ begin) (hhi : begin < slotBase base s (k + 1))
include hs hbase hlo hhi

/-- The address of a visited cell lies in the cell, and the next block starts with
the next cell. -/
theorem zipBlocks_slot {i : Fin n} {a : Nat}
    (h : (i, a) ∈ zipBlocks s endAddr ((finRange n).drop k) begin) :
    slotBase base s i ≤ a ∧ a < slotBase base s (i + 1) ∧
      startOfNextBlock a s = slotBase base s (i + 1) := by
  rw [slotBase_succ] at hhi
  obtain ⟨hk, ha, -⟩ := (mem_zipBlocks_drop hs hbase hlo hhi i a).mp h
  have hsucc := slotBase_succ base s i
  have hge : slotBase base s i ≤ a := by omega
  have hlt : a < slotBase base s (i + 1) := by
    have hmono := slotBase_mono base s (Nat.succ_le_succ hk)
    rw [Nat.succ_eq_add_one, slotBase_succ, Nat.succ_eq_add_one] at hmono
    omega
  exact ⟨hge, hlt, startOfNextBlock_of_slot hs hbase hge (by omega)⟩

theorem zipBlocks_disjoint :
    (zipBlocks s endAddr ((finRange n).drop k) begin).Pairwise fun p q =>
      p.1 < q.1 ∧ startOfNextBlock p.2 s ≤ q.2 := by
  have hsorted : ((zipBlocks s endAddr ((finRange n).drop k) begin).map Prod.fst).Pairwise
      (· < ·) :=
    ((pairwise_lt_finRange n).sublist (drop_sublist _ _)).sublist
      (zipBlocks_fst_sublist _ _ _ _)
  rw [pairwise_map] at hsorted
  refine hsorted.imp_of_mem fun {p q} hp hq hlt => ⟨hlt, ?_⟩
  obtain ⟨-, -, hnext⟩ := zipBlocks_slot hs hbase hlo hhi hp
  obtain ⟨hq, -, -⟩ := zipBlocks_slot hs hbase hlo hhi hq
  rw [hnext]
  exact (slotBase_mono base s hlt).trans hq

/-- The iterator yields the addresses of the pairs and nothing after them, since the
region ends inside the cells. -/
theorem yields_eq (hk : k ≤ n) (hend : endAddr ≤ slotBase base s n) {j : Nat} (hj : n ≤ k + j) :
    BlockIter.yields j ⟨begin, endAddr, s⟩ =
      (zipBlocks s endAddr ((finRange n).drop k) begin).map Prod.snd := by
  induction j generalizing k begin with
  | zero =>
    obtain rfl : k = n := by omega
    rw [drop_eq_nil_of_le (by simp)]
    rfl
  | succ j ih =>
    rw [BlockIter.yields, BlockIter.next]
    by_cases hstop : begin ≥ endAddr
    · rw [if_pos hstop]
      cases (finRange n).drop k with
      | nil => rfl
      | cons i is => rw [zipBlocks, if_pos hstop, map_nil]
    · have hkn : k < n := by
        have hlt : slotBase base s k < slotBase base s n := by omega
        exact lt_of_slotBase_lt hlt
      have hnext := startOfNextBlock_of_slot hs hbase hlo (by rwa [← slotBase_succ])
      rw [if_neg hstop, finRange_drop hkn, zipBlocks, if_neg hstop, map_cons]
      dsimp only
      have hlast : slotBase base s (k + 1) < slotBase base s (k + 1 + 1) := by
        rw [slotBase_succ base s (k + 1)]
        omega
      rw [hnext, ih (k := k + 1) le_rfl hlast hkn (by omega)]

theorem pairing_zipBlocks {index : Nat → Nat}
    (hindex : ∀ i < n, ∀ a, slotBase base s i ≤ a → a < slotBase base s (i + 1) → index a = i)
    (hk : k < n) (hend : endAddr ≤ slotBase base s n) (hwrap : endAddr + s ≤ 2 ^ 64) :
    Pairing n base s index begin endAddr
      (zipBlocks s endAddr ((finRange n).drop (index begin)) begin) := by
  rw [hindex k hk begin hlo hhi]
  have hmem : ∀ (i : Fin n) (a : Nat),
      (i, a) ∈ zipBlocks s endAddr ((finRange n).drop k) begin ↔
        k ≤ i ∧ a = max begin (slotBase base s i) ∧ a < endAddr :=
    mem_zipBlocks_drop hs hbase hlo (by rwa [← slotBase_succ])
  have hslot : ∀ {i : Fin n} {a : Nat},
      (i, a) ∈ zipBlocks s endAddr ((finRange n).drop k) begin →
        slotBase base s i ≤ a ∧ a < slotBase base s (i + 1) ∧
          startOfNextBlock a s = slotBase base s (i + 1) :=
    fun h => zipBlocks_slot hs hbase hlo hhi h
  have hdisjoint : (zipBlocks s endAddr ((finRange n).drop k) begin).Pairwise fun p q =>
      p.1 < q.1 ∧ startOfNextBlock p.2 s ≤ q.2 := zipBlocks_disjoint hs hbase hlo hhi
  constructor
  case index_eq =>
    intro i a h
    obtain ⟨hge, hlt, -⟩ := hslot h
    exact hindex i i.isLt a hge hlt
  case increasing =>
    refine hdisjoint.imp_of_mem fun {p q} hp _ hpq => ⟨hpq.1, ?_⟩
    obtain ⟨-, hlt, hnext⟩ := hslot hp
    omega
  case meets =>
    intro i
    have hsucc := slotBase_succ base s i
    constructor
    · rintro ⟨a, h⟩
      obtain ⟨hge, hlt, -⟩ := hslot h
      obtain ⟨-, ha, hae⟩ := (hmem i a).mp h
      exact ⟨a, hge, hlt, by omega, hae⟩
    · rintro ⟨x, hge, hlt, hbegin, hxe⟩
      refine ⟨max begin (slotBase base s i), (hmem i _).mpr ⟨?_, rfl, by omega⟩⟩
      exact Nat.lt_succ_iff.mp (lt_of_slotBase_lt (hlo.trans_lt (hbegin.trans_lt hlt)))
  case yields =>
    intro j hj
    rw [hindex k hk begin hlo hhi] at hj
    exact yields_eq hs hbase hlo hhi hk.le hend hj
  case covers =>
    intro x
    constructor
    · rintro ⟨hbegin, hxe⟩
      -- the cell of `x`
      have hbx : base ≤ x := le_trans (Nat.le_add_right _ _) (hlo.trans hbegin)
      have hge : slotBase base s ((x - base) / s) ≤ x := by
        have := Nat.div_mul_le_self (x - base) s
        simp only [slotBase]
        omega
      have hlt : x < slotBase base s ((x - base) / s + 1) := by
        have := Nat.lt_div_mul_add (a := x - base) hs
        rw [slotBase_succ]
        simp only [slotBase]
        omega
      generalize (x - base) / s = i at hge hlt
      have hin : i < n := lt_of_slotBase_lt (hge.trans_lt (hxe.trans_le hend))
      have hki : k ≤ i := Nat.lt_succ_iff.mp (lt_of_slotBase_lt
          (hlo.trans_lt (hbegin.trans_lt hlt)))
      have hpair := (hmem ⟨i, hin⟩ _).mpr ⟨hki, rfl, (max_le hbegin hge).trans_lt hxe⟩
      refine ⟨_, hpair, max_le hbegin hge, ?_⟩
      rw [(hslot hpair).2.2]
      exact lt_min hlt hxe
    · rintro ⟨⟨i, a⟩, hp, hax, hx⟩
      obtain ⟨-, ha, -⟩ := (hmem i a).mp hp
      have hmin := lt_min_iff.mp hx
      dsimp only at hax
      exact ⟨by omega, hmin.2⟩
  case disjoint => exact hdisjoint.imp fun h => h.2
  case noWrap =>
    rintro ⟨i, a⟩ hp
    obtain ⟨-, -, hlt⟩ := (hmem i a).mp hp
    dsimp only
    omega

end Cells

/-! ## Tables and root tables -/

/-- The first address of the table at a level that holds an address. -/
def levelBase (addr level : Nat) : Nat := addr / entrySize (level + 1) * entrySize (level + 1)

theorem levelEnd_eq_slotBase (addr level : Nat) :
    levelEnd addr level = slotBase (levelBase addr level) (entrySize level) 512 := by
  rw [levelEnd_eq, slotBase, levelBase, ← entrySize_succ, Nat.add_mul, Nat.one_mul]

theorem pairing_table {level begin endAddr : Nat} (hlevel : level ≤ 3)
    (hend : endAddr ≤ 255 * 2 ^ 48) :
    Pairing 512 (levelBase begin level) (entrySize level) (index · level) begin
      (min endAddr (levelEnd begin level)) (visits endAddr level begin) := by
  have hsize : entrySize level ≤ 2 ^ 39 := by
    rw [show (2 : Nat) ^ 39 = entrySize 3 from (entrySize_eq 3).symm]
    exact entrySize_mono hlevel
  have hbase : levelBase begin level % entrySize (level + 1) = 0 := Nat.mul_mod_left _ _
  have hlo : levelBase begin level ≤ begin := Nat.div_mul_le_self _ _
  have hhi : begin < levelBase begin level + entrySize (level + 1) :=
    Nat.lt_div_mul_add (entrySize_pos (level + 1))
  obtain ⟨hslot, hslot'⟩ := slot_of_index hbase hlo hhi
  refine pairing_zipBlocks (entrySize_pos level) ?_ hslot ?_ ?_ (index_lt begin level) ?_ ?_
  · rw [entrySize_succ] at hbase
    exact mod_of_mod_mul hbase
  · rw [slotBase_succ]
    exact hslot'
  · intro i hi a hge hlt
    rw [slotBase_succ] at hlt
    exact index_of_slot hbase hi hge hlt
  · rw [← levelEnd_eq_slotBase]
    exact min_le_right _ _
  · have hmin := min_le_left endAddr (levelEnd begin level)
    omega

theorem pairing_root {S : Stage} (hS : S.Valid) {begin endAddr : Nat} (hlt : begin < endAddr)
    (hend : endAddr ≤ S.ptableAddrSpaceEnd) :
    Pairing S.rootTableCount 0 (entrySize S.rootLevel) (index · S.rootLevel) begin endAddr
      (PageTable.visits S endAddr begin) := by
  have hsize : entrySize S.rootLevel ≤ 2 ^ 48 := by
    rw [show (2 : Nat) ^ 48 = entrySize 4 from (entrySize_eq 4).symm]
    exact entrySize_mono (Nat.succ_le_succ hS.maxLevel_le)
  have hspace := hS.ptableAddrSpaceEnd_le.1
  obtain ⟨-, hk⟩ := InSpace.index_eq hS (hlt.trans_le hend)
  obtain ⟨hlo, hhi⟩ := InSpace.rootBase_le S begin
  refine pairing_zipBlocks (entrySize_pos _) (Nat.zero_mod _) hlo ?_ ?_ hk ?_ ?_
  · rw [slotBase_succ]
    exact hhi
  · intro i hi a hge hlt
    rw [slotBase_succ] at hlt
    have hdiv := div_eq_of_slot (entrySize_pos S.rootLevel) (Nat.zero_mod _) hge hlt
    rw [Nat.zero_div, Nat.zero_add] at hdiv
    have hcount := hS.rootTableCount_le
    rw [index_eq, hdiv, Nat.mod_eq_of_lt (by omega)]
  · rw [slotBase, Nat.zero_add]
    exact hend
  · omega

theorem levelEnd_lt {addr level : Nat} (hlevel : level ≤ 3) (haddr : addr < 255 * 2 ^ 48) :
    levelEnd addr level < 2 ^ 64 := by
  have hsize : entrySize (level + 1) ≤ 2 ^ 48 := by
    rw [show (2 : Nat) ^ 48 = entrySize 4 from (entrySize_eq 4).symm]
    exact entrySize_mono (Nat.succ_le_succ hlevel)
  have hle := Nat.div_mul_le_self addr (entrySize (level + 1))
  rw [levelEnd_eq, Nat.add_mul]
  omega

/-- In the address space of every stage, the walks over tables of all levels and over
the root tables pair entries with their addresses. -/
theorem walk_pairs {S : Stage} (hS : S.Valid) {begin endAddr : Nat} (hlt : begin < endAddr)
    (hend : endAddr ≤ S.ptableAddrSpaceEnd) :
    (∀ level ≤ 3, levelEnd begin level < 2 ^ 64 ∧
      Pairing 512 (levelBase begin level) (entrySize level) (index · level) begin
        (min endAddr (levelEnd begin level)) (visits endAddr level begin)) ∧
    Pairing S.rootTableCount 0 (entrySize S.rootLevel) (index · S.rootLevel) begin endAddr
      (PageTable.visits S endAddr begin) := by
  have hspace := hS.ptableAddrSpaceEnd_le.1
  refine ⟨fun level hlevel => ⟨levelEnd_lt hlevel (by omega), ?_⟩, pairing_root hS hlt hend⟩
  exact pairing_table hlevel (hend.trans hspace)

/-- A region that starts in the middle of a page and goes past the end of its table. -/
theorem walk_pairs_hypervisor :
    Stage.hypervisor.Valid ∧ 0x1ff234 < 0x203000 ∧
      0x203000 ≤ Stage.hypervisor.ptableAddrSpaceEnd ∧
      visits 0x203000 0 0x1ff234 = [(511, 0x1ff234)] ∧
      Pairing 512 (levelBase 0x1ff234 0) (entrySize 0) (index · 0) 0x1ff234
        (min 0x203000 (levelEnd 0x1ff234 0)) (visits 0x203000 0 0x1ff234) :=
  ⟨Stage.fits_hypervisor.toValid, by decide, by decide, by decide +kernel,
    ((walk_pairs Stage.fits_hypervisor.toValid (by decide) (by decide)).1 0 (by decide)).2⟩

end Hafnium
