import Hafnium.Mm.Update

/-!
# Mapping and unmapping whole page tables

The properties of the two passes, lifted to the concatenated root tables, and
what follows for `identity_map` and `unmap`.
-/

namespace Hafnium

open Support Aarch64 RawPageTable Option PageTableEntry List

namespace Aarch64

/-- Clearing an address keeps its page number, cut to 48 bits. -/
theorem archMmClearPa_eq (pa : Nat) : archMmClearPa pa = pa % 2 ^ 48 / 4096 * 4096 := by
  apply Nat.eq_of_testBit_eq
  intro i
  have hmask : (BitVec.ofNat 64 pa &&& pteAddrMask).toNat.testBit i =
      (pa.testBit i && decide (12 ≤ i ∧ i < 48)) := by
    by_cases hi : i < 64
    · rw [← BitVec.getLsbD, BitVec.getLsbD_and, pteAddrMask_getLsbD i hi, BitVec.getLsbD_ofNat]
      simp [hi]
    · rw [Nat.testBit_lt_two_pow, show decide (12 ≤ i ∧ i < 48) = false by simp; omega,
        Bool.and_false]
      exact lt_of_lt_of_le (BitVec.isLt _) (Nat.pow_le_pow_right (by decide) (by omega))
  rw [archMmClearPa, pteAddr, hmask, show (4096 : Nat) = 2 ^ 12 from rfl, Nat.testBit_mul_two_pow,
    Nat.testBit_div_two_pow, Nat.testBit_mod_two_pow]
  by_cases h12 : 12 ≤ i
  · simp [h12, Nat.sub_add_cancel h12, Bool.and_comm]
  · simp [h12]

theorem isPa_clearPa (pa : Nat) : IsPa (archMmClearPa pa) := by
  rw [archMmClearPa_eq]
  exact ⟨by omega, by omega⟩

theorem archMmClearPa_of_lt {pa : Nat} (h : pa < 2 ^ 48) :
    archMmClearPa pa = roundDownToPage pa := by
  rw [archMmClearPa_eq, Nat.mod_eq_of_lt h, roundDownToPage, pageSize_eq]

end Aarch64

/-- Stages that aarch64 can have: at most four levels of tables, and a number
of root tables that `arch_mm_stage*_root_table_count` can return as a `u8`. -/
structure Stage.Valid (S : Stage) : Prop where
  maxLevel_le : S.maxLevel ≤ 3
  rootTableCount_le : S.rootTableCount ≤ 255

/-- Stages that a processor can be configured for: their address space fits the
address field of an entry. -/
structure Stage.Fits (S : Stage) : Prop extends S.Valid where
  rootTableCount_pos : 0 < S.rootTableCount
  ptableAddrSpaceEnd_le_field : S.ptableAddrSpaceEnd ≤ 2 ^ 48

theorem Stage.fits_hypervisor : Stage.hypervisor.Fits :=
  ⟨⟨by decide, by decide⟩, by decide, by decide⟩

/-- The physical address sizes that `arch_mm_init` knows all give such stages. -/
theorem Stage.fits_ofPaBits {paBits : Nat} (h : paBits ∈ [32, 36, 40, 42, 44, 48]) :
    (Stage.ofPaBits paBits).Fits := by
  simp only [mem_cons, not_mem_nil, or_false] at h
  rcases h with rfl | rfl | rfl | rfl | rfl | rfl <;>
    exact ⟨⟨by decide, by decide⟩, by decide, by decide⟩

/-- The end of the region that an update of a range up to `endAddr` works on. -/
abbrev Stage.updateEnd (S : Stage) (endAddr : Nat) : Nat :=
  min (roundUpToPage endAddr) S.ptableAddrSpaceEnd

/-- A region of whole pages inside the address space of a stage. -/
structure InSpace (S : Stage) (begin endAddr : Nat) : Prop where
  lt : begin < endAddr
  le : endAddr ≤ S.ptableAddrSpaceEnd
  beginPage : begin % 4096 = 0
  endPage : endAddr % 4096 = 0

theorem Stage.Valid.ptableAddrSpaceEnd_le {S : Stage} (hS : S.Valid) :
    S.ptableAddrSpaceEnd ≤ 255 * 2 ^ 48 ∧ S.ptableAddrSpaceEnd % 4096 = 0 := by
  constructor
  · have hlevel : entrySize S.rootLevel ≤ 2 ^ 48 := by
      rw [show (2 : Nat) ^ 48 = entrySize 4 from (entrySize_eq 4).symm]
      exact entrySize_mono (Nat.succ_le_succ hS.maxLevel_le)
    exact Nat.mul_le_mul hS.rootTableCount_le hlevel
  · exact Nat.mod_eq_zero_of_dvd ((pageSize_dvd_entrySize _).mul_left _)

/-- The first address of a root table. -/
def Stage.rootBase (S : Stage) (t : Nat) : Nat := slotBase 0 (entrySize S.rootLevel) t

namespace InSpace

variable {S : Stage} {begin endAddr : Nat}

theorem rootBase_aligned (S : Stage) (t : Nat) : S.rootBase t % entrySize (S.maxLevel + 1) = 0 :=
  slotBase_mod (Nat.zero_mod _)

theorem index_eq (hS : S.Valid) {a : Nat} (ha : a < S.ptableAddrSpaceEnd) :
    index a S.rootLevel = a / entrySize S.rootLevel ∧
      a / entrySize S.rootLevel < S.rootTableCount := by
  have hdiv : a / entrySize S.rootLevel < S.rootTableCount := by
    rw [Nat.div_lt_iff_lt_mul (entrySize_pos _)]
    exact ha
  have hcount := hS.rootTableCount_le
  rw [Hafnium.index_eq, Nat.mod_eq_of_lt (by omega)]
  exact ⟨rfl, hdiv⟩

/-- An address lies in the root table of its quotient. -/
theorem rootBase_le (S : Stage) (a : Nat) : S.rootBase (a / entrySize S.rootLevel) ≤ a ∧
      a < S.rootBase (a / entrySize S.rootLevel) + entrySize S.rootLevel := by
  have h1 := Nat.div_mul_le_self a (entrySize S.rootLevel)
  have h2 := Nat.lt_div_mul_add (a := a) (entrySize_pos S.rootLevel)
  simp only [Stage.rootBase, slotBase]
  omega

theorem mem_visits (hS : S.Valid) (h : InSpace S begin endAddr) (t : Fin S.rootTableCount)
    (b : Nat) :
    (t, b) ∈ PageTable.visits S endAddr begin ↔
      begin / entrySize S.rootLevel ≤ t ∧ b = max begin (S.rootBase t) ∧ b < endAddr := by
  obtain ⟨hidx, -⟩ := index_eq hS (h.lt.trans_le h.le)
  obtain ⟨hlo, hhi⟩ := rootBase_le S begin
  rw [PageTable.visits, hidx]
  exact mem_zipBlocks_drop (entrySize_pos _) (Nat.zero_mod _) hlo hhi t b

theorem visits_nodup (S : Stage) (endAddr begin : Nat) :
    ((PageTable.visits S endAddr begin).map Prod.fst).Nodup :=
  zipBlocks_drop_nodup _ _ _ _ _

/-- A visited root table is entered with the part of the region from its first
address on. -/
theorem child (hS : S.Valid) (h : InSpace S begin endAddr) {t : Fin S.rootTableCount} {b : Nat}
    (hb : (t, b) ∈ PageTable.visits S endAddr begin) :
    InEntry (S.maxLevel + 1) (S.rootBase t) b endAddr := by
  obtain ⟨ht, rfl, hlt⟩ := (h.mem_visits hS t b).mp hb
  obtain ⟨hlo, hhi⟩ := rootBase_le S begin
  have hmono := slotBase_mono 0 (entrySize S.rootLevel) ht
  have hpos := entrySize_pos S.rootLevel
  have hpage : S.rootBase t % 4096 = 0 :=
    Nat.mod_eq_zero_of_dvd ((pageSize_dvd_entrySize _).trans
      (Nat.dvd_of_mod_eq_zero (rootBase_aligned S t)))
  refine ⟨rootBase_aligned S t, le_max_right _ _, ?_, hlt, ?_, h.endPage⟩
  · simp only [Stage.rootBase, Stage.rootLevel] at *
    omega
  · rcases max_choice begin (S.rootBase t) with hm | hm
    · rw [hm]; exact h.beginPage
    · rw [hm]; exact hpage

/-- The root table of an address of the region is visited, from an address at
or below it. -/
theorem visits_of_mem (hS : S.Valid) (h : InSpace S begin endAddr) {a : Nat}
    (hba : begin ≤ a) (hae : a < endAddr) (ht : a / entrySize S.rootLevel < S.rootTableCount) :
    ∃ b, ((⟨a / entrySize S.rootLevel, ht⟩ : Fin S.rootTableCount), b) ∈
      PageTable.visits S endAddr begin ∧ b ≤ a := by
  obtain ⟨hlo, -⟩ := rootBase_le S a
  refine ⟨_, (h.mem_visits hS _ _).mpr ⟨Nat.div_le_div_right hba, rfl, ?_⟩, ?_⟩
  · simp only
    omega
  · simp only
    omega

theorem le_of_visits (hS : S.Valid) (h : InSpace S begin endAddr) {t : Fin S.rootTableCount}
    {b : Nat} (hb : (t, b) ∈ PageTable.visits S endAddr begin) : begin ≤ b := by
  obtain ⟨-, rfl, -⟩ := (h.mem_visits hS t b).mp hb
  exact le_max_left _ _

/-- The region that `identity_update` works on, for a range in the address
space. -/
theorem of_range (hS : S.Valid) (hlt : begin < endAddr) (hle : endAddr ≤ S.ptableAddrSpaceEnd) :
    InSpace S (archMmClearPa begin) (S.updateEnd endAddr) ∧
      S.updateEnd endAddr = roundUpToPage endAddr := by
  obtain ⟨hbound, hmod⟩ := hS.ptableAddrSpaceEnd_le
  have hround : roundUpToPage endAddr = (endAddr + 4095) / 4096 * 4096 := by
    rw [roundUpToPage, roundDownToPage, pageSize_eq, Nat.mod_eq_of_lt (by omega)]
    rfl
  have hend : roundUpToPage endAddr ≤ S.ptableAddrSpaceEnd := by omega
  rw [Stage.updateEnd, Nat.min_eq_left hend]
  have hclear := archMmClearPa_eq begin
  exact ⟨⟨by omega, hend, by omega, roundUpToPage_mod _⟩, rfl⟩

end InSpace

theorem Stage.rootIndex_lt (S : Stage) (a : Nat) : index a S.maxLevel < ptePerPage :=
  index_lt a S.maxLevel

namespace PageTable

variable {S : Stage}

/-! ## The meaning of a page table -/

/-- The leaf to which an address of the address space resolves. -/
def lookup (pt : PageTable S) (a : Nat) : Option Leaf :=
  if h : a / entrySize S.rootLevel < S.rootTableCount then
    some ((pt.tables ⟨_, h⟩ ⟨index a S.maxLevel, S.rootIndex_lt a⟩).lookup a)
  else none

/-- What a page table says about a page: its attributes if it is present. -/
def view (pt : PageTable S) (a : Nat) : Option (BitVec 64) := (pt.lookup a).bind Leaf.view

theorem view_ind {P : Option (BitVec 64) → Prop} (pt : PageTable S) (a : Nat) (hnone : P none)
    (h : ∀ t i, P ((pt.tables t i).lookup a).view) : P (pt.view a) := by
  rw [view, lookup]
  split
  · exact h _ _
  · exact hnone

/-- Where an address is mapped to and how, if it is present. -/
def translate (pt : PageTable S) (a : Nat) : Option (BitVec 64 × Nat) :=
  (pt.lookup a).bind fun x => if x.isPresent then some (x.attrs, x.output a) else none

/-- All entries are well-formed at their position. -/
def Wf (strict : Bool) (pt : PageTable S) : Prop :=
  ∀ t i, (pt.tables t i).Wf strict (slotBase (S.rootBase t) (entrySize S.maxLevel) i)

instance (strict : Bool) (pt : PageTable S) : Decidable (pt.Wf strict) :=
  inferInstanceAs (Decidable (∀ t (i : Fin 512), (pt.tables t i).Wf strict _))

/-- The pages of the root tables and of all tables below them.  Irreducible, since
evaluating it on a concrete table visits every entry. -/
@[irreducible] def pages (pt : PageTable S) : Multiset Nat :=
  (Chunk.mk pt.root S.rootTableCount).pages + ∑ t, ∑ i, (pt.tables t i).tablePages

/-- A root table, seen as the entry that would refer to it one level up. -/
def entry (pt : PageTable S) (t : Fin S.rootTableCount) : PageTableEntry (S.maxLevel + 1) :=
  .table (archMmTablePte (S.maxLevel + 1) 0) (pt.tables t)

theorem wf_entry {strict : Bool} {pt : PageTable S} :
    pt.Wf strict ↔ ∀ t, (pt.entry t).Wf strict (S.rootBase t) := by
  have htable : archMmPteIsTable (archMmTablePte (S.maxLevel + 1) 0) (S.maxLevel + 1) = true :=
    archMmPteIsTable_tablePte ⟨rfl, by decide⟩ _
  exact ⟨fun h t => ⟨htable, h t⟩, fun h t => (h t).2⟩

theorem lookup_eq (pt : PageTable S) {a : Nat} (ht : a / entrySize S.rootLevel < S.rootTableCount) :
    pt.lookup a = some ((pt.entry ⟨_, ht⟩).lookup a) := by
  rw [lookup, dif_pos ht]
  rfl

theorem lookup_eq_none (pt : PageTable S) {a : Nat}
    (ht : ¬a / entrySize S.rootLevel < S.rootTableCount) : pt.lookup a = none := by
  rw [lookup, dif_neg ht]

theorem view_eq (pt : PageTable S) {a : Nat} (ht : a / entrySize S.rootLevel < S.rootTableCount) :
    pt.view a = ((pt.entry ⟨_, ht⟩).lookup a).view := by
  rw [view, lookup_eq pt ht, bind_some]

theorem view_eq_none (pt : PageTable S) {a : Nat}
    (ht : ¬a / entrySize S.rootLevel < S.rootTableCount) : pt.view a = none := by
  rw [view, lookup_eq_none pt ht, bind_none]

/-- In a well-formed table a present page is mapped to itself, so all there is
to know about it are its attributes. -/
theorem translate_eq {strict : Bool} {pt : PageTable S} (hwf : pt.Wf strict) (a : Nat) :
    pt.translate a = (pt.view a).map fun attrs => (attrs, a) := by
  by_cases ht : a / entrySize S.rootLevel < S.rootTableCount
  · rw [translate, view_eq pt ht, lookup_eq pt ht, bind_some, Leaf.view]
    obtain ⟨hlo, hhi⟩ := InSpace.rootBase_le S a
    split
    · rename_i hp
      rw [output_eq (InSpace.rootBase_aligned S _) (wf_entry.mp hwf _) hlo hhi hp]
      rfl
    · rfl
  · rw [translate, view_eq_none pt ht, lookup_eq_none pt ht]
    rfl

/-! ## The passes over the root tables -/

/-- `pt'` arises from `pt` by splitting entries. -/
def Splits (pt pt' : PageTable S) : Prop :=
  pt'.root = pt.root ∧ ∀ t i, (pt.tables t i).Splits (pt'.tables t i)

theorem Splits.wf {strict : Bool} {pt pt' : PageTable S} (h : pt.Splits pt')
    (hwf : pt.Wf strict) : pt'.Wf strict := fun t i =>
  (h.2 t i).wf (slotBase_aligned (InSpace.rootBase_aligned S t) i) (hwf t i)

theorem Splits.view {strict : Bool} {pt pt' : PageTable S} (h : pt.Splits pt')
    (hwf : pt.Wf strict) (a : Nat) : pt'.view a = pt.view a := by
  by_cases ht : a / entrySize S.rootLevel < S.rootTableCount
  · rw [view_eq _ ht, view_eq _ ht]
    exact (PageTableEntry.Splits.table (h.2 _)).view (InSpace.rootBase_aligned S _)
      (wf_entry.mp hwf _) a
  · rw [view_eq_none _ ht, view_eq_none _ ht]

variable (endAddr : Nat) (attrs : BitVec 64) (flags : Flags) (begin : Nat)

/-- An update of the region needs no further table. -/
def Covered (pt : PageTable S) : Prop :=
  ∀ t b, (t, b) ∈ visits S endAddr begin →
    ∀ i b', (i, b') ∈ RawPageTable.visits endAddr S.maxLevel b →
      PageTableEntry.Covered endAddr attrs flags b' (pt.tables t i)

/-- `pt'` is `pt` with the region updated. -/
structure Updated (pt pt' : PageTable S) : Prop where
  root : pt'.root = pt.root
  visited : ∀ t b, (t, b) ∈ visits S endAddr begin →
    PageTableEntry.Updated endAddr attrs flags b (pt.entry t) (pt'.entry t)
  other : ∀ t, t ∉ (visits S endAddr begin).map Prod.fst → pt'.tables t = pt.tables t

/-- The pages of the tables that an update of the region loses. -/
def leaks (pt : PageTable S) : Multiset Nat :=
  ((visits S endAddr begin).map fun p =>
    ((RawPageTable.visits endAddr S.maxLevel p.2).map fun q =>
      RawPageTable.leaks endAddr attrs flags q.2 (pt.tables p.1 q.1)).sum).sum

variable {endAddr attrs flags begin}

namespace Updated

variable {strict : Bool} {pt pt' : PageTable S} (hS : S.Valid) (hin : InSpace S begin endAddr)
  (h : Updated endAddr attrs flags begin pt pt') (hwf : pt.Wf strict)
  (hpa : flags.unmap = false → endAddr ≤ 2 ^ 48) (hattrs : AttrsOk attrs)
include hS hin h hwf hpa hattrs

theorem wf : pt'.Wf strict := by
  rw [wf_entry] at hwf ⊢
  intro t
  by_cases ht : t ∈ (visits S endAddr begin).map Prod.fst
  · obtain ⟨⟨t, b⟩, hb, rfl⟩ := mem_map.mp ht
    exact (h.visited t b hb).wf (hwf t) (hin.child hS hb) hpa hattrs
  · rw [entry, h.other t ht]
    exact hwf t

/-- Every address of the region resolves to what the update wants. -/
theorem target {a : Nat} (hbegin : begin ≤ a) (hend : a < endAddr) :
    ∃ x, pt'.lookup a = some x ∧ PageTableEntry.Target attrs flags strict x a := by
  obtain ⟨-, ht⟩ := InSpace.index_eq hS (hend.trans_le hin.le)
  obtain ⟨b, hb, hba⟩ := hin.visits_of_mem hS hbegin hend ht
  obtain ⟨hlo, hhi⟩ := InSpace.rootBase_le S a
  exact ⟨_, lookup_eq pt' ht, (h.visited _ b hb).target (wf_entry.mp hwf _) (hin.child hS hb)
    hpa hattrs hlo hhi hba hend⟩

theorem frame {a : Nat} (hout : ¬(begin ≤ a ∧ a < endAddr)) : pt'.view a = pt.view a := by
  by_cases ht : a / entrySize S.rootLevel < S.rootTableCount
  · rw [view_eq pt ht, view_eq pt' ht]
    obtain ⟨hlo, hhi⟩ := InSpace.rootBase_le S a
    by_cases hv : (⟨a / entrySize S.rootLevel, ht⟩ : Fin S.rootTableCount) ∈
        (visits S endAddr begin).map Prod.fst
    · obtain ⟨⟨t, b⟩, hb, hteq⟩ := mem_map.mp hv
      dsimp only at hteq
      subst hteq
      have hle := hin.le_of_visits hS hb
      exact (h.visited _ b hb).frame (wf_entry.mp hwf _) (hin.child hS hb) hpa hattrs hlo hhi
        (by omega)
    · rw [entry, entry, h.other _ hv]
  · rw [view_eq_none pt ht, view_eq_none pt' ht]

end Updated

theorem mapRoot_eq (pt : PageTable S) (mpool : MPool)
    (h : index begin S.rootLevel ≤ S.rootTableCount) :
    pt.mapRoot aarch64 begin endAddr attrs flags mpool =
      some (((forEach (mapLevel aarch64 endAddr attrs flags S.maxLevel)
          (visits S endAddr begin) pt.tables mpool).1),
        { pt with tables := (forEach (mapLevel aarch64 endAddr attrs flags S.maxLevel)
          (visits S endAddr begin) pt.tables mpool).2.1 },
        (forEach (mapLevel aarch64 endAddr attrs flags S.maxLevel)
          (visits S endAddr begin) pt.tables mpool).2.2) := by
  rw [mapRoot, if_neg (Nat.not_lt.mpr h)]

/-- What the first pass does to a page table: `r` is its result. -/
structure SplitPass (endAddr : Nat) (attrs : BitVec 64) (flags : Flags) (begin : Nat)
    (pt : PageTable S) (mpool : MPool) (r : Outcome × PageTable S × MPool) : Prop where
  drawn : mpool.Drawn r.2.2
  splits : pt.Splits r.2.1
  pages : r.2.1.pages + r.2.2.pages = pt.pages + mpool.pages
  covered : r.1 = .ok → Covered endAddr attrs flags begin r.2.1
  leaks : leaks endAddr attrs flags begin r.2.1 = leaks endAddr attrs flags begin pt

theorem mapRoot_splitPass (hS : S.Valid) (hin : InSpace S begin endAddr) (attrs : BitVec 64)
    (flags : Flags) (hcommit : flags.commit = false) (pt : PageTable S) {mpool : MPool}
    (hwf : mpool.Wf) :
    ∃ r, pt.mapRoot aarch64 begin endAddr attrs flags mpool = some r ∧
      SplitPass endAddr attrs flags begin pt mpool r := by
  have hidx := InSpace.index_eq hS (hin.lt.trans_le hin.le)
  have htable : ∀ t b, (t, b) ∈ visits S endAddr begin → ∀ s : MPool, s.Wf →
      RawPageTable.SplitTable endAddr attrs flags b (pt.tables t) s
        (RawPageTable.mapLevel aarch64 endAddr attrs flags S.maxLevel b (pt.tables t) s) :=
    fun t b hb s hs => RawPageTable.splitTable_of_entries (hin.child hS hb) hs
      (RawPageTable.mapEntry_splitPass hcommit S.maxLevel)
  have hspec := forEach_spec
    (f := RawPageTable.mapLevel aarch64 endAddr attrs flags S.maxLevel) mpool.Drawn
    (fun _ b es o es' => (∀ i, (es i).Splits (es' i)) ∧
      (o = .ok → ∀ i b', (i, b') ∈ RawPageTable.visits endAddr S.maxLevel b →
        PageTableEntry.Covered endAddr attrs flags b' (es' i)) ∧
      (∀ i b', (i, b') ∈ RawPageTable.visits endAddr S.maxLevel b →
        RawPageTable.leaks endAddr attrs flags b' (es' i) =
          RawPageTable.leaks endAddr attrs flags b' (es i)))
    (InSpace.visits_nodup S endAddr begin) (.refl hwf) (t := pt.tables) (by
      intro t b hb s hs
      have := htable t b hb s hs.wf
      exact ⟨hs.trans this.drawn, this.splits, this.covered, this.leaks⟩)
  have hpages := forEach_sum_eq
    (f := RawPageTable.mapLevel aarch64 endAddr attrs flags S.maxLevel) MPool.Wf
    (fun es => ∑ i, (es i).tablePages) MPool.pages (InSpace.visits_nodup S endAddr begin) hwf
    (t := pt.tables) (by
      intro t b hb s hs
      have := htable t b hb s hs
      exact ⟨this.drawn.wf, this.pages⟩)
  obtain ⟨hdrawn, hok, hsome, hother⟩ := hspec
  refine ⟨_, mapRoot_eq pt mpool (by omega), hdrawn, ⟨rfl, ?_⟩, ?_, ?_, ?_⟩
  · refine forall_cells (P := fun t es => ∀ i, (pt.tables t i).Splits (es i)) hother
      (fun t _ i => .refl _) fun t b hb => ?_
    rcases hsome t b hb with heq | ⟨o, hs, -⟩
    · rw [heq]
      exact fun i => .refl _
    · exact hs
  · simp only [pages]
    rw [add_assoc, add_assoc]
    exact congrArg _ hpages
  · exact fun ho t b hb => (hok ho t b hb).2.1 rfl
  · simp only [leaks]
    refine congrArg _ (map_congr_left fun p hp => congrArg _ (map_congr_left ?_))
    intro q hq
    rcases hsome p.1 p.2 hp with heq | ⟨o, -, -, h⟩
    · rw [heq]
    · exact h q.1 q.2 hq

/-- What the second pass does to a covered page table: `r` is its result. -/
structure CommitPass (endAddr : Nat) (attrs : BitVec 64) (flags : Flags) (begin : Nat)
    (pt : PageTable S) (mpool : MPool) (r : Outcome × PageTable S × MPool) : Prop where
  ok : r.1 = .ok
  updated : Updated endAddr attrs flags begin pt r.2.1
  pages : r.2.1.pages + r.2.2.pages + leaks endAddr attrs flags begin pt = pt.pages + mpool.pages
  freed : mpool.FreedTo r.2.2

theorem mapRoot_commitPass (hS : S.Valid) (hin : InSpace S begin endAddr)
    (hcommit : flags.commit = true) {pt : PageTable S}
    (hcovered : Covered endAddr attrs flags begin pt) (mpool : MPool) :
    ∃ r, pt.mapRoot aarch64 begin endAddr attrs flags mpool = some r ∧
      CommitPass endAddr attrs flags begin pt mpool r := by
  have hidx := InSpace.index_eq hS (hin.lt.trans_le hin.le)
  have htable : ∀ t b, (t, b) ∈ visits S endAddr begin → ∀ s : MPool,
      RawPageTable.CommitTable endAddr attrs flags b (pt.tables t) s
        (RawPageTable.mapLevel aarch64 endAddr attrs flags S.maxLevel b (pt.tables t) s) :=
    fun t b hb s => RawPageTable.commitTable_of_entries
      (fun i b' hb' => RawPageTable.mapEntry_commitPass hcommit (hcovered t b hb i b' hb')) s
  have hspec := forEach_spec
    (f := RawPageTable.mapLevel aarch64 endAddr attrs flags S.maxLevel) mpool.FreedTo
    (fun _ b es _ es' => ∀ w, PageTableEntry.Updated endAddr attrs flags b (.table w es)
      (.table w es'))
    (InSpace.visits_nodup S endAddr begin) (t := pt.tables) (.refl mpool) (by
      intro t b hb s hs
      have := htable t b hb s
      exact ⟨hs.trans this.freed, fun w => .table this.visited this.other⟩)
  obtain ⟨hok, hpages⟩ := forEach_sum_lost
    (f := RawPageTable.mapLevel aarch64 endAddr attrs flags S.maxLevel) (fun _ => True)
    (fun es => ∑ i, (es i).tablePages) MPool.pages
    (fun b es => ((RawPageTable.visits endAddr S.maxLevel b).map fun q =>
      RawPageTable.leaks endAddr attrs flags q.2 (es q.1)).sum)
    (InSpace.visits_nodup S endAddr begin) (t := pt.tables) (s := mpool) trivial (by
      intro t b hb s _
      have := htable t b hb s
      exact ⟨trivial, this.ok, this.pages⟩)
  obtain ⟨hfreed, hvisited, -, hother⟩ := hspec
  refine ⟨_, mapRoot_eq pt mpool (by omega), hok,
    ⟨rfl, fun t b hb => hvisited hok t b hb _, hother⟩, ?_, hfreed⟩
  simp only [pages, leaks]
  rw [add_assoc, add_assoc, add_assoc]
  refine congrArg _ ?_
  rw [← add_assoc]
  exact hpages

theorem Covered.commit {pt : PageTable S} (h : Covered endAddr attrs flags begin pt) :
    Covered endAddr attrs { flags with commit := true } begin pt := fun t b hb i b' hb' =>
  (h t b hb i b' hb').commit

theorem leaks_commit (unmap : Bool) (pt : PageTable S) :
    leaks endAddr attrs ⟨true, unmap⟩ begin pt = leaks endAddr attrs ⟨false, unmap⟩ begin pt := by
  simp only [leaks, RawPageTable.leaks_commit]

/-- What `identity_update` does to a page table: `r` is its result. -/
structure UpdateResult (endAddr : Nat) (attrs : BitVec 64) (unmap : Bool) (begin : Nat)
    (pt : PageTable S) (mpool : MPool) (r : Outcome × PageTable S × MPool) : Prop where
  wf : r.2.2.Wf
  err : r.1 = .err → pt.Splits r.2.1 ∧ r.2.1.pages + r.2.2.pages = pt.pages + mpool.pages
  ok : r.1 = .ok → (∃ mid, pt.Splits mid ∧ Covered endAddr attrs ⟨true, unmap⟩ begin mid ∧
      Updated endAddr attrs ⟨true, unmap⟩ begin mid r.2.1) ∧
    r.2.1.pages + r.2.2.pages + leaks endAddr attrs ⟨true, unmap⟩ begin pt = pt.pages + mpool.pages
variable {begin endAddr : Nat}

theorem identityUpdate_spec (hS : S.Valid)
    (hin : InSpace S (archMmClearPa begin) (S.updateEnd endAddr))
    (attrs : BitVec 64) (unmap : Bool) (pt : PageTable S) {mpool : MPool} (hwf : mpool.Wf) :
    ∃ r, pt.identityUpdate aarch64 begin endAddr attrs ⟨false, unmap⟩ mpool = some r ∧
      UpdateResult (S.updateEnd endAddr) attrs unmap
        (archMmClearPa begin) pt mpool r := by
  obtain ⟨⟨o, mid, mpool'⟩, hfirst, hsplit⟩ :=
    mapRoot_splitPass hS hin attrs ⟨false, unmap⟩ rfl pt hwf
  simp only [identityUpdate, aarch64_clearPa, hfirst]
  cases o with
  | err => exact ⟨_, rfl, hsplit.drawn.wf, fun _ => ⟨hsplit.splits, hsplit.pages⟩, by simp⟩
  | ok =>
    have hcovered := hsplit.covered rfl
    obtain ⟨⟨o', pt', mpool''⟩, hsecond, hres⟩ :=
      mapRoot_commitPass hS hin rfl hcovered.commit mpool'
    have hok := hres.ok
    dsimp only at hok
    subst hok
    refine ⟨_, hsecond, hres.freed.wf hsplit.drawn.wf, by simp, fun _ =>
      ⟨⟨mid, hsplit.splits, hcovered.commit, hres.updated⟩, ?_⟩⟩
    rw [← hsplit.pages, ← hres.pages, leaks_commit, leaks_commit, hsplit.leaks]

theorem visits_eq_nil (h : endAddr ≤ begin) : visits S endAddr begin = [] := by
  rw [visits]
  cases (finRange S.rootTableCount).drop (index begin S.rootLevel) with
  | nil => rfl
  | cons t ts => rw [zipBlocks, if_pos h]

theorem inSpace_update (hS : S.Valid) (hlt : archMmClearPa begin < S.updateEnd endAddr) :
    InSpace S (archMmClearPa begin) (S.updateEnd endAddr) := by
  refine ⟨hlt, Nat.min_le_right _ _, (isPa_clearPa begin).aligned, ?_⟩
  have h1 := roundUpToPage_mod endAddr
  have h2 := hS.ptableAddrSpaceEnd_le.2
  rw [Stage.updateEnd]
  omega

/-- A result of an update of any range: either the range meets the address space,
or nothing happens. -/
theorem identityUpdate_cases (hS : S.Valid) {pt pt' : PageTable S} {mpool mpool' : MPool}
    (hwf : mpool.Wf) {unmap : Bool} {o : Outcome}
    (h : pt.identityUpdate aarch64 begin endAddr attrs ⟨false, unmap⟩ mpool =
      some (o, pt', mpool')) :
    (InSpace S (archMmClearPa begin) (S.updateEnd endAddr) ∧
      UpdateResult (S.updateEnd endAddr) attrs unmap (archMmClearPa begin) pt mpool
        (o, pt', mpool')) ∨
    (S.updateEnd endAddr ≤ archMmClearPa begin ∧ o = .ok ∧ pt' = pt ∧ mpool' = mpool) := by
  by_cases hlt : archMmClearPa begin < S.updateEnd endAddr
  · have hin := inSpace_update hS hlt
    obtain ⟨r, hr, hspec⟩ := identityUpdate_spec hS hin attrs unmap pt hwf
    rw [h] at hr
    cases hr
    exact Or.inl ⟨hin, hspec⟩
  · -- the region is empty, so both passes visit nothing
    have hnil := visits_eq_nil (S := S) (Nat.not_lt.mp hlt)
    have hroot : ∀ flags, pt.mapRoot aarch64 (archMmClearPa begin) (S.updateEnd endAddr) attrs
        flags mpool = none ∨
        pt.mapRoot aarch64 (archMmClearPa begin) (S.updateEnd endAddr) attrs flags mpool =
          some (.ok, pt, mpool) := by
      intro flags
      rw [mapRoot, hnil]
      split
      · exact Or.inl rfl
      · exact Or.inr rfl
    refine Or.inr ⟨Nat.not_lt.mp hlt, ?_⟩
    simp only [identityUpdate, aarch64_clearPa] at h
    rcases hroot ⟨false, unmap⟩ with h1 | h1
    · rw [Stage.updateEnd] at h1
      simp [h1] at h
    · rcases hroot ⟨true, unmap⟩ with h2 | h2
      · rw [Stage.updateEnd] at h1 h2
        simp [h1, h2] at h
      · rw [Stage.updateEnd] at h1 h2
        simp only [h1, h2, some.injEq, Prod.mk.injEq] at h
        exact ⟨h.1.symm, h.2.1.symm, h.2.2.symm⟩

theorem identityUpdate_root (hS : S.Valid) {pt pt' : PageTable S} {mpool mpool' : MPool}
    (hwf : mpool.Wf) {unmap : Bool} {o : Outcome}
    (h : pt.identityUpdate aarch64 begin endAddr attrs ⟨false, unmap⟩ mpool =
      some (o, pt', mpool')) : pt'.root = pt.root := by
  rcases identityUpdate_cases hS hwf h with ⟨-, hspec⟩ | ⟨-, -, rfl, -⟩
  · cases o with
    | err => exact (hspec.err rfl).1.1
    | ok =>
      obtain ⟨⟨mid, hsplits, -, hupd⟩, -⟩ := hspec.ok rfl
      exact hupd.root.trans hsplits.1
  · rfl

/-- An update of a covered region succeeds with any pool. -/
theorem identityUpdate_of_covered (hS : S.Valid) {unmap : Bool}
    (hin : InSpace S (archMmClearPa begin) (S.updateEnd endAddr))
    {pt : PageTable S} (hcovered : Covered (S.updateEnd endAddr) attrs
      ⟨false, unmap⟩ (archMmClearPa begin) pt) (mpool : MPool) :
    ∃ pt' mpool', pt.identityUpdate aarch64 begin endAddr attrs ⟨false, unmap⟩ mpool =
      some (.ok, pt', mpool') := by
  have hidx := InSpace.index_eq hS (hin.lt.trans_le hin.le)
  have hfirst : pt.mapRoot aarch64 (archMmClearPa begin)
      (S.updateEnd endAddr) attrs ⟨false, unmap⟩ mpool =
      some (.ok, pt, mpool) := by
    rw [mapRoot_eq pt mpool (by omega), forEach_id fun t b hb => by
      rw [mapLevel_eq]
      exact forEach_id fun i b' hb' =>
        mapEntry_covered rfl (hcovered t b hb i b' hb') mpool]
  obtain ⟨⟨o, pt', mpool'⟩, hsecond, hres⟩ :=
    mapRoot_commitPass hS hin rfl hcovered.commit mpool
  have hok := hres.ok
  dsimp only at hok
  subst hok
  refine ⟨pt', mpool', ?_⟩
  simp only [identityUpdate, aarch64_clearPa, hfirst]
  exact hsecond

namespace UpdateResult

variable {strict unmap : Bool} {pt : PageTable S} {mpool : MPool}
  {r : Outcome × PageTable S × MPool} (hS : S.Valid) (hin : InSpace S begin endAddr)
  (h : UpdateResult endAddr attrs unmap begin pt mpool r) (hok : r.1 = .ok)
  (hwf : pt.Wf strict) (hpa : unmap = false → endAddr ≤ 2 ^ 48) (hattrs : AttrsOk attrs)
include hS hin h hok hwf hpa hattrs

theorem wf_table : r.2.1.Wf strict := by
  obtain ⟨⟨mid, hsplits, -, hupd⟩, -⟩ := h.ok hok
  exact hupd.wf hS hin (hsplits.wf hwf) hpa hattrs

theorem target {a : Nat} (hbegin : begin ≤ a) (hend : a < endAddr) :
    ∃ x, r.2.1.lookup a = some x ∧ PageTableEntry.Target attrs ⟨true, unmap⟩ strict x a := by
  obtain ⟨⟨mid, hsplits, -, hupd⟩, -⟩ := h.ok hok
  exact hupd.target hS hin (hsplits.wf hwf) hpa hattrs hbegin hend

theorem frame {a : Nat} (hout : ¬(begin ≤ a ∧ a < endAddr)) : r.2.1.view a = pt.view a := by
  obtain ⟨⟨mid, hsplits, -, hupd⟩, -⟩ := h.ok hok
  rw [hupd.frame hS hin (hsplits.wf hwf) hpa hattrs hout, hsplits.view hwf]

theorem frame_translate {a : Nat} (hout : ¬(begin ≤ a ∧ a < endAddr)) :
    r.2.1.translate a = pt.translate a := by
  rw [translate_eq (h.wf_table hS hin hok hwf hpa hattrs), translate_eq hwf,
    h.frame hS hin hok hwf hpa hattrs hout]

omit hS hin hwf hpa hattrs in
theorem nodup (hnodup : (pt.pages + mpool.pages).Nodup) : (r.2.1.pages + r.2.2.pages).Nodup := by
  rw [← (h.ok hok).2] at hnodup
  exact Multiset.nodup_of_le (Multiset.le_add_right _ _) hnodup

end UpdateResult

theorem attrsOk_modeToAttrs (S : Stage) (mode : Mode) : AttrsOk (S.modeToAttrs aarch64 mode) := by
  rw [Stage.modeToAttrs]
  cases S.kind with
  | stage1 => exact attrsOk_modeToStage1Attrs mode
  | stage2 => exact attrsOk_modeToStage2Attrs mode

/-! ## Functional correctness -/

/-- If the address field of an entry can express where its range starts, `unmap` removes
exactly the pages of its range; if it can express all of it, `identity_map` maps exactly
the pages of its range to themselves with the requested attributes. -/
theorem identityMap_unmap_correct (hS : S.Valid) {strict : Bool} {pt : PageTable S}
    (hpt : pt.Wf strict) {begin endAddr : Nat} (hlt : begin < endAddr)
    (hle : endAddr ≤ S.ptableAddrSpaceEnd) (hfield : begin < 2 ^ 48) (mode : Mode)
    {mpool : MPool} (hpool : mpool.Wf) (hnodup : (pt.pages + mpool.pages).Nodup) :
    (endAddr ≤ 2 ^ 48 →
      ∀ pt' mpool', pt.identityMap aarch64 begin endAddr mode mpool = some (.ok, pt', mpool') →
      pt'.Wf strict ∧ (pt'.pages + mpool'.pages).Nodup ∧
      (∀ a, roundDownToPage begin ≤ a → a < roundUpToPage endAddr →
        ∃ x, pt'.lookup a = some x ∧ x.attrs = S.modeToAttrs aarch64 mode ∧
          (x.isPresent = true ∨ strict = true → x.output a = a)) ∧
      ∀ a, ¬(roundDownToPage begin ≤ a ∧ a < roundUpToPage endAddr) →
        pt'.translate a = pt.translate a) ∧
    (∀ pt' mpool', pt.unmap aarch64 begin endAddr mpool = some (.ok, pt', mpool') →
      pt'.Wf strict ∧ (pt'.pages + mpool'.pages).Nodup ∧
      (∀ a, roundDownToPage begin ≤ a → a < roundUpToPage endAddr → pt'.translate a = none) ∧
      ∀ a, ¬(roundDownToPage begin ≤ a ∧ a < roundUpToPage endAddr) →
        pt'.translate a = pt.translate a) := by
  obtain ⟨hin, hend⟩ := InSpace.of_range hS hlt hle
  have hbegin : archMmClearPa begin = roundDownToPage begin := archMmClearPa_of_lt hfield
  constructor
  · intro hend' pt' mpool' hmap
    have hbound : roundUpToPage endAddr ≤ 2 ^ 48 := by
      rw [roundUpToPage, roundDownToPage, pageSize_eq, Nat.mod_eq_of_lt (by omega)]
      omega
    obtain ⟨r, hr, hspec⟩ :=
      identityUpdate_spec hS hin (S.modeToAttrs aarch64 mode) false pt hpool
    rw [identityMap, hr] at hmap
    cases hmap
    rw [hend, hbegin] at hin hspec
    have hattrs := attrsOk_modeToAttrs S mode
    have hwf' := hspec.wf_table hS hin rfl hpt (fun _ => hbound) hattrs
    refine ⟨hwf', hspec.nodup rfl hnodup, fun a h1 h2 => ?_,
      fun a ha => hspec.frame_translate hS hin rfl hpt (fun _ => hbound) hattrs ha⟩
    obtain ⟨x, hx, htarget⟩ := hspec.target hS hin rfl hpt (fun _ => hbound) hattrs h1 h2
    simp only [PageTableEntry.Target, Bool.false_eq_true, if_false] at htarget
    refine ⟨x, hx, htarget.1, fun h => ?_⟩
    rcases h with hp | hstrict
    · have htr := translate_eq hwf' a
      simp only [translate, view, hx, bind_some, hp, if_true, Leaf.view,
        map_some, some.injEq, Prod.mk.injEq, true_and] at htr
      exact htr
    · exact htarget.2 hstrict
  · intro pt' mpool' hunmap
    obtain ⟨r, hr, hspec⟩ := identityUpdate_spec hS hin
      (S.modeToAttrs aarch64 (Mode.UNOWNED ||| Mode.INVALID ||| Mode.SHARED)) true pt hpool
    rw [unmap, hr] at hunmap
    cases hunmap
    rw [hend, hbegin] at hin hspec
    have hattrs := attrsOk_modeToAttrs S (Mode.UNOWNED ||| Mode.INVALID ||| Mode.SHARED)
    refine ⟨hspec.wf_table hS hin rfl hpt (by simp) hattrs, hspec.nodup rfl hnodup,
      fun a h1 h2 => ?_, fun a ha => hspec.frame_translate hS hin rfl hpt (by simp) hattrs ha⟩
    obtain ⟨x, hx, htarget⟩ := hspec.target hS hin rfl hpt (by simp) hattrs h1 h2
    simp only [PageTableEntry.Target, if_true] at htarget
    simp [translate, hx, htarget]

/-- A stage with one root table of level 2. -/
def exampleStage : Stage := ⟨.stage2, 1, 1⟩

theorem valid_exampleStage : exampleStage.Valid := ⟨by decide, by decide⟩

theorem fits_exampleStage : exampleStage.Fits := ⟨valid_exampleStage, by decide, by decide⟩

def examplePool : MPool := .ofPool ⟨[], [0x1000, 0x2000, 0x3000]⟩

theorem wf_examplePool : examplePool.Wf := by decide

/-- A table without entries. -/
def emptyTable : PageTable exampleStage := ⟨0x10000, fun _ _ => .absent aarch64 1⟩

theorem wf_emptyTable (strict : Bool) : emptyTable.Wf strict := fun _ _ =>
  wf_absent

theorem view_emptyTable (a : Nat) : emptyTable.view a = none :=
  view_ind (P := (· = none)) _ _ rfl fun _ _ => view_absent a

theorem nodup_emptyTable : (emptyTable.pages + examplePool.pages).Nodup := by
  have hzero : ∀ t i, (emptyTable.tables t i).tablePages = 0 := fun _ _ =>
    tablePages_absent
  have hpages : emptyTable.pages = {0x10000} := by
    rw [pages, Finset.sum_congr rfl fun t _ => Finset.sum_eq_zero fun i _ => hzero t i]
    decide
  have hpool : examplePool.pages = {0x1000, 0x2000, 0x3000} := by decide
  rw [hpages, hpool]
  decide

/-- Mapping the first page of an empty table. -/
theorem identityMap_unmap_correct_empty :
    ∃ pt' mpool', emptyTable.identityMap aarch64 0 0x1000 0#32 examplePool =
        some (.ok, pt', mpool') ∧ ∃ x, pt'.lookup 0 = some x ∧
          x.attrs = archMmModeToStage2Attrs 0#32 ∧ x.output 0 = 0 := by
  have hok : (emptyTable.identityMap aarch64 0 0x1000 0#32 examplePool).map Prod.fst =
      some .ok := by
    decide +kernel
  obtain ⟨⟨o, pt', mpool'⟩, hr, rfl⟩ := map_eq_some_iff.mp hok
  have hspec := (identityMap_unmap_correct valid_exampleStage (wf_emptyTable true) (by decide)
    (by decide) (by decide) 0#32 wf_examplePool nodup_emptyTable).1 (by decide) pt' mpool' hr
  obtain ⟨x, hx, hattrs, hout⟩ := hspec.2.2.1 0 (roundDownToPage_le 0) (by decide +kernel)
  exact ⟨pt', mpool', hr, x, hx, hattrs, hout (Or.inr rfl)⟩

/-- A stage with two root tables of level 4. -/
def wideStage : Stage := ⟨.stage2, 3, 2⟩

/-- The first GiB is mapped as a block. -/
def wideTable : PageTable wideStage where
  root := 0x10000
  tables t i :=
    if t.val = 0 ∧ i = 0 then
      .table (archMmTablePte 3 0x20000) fun j =>
        if j = 0 then .block aarch64 2 0 (archMmModeToStage2Attrs 0#32) else .absent aarch64 2
    else .absent aarch64 3

theorem wf_wideTable : wideTable.Wf true := by decide +kernel

theorem translate_wideTable : wideTable.translate 0 ≠ none := by
  decide +kernel

/-- Everything up to the first page of the second root table can be unmapped
without splitting an entry. -/
theorem covered_wideTable (attrs : BitVec 64) :
    Covered (2 ^ 48 + 0x1000) attrs ⟨false, true⟩ 0 wideTable := by
  have hin : InSpace wideStage 0 (2 ^ 48 + 0x1000) :=
    ⟨by decide, by decide, by decide, by decide⟩
  intro t b hb i b' hb'
  by_cases h : t.val = 0 ∧ i = 0
  · have hchild := hin.child ⟨by decide, by decide⟩ hb
    obtain ⟨-, rfl, -⟩ := (hin.mem_visits ⟨by decide, by decide⟩ t b).mp hb
    obtain ⟨-, rfl, -⟩ := (hchild.mem_visits i b').mp hb'
    refine .cover ?_
    simp only [h.1, h.2, Stage.rootBase, slotBase, Fin.val_zero, Nat.zero_mul, Nat.add_zero,
      Nat.max_self]
    decide
  · have habsent : wideTable.tables t i = .absent aarch64 3 := if_neg h
    rw [habsent]
    refine .skip ?_
    simp only [skips, Bool.true_and, Bool.not_true, Bool.false_and, Bool.or_false,
      Bool.not_eq_true']
    exact archMmPteIsPresent_absent 3

/-- A page entry that is not present, with the address of another page. -/
def strayTable : PageTable exampleStage where
  root := 0x10000
  tables _ i :=
    if i = 0 then
      .table (archMmTablePte 1 0x20000) fun j =>
        if j = 0 then
          .block aarch64 0 0x5000
            (archMmModeToStage2Attrs (Mode.INVALID ||| Mode.UNOWNED ||| Mode.SHARED))
        else .absent aarch64 0
    else .absent aarch64 1

theorem wf_strayTable : strayTable.Wf false := by decide +kernel

/-- A range beyond the address field of an entry starts at its masked address:
unmapping the first page of the second root table unmaps all of the first.  And
a page entry that is not present but has the requested attributes is kept with
whatever address it has. -/
theorem identityMap_unmap_limits :
    (∃ pt' mpool', wideTable.unmap aarch64 (2 ^ 48) (2 ^ 48 + 0x1000) examplePool =
        some (.ok, pt', mpool') ∧ wideTable.Wf true ∧
        2 ^ 48 + 0x1000 ≤ wideStage.ptableAddrSpaceEnd ∧
        pt'.translate 0 = none ∧ wideTable.translate 0 ≠ none) ∧
      ∃ pt' mpool' x, strayTable.identityMap aarch64 0 0x1000
          (Mode.INVALID ||| Mode.UNOWNED ||| Mode.SHARED) examplePool = some (.ok, pt', mpool') ∧
        strayTable.Wf false ∧ pt'.lookup 0 = some x ∧ x.output 0 = 0x5000 := by
  constructor
  · have hS : wideStage.Valid := ⟨by decide, by decide⟩
    have hin : InSpace wideStage (archMmClearPa (2 ^ 48))
        (wideStage.updateEnd (2 ^ 48 + 0x1000)) :=
      (InSpace.of_range hS (by decide) (by decide)).1
    have hbegin : archMmClearPa (2 ^ 48) = 0 := by decide
    have hend : wideStage.updateEnd (2 ^ 48 + 0x1000) =
        2 ^ 48 + 0x1000 := by decide +kernel
    have hattrs := attrsOk_modeToAttrs wideStage (Mode.UNOWNED ||| Mode.INVALID ||| Mode.SHARED)
    have hcovered := covered_wideTable
      (wideStage.modeToAttrs aarch64 (Mode.UNOWNED ||| Mode.INVALID ||| Mode.SHARED))
    rw [← hend, ← hbegin] at hcovered
    obtain ⟨pt', mpool', hr⟩ := identityUpdate_of_covered hS hin hcovered examplePool
    obtain ⟨_, hr', hspec⟩ := identityUpdate_spec hS hin _ true wideTable wf_examplePool
    rw [hr] at hr'
    cases hr'
    obtain ⟨x, hx, htarget⟩ := hspec.target hS hin rfl wf_wideTable (by simp) hattrs
      (a := 0) hbegin.le (by rw [hend]; decide)
    simp only [PageTableEntry.Target, if_true] at htarget
    exact ⟨pt', mpool', hr, wf_wideTable, by decide, by simp [translate, hx, htarget],
      translate_wideTable⟩
  · have heval : (strayTable.identityMap aarch64 0 0x1000
        (Mode.INVALID ||| Mode.UNOWNED ||| Mode.SHARED) examplePool).map
        (fun r => (r.1, (r.2.1.lookup 0).map fun x => x.output 0)) =
        some (.ok, some 0x5000) := by
      decide +kernel
    obtain ⟨⟨o, pt', mpool'⟩, hr, heq⟩ := map_eq_some_iff.mp heval
    obtain ⟨rfl, hlookup⟩ := Prod.mk.inj heq
    obtain ⟨x, hx, hout⟩ := map_eq_some_iff.mp hlookup
    exact ⟨pt', mpool', x, hr, wf_strayTable, hx, hout⟩

/-! ## Atomicity -/

/-- An update that fails has changed no page, and after a first pass that
succeeds the second neither fails nor takes a page from the pool, whatever
that holds. -/
theorem identityUpdate_atomic (hS : S.Valid) {pt : PageTable S} (hpt : pt.Wf false)
    {begin endAddr : Nat} (hlt : begin < endAddr) (hle : endAddr ≤ S.ptableAddrSpaceEnd)
    (attrs : BitVec 64) (unmap : Bool) {mpool : MPool} (hpool : mpool.Wf) :
    (∃ o pt' mpool', pt.identityUpdate aarch64 begin endAddr attrs ⟨false, unmap⟩ mpool =
        some (o, pt', mpool') ∧ (o = .err → ∀ a, pt'.translate a = pt.translate a)) ∧
      ∀ pt' mpool', pt.mapRoot aarch64 (aarch64.clearPa begin)
          (S.updateEnd endAddr) attrs ⟨false, unmap⟩ mpool =
          some (.ok, pt', mpool') →
        ∀ anyPool : MPool, ∃ pt'' anyPool', pt'.mapRoot aarch64 (aarch64.clearPa begin)
            (S.updateEnd endAddr) attrs ⟨true, unmap⟩ anyPool =
            some (.ok, pt'', anyPool') ∧ anyPool.pages ≤ anyPool'.pages := by
  obtain ⟨hin, -⟩ := InSpace.of_range hS hlt hle
  constructor
  · obtain ⟨⟨o, pt', mpool'⟩, hres, hspec⟩ := identityUpdate_spec hS hin attrs unmap pt hpool
    refine ⟨o, pt', mpool', hres, fun ho a => ?_⟩
    obtain ⟨hsplits, -⟩ := hspec.err ho
    rw [translate_eq (hsplits.wf hpt), translate_eq hpt, hsplits.view hpt]
  · intro pt' mpool' hfirst anyPool
    obtain ⟨r, hr, hsplit⟩ := mapRoot_splitPass hS hin attrs ⟨false, unmap⟩ rfl pt hpool
    rw [aarch64_clearPa, hr] at hfirst
    cases hfirst
    obtain ⟨⟨o, pt'', anyPool'⟩, hsecond, hres⟩ :=
      mapRoot_commitPass hS hin rfl (hsplit.covered rfl).commit anyPool
    have hok := hres.ok
    dsimp only at hok
    subst hok
    exact ⟨pt'', anyPool', hsecond, hres.freed.grows⟩

/-- The first of two tables takes the only page of the pool, so that the update fails. -/
theorem identityUpdate_atomic_empty :
    ∃ pt' mpool', emptyTable.identityUpdate aarch64 0x1ff000 0x201000 0#64 ⟨false, false⟩
        (.ofPool ⟨[], [0x1000]⟩) = some (.err, pt', mpool') ∧
      ∀ a, pt'.translate a = emptyTable.translate a := by
  obtain ⟨o, pt', mpool', h, hsame⟩ := (identityUpdate_atomic valid_exampleStage
    (wf_emptyTable false) (show 0x1ff000 < 0x201000 by decide) (by decide) 0#64 false
    (show (MPool.ofPool ⟨[], [0x1000]⟩).Wf by decide)).1
  have heval : (emptyTable.identityUpdate aarch64 0x1ff000 0x201000 0#64 ⟨false, false⟩
      (.ofPool ⟨[], [0x1000]⟩)).map Prod.fst = some .err := by
    decide +kernel
  rw [h] at heval
  cases heval
  exact ⟨pt', mpool', h, hsame rfl⟩

end PageTable
end Hafnium
