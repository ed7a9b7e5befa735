import Hafnium.Mm.Budget
import Hafnium.Mm.Completeness

/-!
# Unmapping leaves no empty tables

While `unmap` is at work, only the tables that the region enters can be empty: those that
the first pass makes, and those whose entries the second pass removes.  The second pass
comes to each of them once more on its way back and removes it if it is empty.  This holds
for both encodings of entries.
-/

namespace Hafnium

open Support RawPageTable Prod Fake

/-! ## Tables with present entries -/

namespace PageTableEntry

variable (A : ArchMm) {level : Nat}

/-- Every table below an entry has a present entry. -/
def Populated (e : PageTableEntry level) : Prop :=
  e.AllTables fun _ es => ∃ i, (es i).isPresent A = true

/-- Every entry that refers to a table is present. -/
def Linked (e : PageTableEntry level) : Prop :=
  e.AllTables fun {level} w _ => A.pteIsPresent w (level + 1) = true

/-- Every table below an entry has a present entry, except for those that a region from
`begin` on enters. -/
def PopulatedOutside (endAddr : Nat) : {level : Nat} → Nat → PageTableEntry level → Prop
  | _, _, leaf _ => True
  | level + 1, begin, table _ es => ∀ i,
      (∀ b, (i, b) ∈ visits endAddr level begin → PopulatedOutside endAddr b (es i)) ∧
      (i ∉ (visits endAddr level begin).map fst → (es i).Populated A)

variable {A}

theorem populated_leaf (w : Pte) : (leaf w : PageTableEntry level).Populated A :=
  allTables_leaf _ w

theorem linked_leaf (w : Pte) : (leaf w : PageTableEntry level).Linked A :=
  allTables_leaf _ w

theorem populatedOutside_leaf (endAddr begin : Nat) (w : Pte) :
    (leaf w : PageTableEntry level).PopulatedOutside A endAddr begin := by
  cases level <;> trivial

theorem Populated.outside {e : PageTableEntry level} (h : e.Populated A) (endAddr begin : Nat) :
    e.PopulatedOutside A endAddr begin := by
  induction e generalizing begin with
  | leaf w => exact populatedOutside_leaf endAddr begin w
  | table w es ih =>
    intro i
    exact ⟨fun b _ => ih i (h.2 i) b, fun _ => h.2 i⟩

end PageTableEntry

/-! ## The two passes -/

namespace RawPageTable

open PageTableEntry

variable {A : ArchMm} {endAddr : Nat} {attrs : BitVec 64} {level : Nat}

/-- What the first pass of `unmap` leaves of an entry. -/
structure Opened (A : ArchMm) (endAddr begin : Nat) (e : PageTableEntry level) : Prop where
  outside : e.PopulatedOutside A endAddr begin
  linked : e.Linked A

/-- What the first pass leaves of the entries of a table. -/
theorem opened_mapLevel {begin : Nat} {w : Pte} {es : RawPageTable level} {mpool : MPool}
    (hpool : mpool.Wf) (hw : A.pteIsPresent w (level + 1) = true)
    (hes : ∀ i, (es i).Populated A ∧ (es i).Linked A)
    (ih : ∀ (begin : Nat) (e : PageTableEntry level) (mpool : MPool), mpool.Wf →
      e.Populated A → e.Linked A →
      (mapEntry A endAddr attrs ⟨false, true⟩ level begin e mpool).2.2.Wf ∧
      Opened A endAddr begin (mapEntry A endAddr attrs ⟨false, true⟩ level begin e mpool).2.1) :
    (mapLevel A endAddr attrs ⟨false, true⟩ level begin es mpool).2.2.Wf ∧ Opened A endAddr begin
        (table w (mapLevel A endAddr attrs ⟨false, true⟩ level begin es mpool).2.1) := by
  obtain ⟨hwf, -, hvisited, hother⟩ :=
    forEach_spec (f := mapEntry A endAddr attrs ⟨false, true⟩ level) MPool.Wf
      (fun _ b _ _ e' => Opened A endAddr b e') (InEntry.visits_nodup endAddr level begin)
      (t := es) hpool fun i b _ s hs => ih b (es i) s hs (hes i).1 (hes i).2
  rw [← mapLevel_eq] at hwf hvisited hother
  have hopened : ∀ i b, (i, b) ∈ visits endAddr level begin → Opened A endAddr b
        ((mapLevel A endAddr attrs ⟨false, true⟩ level begin es mpool).2.1 i) := by
    intro i b hb
    rcases hvisited i b hb with heq | ⟨o, h⟩
    · rw [heq]
      exact ⟨(hes i).1.outside endAddr b, (hes i).2⟩
    · exact h
  refine ⟨hwf, ?_, hw, ?_⟩
  · intro i
    refine ⟨fun b hb => (hopened i b hb).outside, fun hi => ?_⟩
    rw [hother i hi]
    exact (hes i).1
  · intro i
    by_cases hi : i ∈ (visits endAddr level begin).map fst
    · obtain ⟨⟨i, b⟩, hb, rfl⟩ := List.mem_map.mp hi
      exact (hopened i b hb).linked
    · rw [hother i hi]
      exact (hes i).2

theorem opened_mapEntry (hA : ∀ level page, Aarch64.IsPa page →
      A.pteIsPresent (A.tablePte (level + 1) page) (level + 1) = true) :
    ∀ (level : Nat) (begin : Nat) (e : PageTableEntry level) (mpool : MPool), mpool.Wf →
      e.Populated A → e.Linked A →
      (mapEntry A endAddr attrs ⟨false, true⟩ level begin e mpool).2.2.Wf ∧
      Opened A endAddr begin (mapEntry A endAddr attrs ⟨false, true⟩ level begin e mpool).2.1 := by
  intro level
  induction level with
  | zero =>
    intro begin e mpool hpool hpopulated hlinked
    have hsame : (mapEntry A endAddr attrs ⟨false, true⟩ 0 begin e mpool).2 = (e, mpool) := by
      simp only [mapEntry, mapPte, Bool.false_eq_true, if_false]
      split
      · rfl
      · split <;> rfl
    rw [hsame]
    exact ⟨hpool, hpopulated.outside endAddr begin, hlinked⟩
  | succ level ih =>
    intro begin e mpool hpool hpopulated hlinked
    have hkept : mpool.Wf ∧ Opened A endAddr begin e :=
      ⟨hpool, hpopulated.outside endAddr begin, hlinked⟩
    cases hskip : skips A attrs ⟨false, true⟩ e with
    | true =>
      rw [mapEntry_skip hskip]
      exact hkept
    | false =>
      cases hcover : coversEntry A endAddr ⟨false, true⟩ (level + 1) begin with
      | true =>
        rw [mapEntry_cover hskip hcover rfl]
        exact hkept
      | false =>
        rw [mapEntry_descend hskip hcover]
        cases e with
        | table w es =>
          rw [mapSubtable_table_first]
          exact opened_mapLevel hpool hlinked.1 (fun i => ⟨hpopulated.2 i, hlinked.2 i⟩) ih
        | leaf w =>
          cases halloc : mpool.alloc with
          | none =>
            rw [mapSubtable_leaf_none halloc]
            exact hkept
          | some p =>
            obtain ⟨page, mpool'⟩ := p
            rw [mapSubtable_leaf_some halloc, mapSubtable_table_first]
            have hwf' := (MPool.alloc_spec hpool halloc).2
            have hpage := hA level page (MPool.isPa_of_alloc hpool halloc)
            apply opened_mapLevel hwf' hpage _ ih
            intro i
            obtain ⟨v, hv⟩ := splitEntries_eq_leaf A level w i
            rw [hv]
            exact ⟨populated_leaf v, linked_leaf v⟩

section Second

variable {begin : Nat} {w : Pte} {es : RawPageTable level} {mpool : MPool}
  (hes : ∀ i, (∀ b, (i, b) ∈ visits endAddr level begin → Opened A endAddr b (es i)) ∧
    (i ∉ (visits endAddr level begin).map fst → (es i).Populated A))
  (ih : ∀ (begin : Nat) (e : PageTableEntry level) (mpool : MPool), Opened A endAddr begin e →
    (mapEntry A endAddr attrs ⟨true, true⟩ level begin e mpool).1 = .ok →
    (mapEntry A endAddr attrs ⟨true, true⟩ level begin e mpool).2.1.Populated A)
include hes ih

/-- What the second pass leaves of the entries of a table that the region enters. -/
theorem populated_mapLevel
    (hok : (mapLevel A endAddr attrs ⟨true, true⟩ level begin es mpool).1 = .ok) (i : Fin 512) :
    ((mapLevel A endAddr attrs ⟨true, true⟩ level begin es mpool).2.1 i).Populated A := by
  obtain ⟨-, hvisited, -, hother⟩ :=
    forEach_spec (f := mapEntry A endAddr attrs ⟨true, true⟩ level) (fun _ => True)
      (fun _ _ _ o e' => o = .ok → e'.Populated A) (InEntry.visits_nodup endAddr level begin)
      (t := es) (s := mpool) trivial fun i b hb s _ => ⟨trivial, ih b (es i) s ((hes i).1 b hb)⟩
  rw [← mapLevel_eq] at hvisited hother
  by_cases hi : i ∈ (visits endAddr level begin).map fst
  · obtain ⟨⟨i, b⟩, hb, rfl⟩ := List.mem_map.mp hi
    exact hvisited hok i b hb rfl
  · rw [hother i hi]
    exact (hes i).2 hi

/-- On its way back from a table, the second pass removes it if it is empty. -/
theorem populated_mapSubtable
    (hok : (mapSubtable A ⟨true, true⟩ (mapLevel A endAddr attrs ⟨true, true⟩ level) begin
      (table w es) mpool).1 = .ok) :
    (mapSubtable A ⟨true, true⟩ (mapLevel A endAddr attrs ⟨true, true⟩ level) begin
      (table w es) mpool).2.1.Populated A := by
  have hbelow (hok : (mapLevel A endAddr attrs ⟨true, true⟩ level begin es mpool).1 = .ok) :=
    populated_mapLevel hes ih hok
  rcases h : mapLevel A endAddr attrs ⟨true, true⟩ level begin es mpool with ⟨_ | _, es', mpool'⟩
  · rw [h] at hbelow
    cases hempty : (Flags.mk true true).commit && (Flags.mk true true).unmap && isEmpty A es' with
    | true =>
      rw [mapSubtable_table_empty h hempty]
      exact populated_leaf _
    | false =>
      rw [mapSubtable_table_ok h hempty]
      refine ⟨?_, hbelow rfl⟩
      rw [Bool.true_and, Bool.true_and, ← Bool.not_eq_true, isEmpty_iff, not_forall] at hempty
      obtain ⟨i, hi⟩ := hempty
      exact ⟨i, Bool.eq_true_of_not_eq_false hi⟩
  · rw [mapSubtable_table_err h] at hok
    contradiction

end Second

theorem populated_mapEntry :
    ∀ (level : Nat) (begin : Nat) (e : PageTableEntry level) (mpool : MPool),
      Opened A endAddr begin e →
      (mapEntry A endAddr attrs ⟨true, true⟩ level begin e mpool).1 = .ok →
      (mapEntry A endAddr attrs ⟨true, true⟩ level begin e mpool).2.1.Populated A := by
  intro level
  induction level with
  | zero =>
    intro begin e mpool _ _
    cases hres : (mapEntry A endAddr attrs ⟨true, true⟩ 0 begin e mpool).2.1 with
    | leaf w => exact populated_leaf w
  | succ level ih =>
    intro begin e mpool hopened hok
    cases hskip : skips A attrs ⟨true, true⟩ e with
    | true =>
      -- an entry that is skipped is not present, and refers to no table then
      rw [mapEntry_skip hskip]
      cases e with
      | leaf w => exact populated_leaf w
      | table w es =>
        have hpresent : (table w es).isPresent A = true := hopened.linked.1
        rw [skips, hpresent] at hskip
        contradiction
    | false =>
      cases hcover : coversEntry A endAddr ⟨true, true⟩ (level + 1) begin with
      | true =>
        rw [mapEntry_cover_commit hskip hcover rfl]
        exact populated_leaf _
      | false =>
        rw [mapEntry_descend hskip hcover] at hok ⊢
        cases e with
        | table w es =>
          apply populated_mapSubtable _ ih hok
          intro i
          exact ⟨fun b hb => ⟨(hopened.outside i).1 b hb, hopened.linked.2 i⟩,
            (hopened.outside i).2⟩
        | leaf w =>
          cases halloc : mpool.alloc with
          | none =>
            rw [mapSubtable_leaf_none halloc]
            exact populated_leaf w
          | some p =>
            rw [mapSubtable_leaf_some halloc] at hok ⊢
            apply populated_mapSubtable _ ih hok
            intro i
            obtain ⟨v, hv⟩ := splitEntries_eq_leaf A level w i
            rw [hv]
            exact ⟨fun b _ => ⟨populatedOutside_leaf endAddr b v, linked_leaf v⟩,
              fun _ => populated_leaf v⟩

end RawPageTable

/-! ## Whole page tables -/

namespace PageTable

variable {S : Stage} {A : ArchMm} {begin endAddr : Nat} {attrs : BitVec 64} {pt pt' : PageTable S}
  {mpool mpool' : MPool}

/-- Every table below the root tables has a present entry. -/
def Populated (A : ArchMm) (pt : PageTable S) : Prop := ∀ t i, (pt.tables t i).Populated A

theorem mapRoot_eq_some {flags : Flags} {o : Outcome}
    (h : pt.mapRoot A begin endAddr attrs flags mpool = some (o, pt', mpool')) :
    forEach (mapLevel A endAddr attrs flags S.maxLevel) (visits S endAddr begin)
      pt.tables mpool = (o, pt'.tables, mpool') := by
  rw [mapRoot] at h
  split at h
  · contradiction
  · cases h
    rfl

theorem identityUpdate_eq_ok {unmap : Bool}
    (h : pt.identityUpdate A begin endAddr attrs ⟨false, unmap⟩ mpool = some (.ok, pt', mpool')) :
    ∃ mid mpool₁, pt.mapRoot A (A.clearPa begin) (S.updateEnd endAddr) attrs ⟨false, unmap⟩ mpool =
        some (.ok, mid, mpool₁) ∧
      mid.mapRoot A (A.clearPa begin) (S.updateEnd endAddr) attrs ⟨true, unmap⟩ mpool₁ =
        some (.ok, pt', mpool') := by
  rw [identityUpdate] at h
  dsimp only at h
  split at h
  · contradiction
  · cases h
  · rename_i mid mpool₁ hfirst
    exact ⟨mid, mpool₁, hfirst, h⟩

/-- `unmap` keeps every table populated. -/
theorem populated_of_unmap (hA : ∀ level page, Aarch64.IsPa page →
      A.pteIsPresent (A.tablePte (level + 1) page) (level + 1) = true)
    (hpool : mpool.Wf) (hpt : pt.Populated A) (hlinked : ∀ t i, (pt.tables t i).Linked A)
    (h : pt.unmap A begin endAddr mpool = some (.ok, pt', mpool')) : pt'.Populated A := by
  obtain ⟨mid, mpool₁, hfirst, hsecond⟩ := identityUpdate_eq_ok h
  have hfirst := mapRoot_eq_some hfirst
  have hsecond := mapRoot_eq_some hsecond
  have hnodup := InSpace.visits_nodup S (S.updateEnd endAddr) (A.clearPa begin)
  have hroot := hA S.maxLevel 0 ⟨by decide, by decide⟩
  -- a root table is like the table of an entry that refers to it
  obtain ⟨-, hopened, -, hother⟩ := forEach_spec
    (f := mapLevel A (S.updateEnd endAddr) _ ⟨false, true⟩ S.maxLevel) MPool.Wf
    (fun _ b _ _ es' => RawPageTable.Opened A (S.updateEnd endAddr) b
      (.table (A.tablePte (S.maxLevel + 1) 0) es')) hnodup (t := pt.tables) hpool
    fun t b _ s hs => opened_mapLevel hs hroot (fun i => ⟨hpt t i, hlinked t i⟩)
      (opened_mapEntry hA S.maxLevel)
  rw [hfirst] at hopened hother
  obtain ⟨-, hpopulated, -, hother'⟩ := forEach_spec
    (f := mapLevel A (S.updateEnd endAddr) _ ⟨true, true⟩ S.maxLevel) (fun _ => True)
    (fun _ _ _ o es' => o = .ok → ∀ i, (es' i).Populated A) hnodup (t := mid.tables)
    (s := mpool₁) trivial fun t b hb s _ => ⟨trivial, fun hok i =>
      populated_mapLevel (fun i =>
        ⟨fun b' hb' => ⟨((hopened rfl t b hb).outside i).1 b' hb', (hopened rfl t b hb).linked.2 i⟩,
          ((hopened rfl t b hb).outside i).2⟩)
        (populated_mapEntry S.maxLevel) hok i⟩
  rw [hsecond] at hpopulated hother'
  intro t i
  by_cases ht : t ∈ (visits S (S.updateEnd endAddr) (A.clearPa begin)).map fst
  · obtain ⟨⟨t, b⟩, hb, rfl⟩ := List.mem_map.mp ht
    exact hpopulated rfl t b hb rfl i
  · rw [show pt'.tables t = mid.tables t from hother' t ht,
      show mid.tables t = pt.tables t from hother t ht]
    exact hpt t i

/-! ### Unmapping everything -/

theorem mapEntry_whole {level : Nat} (habsent : A.pteIsPresent (A.absentPte level) level = false)
    (hcover : coversEntry A endAddr ⟨true, true⟩ level begin = true)
    (e : PageTableEntry level) (mpool : MPool) :
    (mapEntry A endAddr attrs ⟨true, true⟩ level begin e mpool).2.1.isPresent A = false := by
  cases hskip : skips A attrs ⟨true, true⟩ e with
  | true =>
    rw [mapEntry_skip hskip]
    simpa [skips] using hskip
  | false =>
    rw [mapEntry_cover_commit hskip hcover rfl]
    exact habsent

/-- A table that lies in the region is emptied. -/
theorem mapLevel_whole {level base : Nat}
    (habsent : A.pteIsPresent (A.absentPte level) level = false)
    (hin : InEntry (level + 1) base base endAddr) (hend : base + entrySize (level + 1) ≤ endAddr)
    (es : RawPageTable level) (mpool : MPool)
    (hok : (mapLevel A endAddr attrs ⟨true, true⟩ level base es mpool).1 = .ok)
    (i : Fin 512) :
    ((mapLevel A endAddr attrs ⟨true, true⟩ level base es mpool).2.1 i).isPresent A = false := by
  have hfirst : index base level = 0 := by
    have hdvd := Nat.dvd_of_mod_eq_zero hin.aligned
    obtain ⟨q, hq⟩ := hdvd
    rw [Hafnium.index_eq, hq, entrySize_succ, Nat.mul_comm 512, Nat.mul_assoc,
      Nat.mul_div_cancel_left _ (entrySize_pos level), Nat.mul_mod_right]
  have hslot : ∀ j : Fin 512, slotBase base (entrySize level) j + entrySize level ≤ endAddr :=
    fun j => (slotBase_add_le base level j).trans hend
  have hbase : ∀ j, base ≤ slotBase base (entrySize level) j := fun _ => Nat.le_add_right ..
  obtain ⟨-, hvisited, -, -⟩ :=
    forEach_spec (f := mapEntry A endAddr attrs ⟨true, true⟩ level) (fun _ => True)
      (fun _ _ _ _ e' => e'.isPresent A = false) (InEntry.visits_nodup endAddr level base)
      (t := es) (s := mpool) trivial fun j b hb s _ => by
        obtain ⟨-, rfl, -⟩ := (hin.mem_visits j b).mp hb
        refine ⟨trivial, mapEntry_whole habsent ?_ (es j) s⟩
        rw [Nat.max_eq_right (hbase j)]
        have hle := hslot j
        have haligned := slotBase_aligned hin.aligned j
        simp only [coversEntry, Bool.true_or, Bool.and_true, Bool.and_eq_true,
          decide_eq_true_eq, beq_iff_eq]
        omega
  rw [← mapLevel_eq] at hvisited
  apply hvisited hok i (slotBase base (entrySize level) i)
  rw [hin.mem_visits, hfirst, Nat.max_eq_right (hbase i)]
  have hle := hslot i
  have hpos := entrySize_pos level
  exact ⟨Nat.zero_le _, rfl, by omega⟩

/-- After all of the address space has been unmapped, no entry of a root table is present. -/
theorem not_present_of_unmap_all (hS : S.Fits) (hclear : A.clearPa 0 = 0)
    (habsent : A.pteIsPresent (A.absentPte S.maxLevel) S.maxLevel = false)
    (h : pt.unmap A 0 S.ptableAddrSpaceEnd mpool = some (.ok, pt', mpool'))
    (t : Fin S.rootTableCount) (i : Fin 512) : (pt'.tables t i).isPresent A = false := by
  obtain ⟨mid, mpool₁, -, hsecond⟩ := identityUpdate_eq_ok h
  have hsecond := mapRoot_eq_some hsecond
  obtain ⟨hbound, hpage⟩ := hS.toValid.ptableAddrSpaceEnd_le
  have hend : S.updateEnd S.ptableAddrSpaceEnd = S.ptableAddrSpaceEnd := by
    rw [Stage.updateEnd, roundUpToPage, roundDownToPage, pageSize_eq]
    omega
  rw [hclear, hend] at hsecond
  have hpos : 0 < S.ptableAddrSpaceEnd :=
    Nat.mul_pos hS.rootTableCount_pos (entrySize_pos S.rootLevel)
  have hin : InSpace S 0 S.ptableAddrSpaceEnd := ⟨hpos, le_rfl, by decide, hpage⟩
  have hroot : ∀ t : Fin S.rootTableCount,
      S.rootBase t + entrySize S.rootLevel ≤ S.ptableAddrSpaceEnd := by
    intro t
    rw [Stage.rootBase, ← slotBase_succ, slotBase, Nat.zero_add]
    exact Nat.mul_le_mul_right _ t.isLt
  obtain ⟨-, hvisited, -, -⟩ := forEach_spec
    (f := mapLevel A S.ptableAddrSpaceEnd
      (S.modeToAttrs A (Mode.UNOWNED ||| Mode.INVALID ||| Mode.SHARED)) ⟨true, true⟩ S.maxLevel)
    (fun _ => True) (fun _ _ _ o es' => o = .ok → ∀ i, (es' i).isPresent A = false)
    (InSpace.visits_nodup S S.ptableAddrSpaceEnd 0) (t := mid.tables) (s := mpool₁) trivial
    fun t b hb s _ => by
      have hchild := hin.child hS.toValid hb
      obtain ⟨-, rfl, -⟩ := (hin.mem_visits hS.toValid t b).mp hb
      rw [Nat.max_eq_right (Nat.zero_le _)] at hchild ⊢
      exact ⟨trivial, fun hok => mapLevel_whole habsent hchild (hroot t) (mid.tables t) s hok⟩
  rw [hsecond] at hvisited
  refine hvisited rfl t (S.rootBase t) ?_ rfl i
  rw [hin.mem_visits hS.toValid, Nat.max_eq_right (Nat.zero_le _), Nat.zero_div]
  have hle := hroot t
  have hsize := entrySize_pos S.rootLevel
  exact ⟨Nat.zero_le _, rfl, by omega⟩

/-! ### Both encodings -/

end PageTable

theorem Backend.isPresent_tablePte (b : Backend) (level : Nat) {page : Nat}
    (hpage : Aarch64.IsPa page) :
    b.arch.pteIsPresent (b.arch.tablePte (level + 1) page) (level + 1) = true := by
  cases b with
  | aarch64 =>
    exact Aarch64.archMmPteIsPresent_of_isTable (Aarch64.archMmPteIsTable_tablePte hpage level)
  | fake =>
    change archMmPteIsPresent (archMmTablePte (level + 1) page) (level + 1) = true
    -- the bits of the modes are none of the address or of the mark of a table
    have hbit : page.testBit 52 = false := hpage.testBit 52 (by decide)
    have htable : pteTable.getLsbD 52 = false := by decide
    rw [archMmPteIsPresent_eq, archMmTablePte, BitVec.getLsbD_shiftLeft,
      BitVec.getLsbD_ushiftRight]
    by_cases hshift : 52 < pteLevelShift (level + 1)
    · simp [hshift]
    · rw [Nat.add_sub_cancel' (Nat.not_lt.mp hshift), BitVec.getLsbD_or, BitVec.getLsbD_ofNat,
        hbit, htable]
      simp

namespace PageTable

variable {S : Stage}

theorem linked_of_wellFormed {b : Backend} {level base : Nat} {e : PageTableEntry level}
    (h : e.WellFormed b base) : e.Linked b.arch := by
  induction e generalizing base with
  | leaf w => exact PageTableEntry.linked_leaf w
  | table w es ih => exact ⟨h.1.isPresent, fun i => ih i (h.2 i)⟩

/-- A successful `unmap` leaves no table without a present entry; after one of the whole
address space, no entry of a root table is present. -/
theorem unmap_populated {b : Backend} (hS : S.Fits) (hb : b.Supports S) {pt : PageTable S}
    (hwf : pt.WellFormed b) {mpool : MPool} (hpool : mpool.Wf) :
    (pt.Populated b.arch → ∀ begin endAddr pt' mpool',
      pt.unmap b.arch begin endAddr mpool = some (.ok, pt', mpool') → pt'.Populated b.arch) ∧
    ∀ pt' mpool', pt.unmap b.arch 0 S.ptableAddrSpaceEnd mpool = some (.ok, pt', mpool') →
      ∀ t i, (pt'.tables t i).isPresent b.arch = false := by
  constructor
  · intro hpt begin endAddr pt' mpool' h
    exact populated_of_unmap (fun level _ => b.isPresent_tablePte level) hpool hpt
      (fun t i => linked_of_wellFormed (hwf t i)) h
  · intro pt' mpool' h t i
    apply not_present_of_unmap_all hS _ _ h
    · cases b with
      | aarch64 => rfl
      | fake => rfl
    · exact (Backend.mergeable hb).not_present_absent S.maxLevel le_rfl

/-- A page table that maps only the second block, for reading. -/
def readableBlock : PageTable exampleStage where
  root := 0x10000
  tables _ i :=
    if i = 1 then .leaf (aarch64.blockPte 1 0x200000 (exampleStage.modeToAttrs aarch64 Mode.R))
    else .absent aarch64 1

theorem readableBlock_eq_leaf (t : Fin exampleStage.rootTableCount) (i : Fin 512) :
    ∃ w, readableBlock.tables t i = .leaf w := by
  by_cases hi : i = 1
  · exact ⟨_, if_pos hi⟩
  · exact ⟨_, if_neg hi⟩

theorem wf_readableBlock : readableBlock.Wf false := by
  intro t i
  by_cases hi : i = 1
  · have ht : t = ⟨0, by decide⟩ := Fin.ext (Nat.lt_one_iff.mp t.isLt)
    subst hi ht
    exact ⟨by decide, fun _ => by decide, fun _ => by decide⟩
  · have hentry : readableBlock.tables t i = .absent aarch64 1 := if_neg hi
    rw [hentry]
    exact PageTableEntry.wf_absent

theorem wellFormed_readableBlock : readableBlock.WellFormed .aarch64 := by
  intro t i
  obtain ⟨w, hw⟩ := readableBlock_eq_leaf t i
  have hwf := wf_readableBlock t i
  rw [hw] at hwf ⊢
  exact ⟨hwf.1, fun hpresent => ⟨hwf.2.1 hpresent, hwf.2.2 (.inl hpresent)⟩⟩

theorem unmap_populated_readableBlock :
    (∃ pt' mpool', readableBlock.unmap aarch64 0x200000 0x201000 examplePool =
      some (.ok, pt', mpool') ∧ pt'.Populated aarch64) ∧
    ∃ pt' mpool', readableBlock.unmap aarch64 0 exampleStage.ptableAddrSpaceEnd examplePool =
      some (.ok, pt', mpool') ∧ ∀ t i, (pt'.tables t i).isPresent aarch64 = false := by
  have hpage : (readableBlock.unmap aarch64 0x200000 0x201000 examplePool).map fst =
      some .ok := by
    decide +kernel
  have hspace : InSpace exampleStage (aarch64.clearPa 0)
      (exampleStage.updateEnd exampleStage.ptableAddrSpaceEnd) :=
    ⟨by decide, by decide, by decide, by decide⟩
  obtain ⟨ptAll, mpoolAll, hall⟩ : ∃ pt' mpool', readableBlock.unmap aarch64 0
      exampleStage.ptableAddrSpaceEnd examplePool = some (.ok, pt', mpool') :=
    (identityUpdate_need_iff valid_exampleStage wf_readableBlock wf_examplePool hspace).mpr
      (by decide +kernel)
  have hpopulated : readableBlock.Populated aarch64 := by
    intro t i
    obtain ⟨w, hw⟩ := readableBlock_eq_leaf t i
    rw [hw]
    exact PageTableEntry.populated_leaf w
  have h := unmap_populated (b := .aarch64) fits_exampleStage nofun wellFormed_readableBlock
    wf_examplePool
  constructor
  · obtain ⟨⟨o, pt', mpool'⟩, hr, rfl⟩ := Option.map_eq_some_iff.mp hpage
    exact ⟨pt', mpool', hr, h.1 hpopulated _ _ pt' mpool' hr⟩
  · exact ⟨ptAll, mpoolAll, hall, h.2 ptAll mpoolAll hall⟩

end PageTable
end Hafnium
