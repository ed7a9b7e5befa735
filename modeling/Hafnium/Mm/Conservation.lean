import Hafnium.Mm.Budget
import Hafnium.Mm.Defrag
import Hafnium.Support.Run

/-!
# Where the pages of page tables go

Any number of page tables share a pool.  Every operation on them moves pages
between the pool and the tables, except that a valid block which replaces a
table loses the pages of that table.  The module says when that happens, and
that over whole runs it is the only way to lose a page.
-/

namespace Hafnium

open Support Aarch64 Option MPool

theorem sum_map_eq_zero_iff {ι β M : Type} {l : List (ι × β)} {f : ι × β → Multiset M} :
    (l.map f).sum = 0 ↔ ∀ i b, (i, b) ∈ l → f (i, b) = 0 := by
  rw [List.sum_eq_zero_iff, List.forall_mem_map, Prod.forall]

theorem Aarch64.archMmPteIsValid_blockPte {pa : Nat} (hpa : IsPa pa) {attrs : BitVec 64}
    (hattrs : AttrsOk attrs) (l l' : Nat) :
    archMmPteIsValid (archMmBlockPte l pa attrs) l' = archMmPteIsValid attrs l' := by
  rw [← archMmPteIsValid_pteAttrs _ l', archMmPteAttrs_blockPte hpa hattrs]

namespace PageTableEntry

/-- Some table below an entry starts and ends in the region, at a level where a
block may stand in its place. -/
def WholeTable (begin endAddr : Nat) : {level : Nat} → Nat → PageTableEntry level → Prop
  | _, _, leaf _ => False
  | level + 1, base, table _ es =>
    (archMmIsBlockAllowed (level + 1) = true ∧ begin ≤ base ∧
      base + entrySize (level + 1) ≤ endAddr) ∨
    ∃ i : Fin 512, (es i).WholeTable begin endAddr (slotBase base (entrySize level) i)

variable {level base begin endAddr : Nat}

theorem not_wholeTable_leaf (w : Pte) :
    ¬(leaf w : PageTableEntry level).WholeTable begin endAddr base := by
  cases level <;> exact id

/-- Such a table starts in the region and below the entry. -/
theorem WholeTable.exists_mem {e : PageTableEntry level} (h : e.WholeTable begin endAddr base) :
    ∃ x, base ≤ x ∧ x < base + entrySize level ∧ begin ≤ x ∧ x < endAddr := by
  induction e generalizing base with
  | leaf w => exact absurd h (not_wholeTable_leaf w)
  | @table level w es ih =>
    rcases h with ⟨-, hlo, hhi⟩ | ⟨i, hi⟩
    · have := entrySize_pos (level + 1)
      exact ⟨base, by omega, by omega, hlo, by omega⟩
    · obtain ⟨x, h1, h2, h3⟩ := ih i hi
      have hle := slotBase_add_le base level i
      have hge : base ≤ slotBase base (entrySize level) i := Nat.le_add_right _ _
      exact ⟨x, by omega, by omega, h3⟩

/-- Only where the region starts relative to the entry matters. -/
theorem wholeTable_max {e : PageTableEntry level} {b : Nat} (hb : b ≤ base) :
    e.WholeTable (max begin b) endAddr base ↔ e.WholeTable begin endAddr base := by
  induction e generalizing base with
  | leaf w => exact iff_of_false (not_wholeTable_leaf w) (not_wholeTable_leaf w)
  | @table level w es ih =>
    have hslot : ∀ i : Fin 512, b ≤ slotBase base (entrySize level) i := fun i =>
      hb.trans (Nat.le_add_right _ _)
    have hmax : max begin b ≤ base ↔ begin ≤ base := by omega
    simp only [WholeTable, hmax, fun i => ih i (hslot i)]

end PageTableEntry

namespace RawPageTable

open PageTableEntry

variable {strict commit : Bool} {attrs : BitVec 64} {level base begin endAddr : Nat}

theorem newEntry_isValid_map (hpa : IsPa begin) (hattrs : AttrsOk attrs) :
    (newEntry aarch64 attrs ⟨commit, false⟩ level begin).isValid aarch64 =
      archMmPteIsValid attrs level := by
  simp only [newEntry, Bool.false_eq_true, if_false, block, isValid, inner_leaf,
    aarch64_pteIsValid, aarch64_blockPte]
  exact archMmPteIsValid_blockPte hpa hattrs level level

/-- The visited entries leak nothing exactly if no entry has a whole table in
the region. -/
theorem sum_leaks_eq_zero_iff {es : RawPageTable level} {flags : Flags}
    (hin : InEntry (level + 1) base begin endAddr)
    (h : ∀ i b, (i, b) ∈ visits endAddr level begin → (leaks endAddr attrs flags b (es i) = 0 ↔
        ¬(es i).WholeTable b endAddr (slotBase base (entrySize level) i))) :
    ((visits endAddr level begin).map fun p => leaks endAddr attrs flags p.2 (es p.1)).sum = 0 ↔
      ∀ i : Fin 512, ¬(es i).WholeTable begin endAddr (slotBase base (entrySize level) i) := by
  rw [sum_map_eq_zero_iff]
  have hmax : ∀ i b, (i, b) ∈ visits endAddr level begin →
      ((es i).WholeTable b endAddr (slotBase base (entrySize level) i) ↔
        (es i).WholeTable begin endAddr (slotBase base (entrySize level) i)) := by
    intro i b hb
    obtain ⟨-, rfl, -⟩ := (hin.mem_visits i b).mp hb
    exact wholeTable_max le_rfl
  constructor
  · intro hall i hi
    -- a whole table starts in the region, so its entry is visited
    obtain ⟨x, h1, h2, h3, h4⟩ := hi.exists_mem
    have hle := slotBase_add_le base level i
    have hge : base ≤ slotBase base (entrySize level) i := Nat.le_add_right _ _
    obtain ⟨b, hb, -⟩ := hin.visits_of_mem (a := x) (by omega) (by omega) h3 h4
    have hidx : (⟨index x level, index_lt x level⟩ : Fin 512) = i :=
      Fin.ext (index_of_slot hin.aligned i.isLt h1 h2)
    rw [hidx] at hb
    exact (h i b hb).mp (hall i b hb) ((hmax i b hb).mpr hi)
  · intro hnone i b hb
    exact (h i b hb).mpr fun hi => hnone i ((hmax i b hb).mp hi)

/-- An update leaks exactly if it maps a valid block over a table that lies in
the region as a whole. -/
theorem leaks_eq_zero_iff {e : PageTableEntry level} (hwf : e.Wf strict base)
    (hin : InEntry level base begin endAddr) (hend : endAddr ≤ 2 ^ 48) (hattrs : AttrsOk attrs)
    (hvalid : ∀ l, archMmPteIsValid attrs l = true) :
    leaks endAddr attrs ⟨commit, false⟩ begin e = 0 ↔ ¬e.WholeTable begin endAddr base := by
  induction e generalizing base begin with
  | leaf w => exact iff_of_true (leaks_leaf _ _) (not_wholeTable_leaf w)
  | @table level w es ih =>
    have hlt := hin.lt
    have hpa : IsPa begin := ⟨hin.beginPage, by omega⟩
    have hskip : skips aarch64 attrs ⟨commit, false⟩ (.table w es) = false :=
      skips_table hwf.1 es attrs _
    have hself : (PageTableEntry.table w es).isValid aarch64 = true :=
      archMmPteIsValid_of_isTable hwf.1
    simp only [leaks, hskip, hself, newEntry_isValid_map hpa hattrs, hvalid, Bool.and_true,
      Bool.false_eq_true, if_false, if_true]
    cases hcovers : coversEntry aarch64 endAddr ⟨commit, false⟩ (level + 1) begin with
    | true =>
      obtain ⟨rfl, hhi⟩ := hin.of_covers hcovers
      simp only [coversEntry, Bool.false_or, Bool.and_eq_true] at hcovers
      refine iff_of_false ?_ (not_not_intro (Or.inl ⟨hcovers.1.2, le_rfl, hhi⟩))
      simp [tablePages_table]
    | false =>
      -- the entry itself is not covered, so a whole table is one below it
      have hnot : ¬(archMmIsBlockAllowed (level + 1) = true ∧ begin ≤ base ∧
          base + entrySize (level + 1) ≤ endAddr) := by
        rintro ⟨hallowed, hle, hhi⟩
        have heq : begin = base := le_antisymm hle hin.lo
        have : coversEntry aarch64 endAddr ⟨commit, false⟩ (level + 1) begin = true := by
          simp only [coversEntry, aarch64_isBlockAllowed, hallowed, heq, hin.aligned]
          simp only [Bool.or_true, Bool.and_true, beq_self_eq_true, decide_eq_true_eq]
          omega
        rw [hcovers] at this
        exact absurd this (by decide)
      simp only [Bool.false_eq_true, if_false, WholeTable, hnot, false_or, not_exists]
      exact sum_leaks_eq_zero_iff hin fun i b hb => ih i (hwf.2 i) (hin.child hb)

/-- An update that writes no valid entry leaks nothing. -/
theorem leaks_eq_zero_of_invalid {flags : Flags} {e : PageTableEntry level}
    (h : ∀ l b, b % 4096 = 0 → b < endAddr →
      (newEntry aarch64 attrs flags l b).isValid aarch64 = false)
    (hin : InEntry level base begin endAddr) : leaks endAddr attrs flags begin e = 0 := by
  induction e generalizing base begin with
  | leaf w => exact leaks_leaf _ _
  | @table level w es ih =>
    simp only [leaks, h _ _ hin.beginPage hin.lt, Bool.and_false, Bool.false_eq_true, if_false]
    split
    · rfl
    · split
      · rfl
      · exact sum_map_eq_zero_iff.mpr fun i b hb => ih i (hin.child hb)

end RawPageTable

namespace PageTable

variable {S : Stage} {strict : Bool} {attrs : BitVec 64} {begin endAddr : Nat}

/-- Some table of a page table starts and ends in the region, at a level where a
block may stand in its place. -/
def WholeTable (begin endAddr : Nat) (pt : PageTable S) : Prop :=
  ∃ (t : Fin S.rootTableCount) (i : Fin 512), (pt.tables t i).WholeTable begin endAddr
    (slotBase (S.rootBase t) (entrySize S.maxLevel) i)

theorem leaks_eq_zero_iff {pt : PageTable S} {commit : Bool} (hS : S.Valid) (hwf : pt.Wf strict)
    (hin : InSpace S begin endAddr) (hend : endAddr ≤ 2 ^ 48) (hattrs : AttrsOk attrs)
    (hvalid : ∀ l, archMmPteIsValid attrs l = true) :
    leaks endAddr attrs ⟨commit, false⟩ begin pt = 0 ↔ ¬pt.WholeTable begin endAddr := by
  have hroot : ∀ t b, (t, b) ∈ visits S endAddr begin →
      (((RawPageTable.visits endAddr S.maxLevel b).map fun q =>
        RawPageTable.leaks endAddr attrs ⟨commit, false⟩ q.2 (pt.tables t q.1)).sum = 0 ↔
      ∀ i : Fin 512, ¬(pt.tables t i).WholeTable begin endAddr
        (slotBase (S.rootBase t) (entrySize S.maxLevel) i)) := by
    intro t b hb
    have hchild := hin.child hS hb
    rw [RawPageTable.sum_leaks_eq_zero_iff hchild fun i b' hb' =>
      RawPageTable.leaks_eq_zero_iff (hwf t i) (hchild.child hb') hend hattrs hvalid]
    obtain ⟨-, rfl, -⟩ := (hin.mem_visits hS t b).mp hb
    exact forall_congr' fun i => not_congr
      (PageTableEntry.wholeTable_max (Nat.le_add_right _ _))
  rw [leaks, sum_map_eq_zero_iff]
  simp only [WholeTable, not_exists]
  constructor
  · intro hall t i hi
    obtain ⟨x, h1, h2, h3, h4⟩ := hi.exists_mem
    have hle := slotBase_add_le (S.rootBase t) S.maxLevel i
    have hge : S.rootBase t ≤ slotBase (S.rootBase t) (entrySize S.maxLevel) i :=
      Nat.le_add_right _ _
    have hdiv : x / entrySize S.rootLevel = t := by
      have hslot : x / entrySize S.rootLevel = 0 / entrySize S.rootLevel + t :=
        div_eq_of_slot (entrySize_pos S.rootLevel) (Nat.zero_mod _) (hge.trans h1)
          (lt_of_lt_of_le h2 hle)
      simpa using hslot
    obtain ⟨b, hb, -⟩ := hin.visits_of_mem hS h3 h4 (by rw [hdiv]; exact t.isLt)
    have ht : (⟨x / entrySize S.rootLevel, by rw [hdiv]; exact t.isLt⟩ :
        Fin S.rootTableCount) = t := Fin.ext hdiv
    rw [ht] at hb
    exact (hroot t b hb).mp (hall t b hb) i hi
  · exact fun hnone t b hb => (hroot t b hb).mpr (hnone t)

end PageTable

/-! ## Operations on one table -/

namespace PageTable

variable {S : Stage}

/-- The state in which the operations keep a page table that `new` made. -/
structure Sound (pt : PageTable S) : Prop extends pt.Regular true where
  rootPa : ∀ a ∈ (Chunk.mk pt.root S.rootTableCount).pages, IsPa a
variable {pt : PageTable S}

theorem new_spec (hS : S.Fits) {mpool mpool' : MPool} (hwf : mpool.Wf)
    (h : PageTable.new aarch64 S mpool = some (pt, mpool')) :
    pt.Sound ∧ mpool'.Wf ∧ pt.pages + mpool'.pages = mpool.pages := by
  rw [PageTable.new] at h
  split at h
  · simp at h
  · rename_i root pool halloc
    cases h
    obtain ⟨hpages, hwf'⟩ := allocPages_spec hwf halloc
    refine ⟨⟨⟨hS, fun t i => PageTableEntry.wf_absent, fun t i => PageTableEntry.plain_leaf _⟩,
      fun a ha => hwf.isPa a ?_⟩, hwf', ?_⟩
    · rw [hpages]
      exact Multiset.mem_add.mpr (Or.inl ha)
    · simp [pages, hpages]

theorem drop_spec (hpt : pt.Sound) {mpool : MPool} (hwf : mpool.Wf) :
    (pt.drop aarch64 mpool).pages = pt.pages + mpool.pages ∧ (pt.drop aarch64 mpool).Wf := by
  obtain ⟨hpages, hfreed⟩ := foldl_give
    (fun t m => foldl_give (fun i m => PageTableEntry.drop_spec (pt.tables t i) m)
      (List.finRange 512) m) (List.finRange S.rootTableCount) mpool
  simp only [← Fin.sum_univ_def] at hpages
  rw [drop]
  constructor
  · rw [pages_freePages, hpages, pages, add_assoc]
  · exact wf_freePages (hfreed.wf hwf) hpt.fits.rootTableCount_pos hpt.rootPa

/-- An update of any range keeps a table sound and accounts for its pages. -/
theorem identityUpdate_any (hpt : pt.Sound) {mpool : MPool} (hwf : mpool.Wf)
    {begin endAddr : Nat} {attrs : BitVec 64} {unmap : Bool} (hattrs : AttrsOk attrs)
    {o : Outcome} {pt' : PageTable S} {mpool' : MPool}
    (h : pt.identityUpdate aarch64 begin endAddr attrs ⟨false, unmap⟩ mpool =
      some (o, pt', mpool')) :
    pt'.Sound ∧ mpool'.Wf ∧ pt'.pages + mpool'.pages +
        (if o = .ok then leaks (S.updateEnd endAddr) attrs ⟨true, unmap⟩ (archMmClearPa begin) pt
          else 0) = pt.pages + mpool.pages := by
  obtain ⟨hreg, hwf'⟩ := hpt.toRegular.identityUpdate hwf hattrs h
  refine ⟨⟨hreg, ?_⟩, hwf', ?_⟩
  · rw [identityUpdate_root hpt.fits.toValid hwf h]
    exact hpt.rootPa
  rcases identityUpdate_cases hpt.fits.toValid hwf h with ⟨hin, hspec⟩ | ⟨hle, rfl, rfl, rfl⟩
  · cases o with
    | err => simpa using (hspec.err rfl).2
    | ok => simpa using (hspec.ok rfl).2
  · simp [leaks, visits_eq_nil hle]

theorem leaks_eq_zero_of_invalid (hS : S.Valid) {begin endAddr : Nat}
    {attrs : BitVec 64} {flags : Flags}
    (h : ∀ l b, b % 4096 = 0 → b < S.updateEnd endAddr →
      (RawPageTable.newEntry aarch64 attrs flags l b).isValid aarch64 = false) :
    leaks (S.updateEnd endAddr) attrs flags (archMmClearPa begin) pt = 0 := by
  by_cases hlt : archMmClearPa begin < S.updateEnd endAddr
  · have hin := inSpace_update hS hlt
    refine sum_map_eq_zero_iff.mpr fun t b hb => sum_map_eq_zero_iff.mpr fun i b' hb' => ?_
    exact RawPageTable.leaks_eq_zero_of_invalid h ((hin.child hS hb).child hb')
  · rw [leaks, visits_eq_nil (Nat.not_lt.mp hlt)]
    rfl

/-- Unmapping loses nothing. -/
theorem leaks_unmap (hS : S.Valid) (pt : PageTable S) (begin endAddr : Nat) (attrs : BitVec 64) :
    leaks (S.updateEnd endAddr) attrs ⟨true, true⟩ (archMmClearPa begin) pt = 0 :=
  leaks_eq_zero_of_invalid hS fun l b _ _ => by
    simp [RawPageTable.newEntry, PageTableEntry.absent, PageTableEntry.isValid, archMmPteIsValid,
      archMmAbsentPte]

theorem isValid_modeToAttrs (S : Stage) (mode : Mode) (l : Nat) :
    archMmPteIsValid (S.modeToAttrs aarch64 mode) l = decide (mode &&& Mode.INVALID = 0#32) := by
  rw [Stage.modeToAttrs]
  cases S.kind with
  | stage1 =>
    simp only [aarch64_modeToStage1Attrs, archMmModeToStage1Attrs, archMmPteIsValid]
    by_cases h : mode &&& Mode.INVALID = 0#32
    · simp only [h, if_true]
      split_ifs <;> decide
    · simp only [h, if_false]
      split_ifs <;> decide
  | stage2 =>
    simp only [aarch64_modeToStage2Attrs, archMmModeToStage2Attrs, archMmPteIsValid]
    by_cases h : mode &&& Mode.INVALID = 0#32
    · simp only [h, if_true]
      split_ifs <;> decide
    · simp only [h, if_false]
      split_ifs <;> decide

theorem WholeTable.lt (h : pt.WholeTable begin endAddr) : begin < endAddr := by
  obtain ⟨t, i, hi⟩ := h
  obtain ⟨x, -, -, hlo, hhi⟩ := hi.exists_mem
  exact hlo.trans_lt hhi

/-- Mapping loses pages exactly if a valid block replaces a whole table. -/
theorem leaks_map_eq_zero_iff (hpt : pt.Sound) (begin endAddr : Nat) (mode : Mode) :
    leaks (S.updateEnd endAddr) (S.modeToAttrs aarch64 mode) ⟨true, false⟩ (archMmClearPa begin)
        pt = 0 ↔
      ¬(mode &&& Mode.INVALID = 0#32 ∧
        pt.WholeTable (archMmClearPa begin) (S.updateEnd endAddr)) := by
  have hbound : S.updateEnd endAddr ≤ 2 ^ 48 :=
    (Nat.min_le_right _ _).trans hpt.fits.ptableAddrSpaceEnd_le_field
  have hattrs := attrsOk_modeToAttrs S mode
  by_cases hmode : mode &&& Mode.INVALID = 0#32
  · have hvalid : ∀ l, archMmPteIsValid (S.modeToAttrs aarch64 mode) l = true := fun l => by
      rw [isValid_modeToAttrs, hmode]
      rfl
    simp only [hmode, true_and]
    by_cases hlt : archMmClearPa begin < S.updateEnd endAddr
    · exact leaks_eq_zero_iff hpt.fits.toValid hpt.wf (inSpace_update hpt.fits.toValid hlt) hbound
        hattrs hvalid
    · refine iff_of_true ?_ ?_
      · rw [leaks, visits_eq_nil (Nat.not_lt.mp hlt)]
        rfl
      · exact fun h => hlt h.lt
  · refine iff_of_true ?_ (fun h => hmode h.1)
    refine leaks_eq_zero_of_invalid hpt.fits.toValid fun l b hb hlt => ?_
    rw [RawPageTable.newEntry_isValid_map ⟨hb, by omega⟩ hattrs, isValid_modeToAttrs]
    exact decide_eq_false hmode

end PageTable

/-! ## Tables that share a pool -/

/-- A pool and the live page tables whose pages come from it. -/
structure Shared where
  mpool : MPool
  live : List (Σ S : Stage, PageTable S)

/-- The operations on page tables; `k` is the position of a live table. -/
inductive TableOp
  | new (S : Stage) (hS : S.Fits)
  | identityMap (k begin endAddr : Nat) (mode : Mode)
  | unmap (k begin endAddr : Nat)
  | defrag (k : Nat)
  | drop (k : Nat)

namespace Shared

/-- Updates the `k`-th table, if there is one. -/
def update (w : Shared) (k : Nat)
    (f : {S : Stage} → PageTable S → MPool → Option (PageTable S × MPool)) : Option Shared :=
  match w.live[k]? with
  | none => some w
  | some ⟨S, pt⟩ =>
    (f pt w.mpool).map fun r => ⟨r.2, w.live.set k ⟨S, r.1⟩⟩

/-- One operation.  `none` is a panic; an operation that fails leaves what it
has done so far. -/
def step (w : Shared) : TableOp → Option Shared
  | .new S _ =>
    match PageTable.new aarch64 S w.mpool with
    | none => some w
    | some (pt, mpool) => some ⟨mpool, ⟨S, pt⟩ :: w.live⟩
  | .identityMap k begin endAddr mode => w.update k fun pt mpool =>
    (pt.identityMap aarch64 begin endAddr mode mpool).map Prod.snd
  | .unmap k begin endAddr => w.update k fun pt mpool =>
    (pt.unmap aarch64 begin endAddr mpool).map Prod.snd
  | .defrag k => w.update k fun pt mpool => some (pt.defrag aarch64 mpool)
  | .drop k =>
    match w.live[k]? with
    | none => some w
    | some ⟨_, pt⟩ => some ⟨pt.drop aarch64 w.mpool, w.live.eraseIdx k⟩

/-- The free pages and the pages of all live tables. -/
def pages (w : Shared) : Multiset Nat := w.mpool.pages + (w.live.map fun t => t.2.pages).sum

/-- The operation maps a valid block over a table that lies in its region, and there are
enough pages for the tables that it needs. -/
def ReplacesTable (w : Shared) : TableOp → Prop
  | .identityMap k begin endAddr mode =>
    mode &&& Mode.INVALID = 0#32 ∧ ∃ (S : Stage) (pt : PageTable S), w.live[k]? = some ⟨S, pt⟩ ∧
      pt.WholeTable (archMmClearPa begin) (S.updateEnd endAddr) ∧
      pt.need (S.updateEnd endAddr) (S.modeToAttrs aarch64 mode) false (archMmClearPa begin) ≤
        w.mpool.count
  | _ => False

structure Sound (w : Shared) : Prop where
  mpool : w.mpool.Wf
  live : ∀ t ∈ w.live, t.2.Sound

/-- What an operation loses. -/
def lost (w : Shared) : TableOp → Multiset Nat
  | .identityMap k begin endAddr mode =>
    match w.live[k]? with
    | none => 0
    | some ⟨S, pt⟩ =>
      match pt.identityMap aarch64 begin endAddr mode w.mpool with
      | some (.ok, _) => PageTable.leaks (S.updateEnd endAddr)
          (S.modeToAttrs aarch64 mode) ⟨true, false⟩ (archMmClearPa begin) pt
      | _ => 0
  | _ => 0

section Lists

variable {β : Type} {M : Type} [AddCommMonoid M] {l : List β} {k : Nat} {x : β}

theorem sum_map_eraseIdx (f : β → M) (h : l[k]? = some x) :
    (l.map f).sum = f x + ((l.eraseIdx k).map f).sum := by
  obtain ⟨hk, rfl⟩ := List.getElem?_eq_some_iff.mp h
  rw [List.eraseIdx_eq_take_drop_succ, List.map_append, List.sum_append, add_left_comm,
    ← List.sum_cons, ← List.map_cons, ← List.sum_append, ← List.map_append]
  congr 2
  rw [← List.drop_eq_getElem_cons hk, List.take_append_drop]

theorem sum_map_set (f : β → M) (h : l[k]? = some x) (y : β) :
    ((l.set k y).map f).sum = f y + ((l.eraseIdx k).map f).sum := by
  obtain ⟨hk, rfl⟩ := List.getElem?_eq_some_iff.mp h
  have hset : (l.set k y)[k]? = some y := by simp [hk]
  rw [sum_map_eraseIdx f hset, List.eraseIdx_set_eq]

end Lists

variable {w w' : Shared}

theorem Sound.of_getElem? (hw : w.Sound) {k : Nat} {S : Stage} {pt : PageTable S}
    (h : w.live[k]? = some ⟨S, pt⟩) : pt.Sound :=
  hw.live _ (List.mem_of_getElem? h)

/-- An update of one table accounts for all pages if it accounts for those of
the table and the pool. -/
theorem update_spec {k : Nat} {loss : Multiset Nat}
    {f : {S : Stage} → PageTable S → MPool → Option (PageTable S × MPool)}
    (hw : w.Sound) (h : w.update k f = some w') (hnone : w.live[k]? = none → loss = 0)
    (hsome : ∀ (S : Stage) (pt pt' : PageTable S) (mpool' : MPool),
      w.live[k]? = some ⟨S, pt⟩ → f pt w.mpool = some (pt', mpool') →
      pt'.Sound ∧ mpool'.Wf ∧ pt'.pages + mpool'.pages + loss = pt.pages + w.mpool.pages) :
    w'.Sound ∧ w'.pages + loss = w.pages := by
  rw [update] at h
  cases hk : w.live[k]? with
  | none =>
    rw [hk] at h
    cases h
    exact ⟨hw, by rw [hnone hk, add_zero]⟩
  | some t =>
    obtain ⟨S, pt⟩ := t
    rw [hk] at h
    obtain ⟨⟨pt', mpool'⟩, hr, rfl⟩ := map_eq_some_iff.mp h
    obtain ⟨hpt', hpool', hpages⟩ := hsome S pt pt' mpool' hk hr
    refine ⟨⟨hpool', fun t ht => ?_⟩, ?_⟩
    · rcases List.mem_or_eq_of_mem_set ht with ht | rfl
      · exact hw.live t ht
      · exact hpt'
    · simp only [pages]
      rw [sum_map_set _ hk, sum_map_eraseIdx _ hk]
      generalize ((w.live.eraseIdx k).map fun t : (Σ S : Stage, PageTable S) =>
        t.2.pages).sum = rest
      calc mpool'.pages + (pt'.pages + rest) + loss
          = pt'.pages + mpool'.pages + loss + rest := by abel
        _ = pt.pages + w.mpool.pages + rest := by rw [hpages]
        _ = w.mpool.pages + (pt.pages + rest) := by abel

/-- Every operation moves pages between the pool and the tables and loses at
most the tables it overwrites. -/
theorem step_spec {op : TableOp} (hw : w.Sound) (h : w.step op = some w') :
    w'.Sound ∧ w'.pages + w.lost op = w.pages := by
  cases op with
  | new S hS =>
    simp only [step] at h
    split at h
    · cases h
      exact ⟨hw, add_zero _⟩
    · rename_i pt mpool hnew
      cases h
      obtain ⟨hpt, hpool, hpages⟩ := PageTable.new_spec hS hw.mpool hnew
      refine ⟨⟨hpool, fun t ht => ?_⟩, ?_⟩
      · rcases List.mem_cons.mp ht with rfl | ht
        · exact hpt
        · exact hw.live t ht
      · simp only [pages, lost, List.map_cons, List.sum_cons, add_zero]
        rw [← hpages]
        abel
  | identityMap k begin endAddr mode =>
    simp only [step] at h
    refine update_spec hw h (fun hk => by simp [lost, hk]) ?_
    intro S pt pt' mpool' hk hr
    obtain ⟨⟨o, pt'', mpool''⟩, hmap, heq⟩ := map_eq_some_iff.mp hr
    cases heq
    have hspec := PageTable.identityUpdate_any (hw.of_getElem? hk) hw.mpool
      (PageTable.attrsOk_modeToAttrs S mode) hmap
    refine ⟨hspec.1, hspec.2.1, ?_⟩
    rw [← hspec.2.2]
    simp only [lost, hk, hmap]
    cases o <;> rfl
  | unmap k begin endAddr =>
    simp only [step] at h
    refine update_spec hw h (fun _ => rfl) ?_
    intro S pt pt' mpool' hk hr
    obtain ⟨⟨o, pt'', mpool''⟩, hunmap, heq⟩ := map_eq_some_iff.mp hr
    cases heq
    have hspec := PageTable.identityUpdate_any (hw.of_getElem? hk) hw.mpool
      (PageTable.attrsOk_modeToAttrs S _) hunmap
    refine ⟨hspec.1, hspec.2.1, ?_⟩
    rw [← hspec.2.2, PageTable.leaks_unmap (hw.of_getElem? hk).fits.toValid, ite_self]
    rfl
  | defrag k =>
    simp only [step] at h
    refine update_spec hw h (fun _ => rfl) ?_
    intro S pt pt' mpool' hk hr
    have hpt := hw.of_getElem? hk
    have hspec := PageTable.defrag_spec hpt.wf hpt.plain w.mpool
    rw [some.inj hr] at hspec
    refine ⟨⟨⟨hpt.fits, hspec.wf, hspec.plain⟩, ?_⟩, hspec.freed.wf hw.mpool,
      (add_zero _).trans hspec.pages⟩
    rw [hspec.root]
    exact hpt.rootPa
  | drop k =>
    simp only [step] at h
    cases hk : w.live[k]? with
    | none =>
      rw [hk] at h
      cases h
      exact ⟨hw, add_zero _⟩
    | some t =>
      obtain ⟨S, pt⟩ := t
      rw [hk] at h
      cases h
      obtain ⟨hpages, hpool⟩ := PageTable.drop_spec (hw.of_getElem? hk) hw.mpool
      refine ⟨⟨hpool, fun t ht => hw.live t (List.mem_of_mem_eraseIdx ht)⟩, ?_⟩
      simp only [pages, lost, add_zero]
      rw [hpages, sum_map_eraseIdx _ hk]
      abel

theorem lost_eq_zero_iff (hw : w.Sound) (op : TableOp) : w.lost op = 0 ↔ ¬w.ReplacesTable op := by
  cases op with
  | identityMap k begin endAddr mode =>
    simp only [lost, ReplacesTable]
    cases hk : w.live[k]? with
    | none => simp
    | some t =>
      obtain ⟨S, pt⟩ := t
      have hleaks := PageTable.leaks_map_eq_zero_iff (hw.of_getElem? hk) begin endAddr mode
      have hsame : ∀ P : (S : Stage) → PageTable S → Prop,
          (∃ S' pt', some (⟨S, pt⟩ : Σ S, PageTable S) = some ⟨S', pt'⟩ ∧ P S' pt') ↔ P S pt := by
        intro P
        constructor
        · rintro ⟨S', pt', heq, h⟩
          cases heq
          exact h
        · exact fun h => ⟨S, pt, rfl, h⟩
      rw [hsame]
      have hpt := hw.of_getElem? hk
      have hok : pt.WholeTable (archMmClearPa begin) (S.updateEnd endAddr) →
          ((∃ pt' mpool', pt.identityMap aarch64 begin endAddr mode w.mpool =
            some (.ok, pt', mpool')) ↔ _) := fun hwhole => PageTable.identityUpdate_need_iff
          hpt.fits.toValid hpt.wf hw.mpool (PageTable.inSpace_update hpt.fits.toValid hwhole.lt)
      dsimp only
      rcases hmap : pt.identityMap aarch64 begin endAddr mode w.mpool with _ | ⟨_ | _, r⟩
      · refine iff_of_true rfl fun h => ?_
        obtain ⟨pt', mpool', h'⟩ := (hok h.2.1).mpr h.2.2
        cases hmap.symm.trans h'
      · refine hleaks.trans (not_congr ⟨fun h => ⟨h.1, h.2, ?_⟩, fun h => ⟨h.1, h.2.1⟩⟩)
        exact (hok h.2).mp ⟨_, _, hmap⟩
      · refine iff_of_true rfl fun h => ?_
        obtain ⟨pt', mpool', h'⟩ := (hok h.2.1).mpr h.2.2
        cases hmap.symm.trans h'
  | new | unmap | defrag | drop => exact iff_of_true rfl id

/-- No page is ever used twice.  The free pages and the pages of the live tables
are the initial free pages for as long as no operation maps a valid block over a
table that lies in its region as a whole, and only that long; then dropping all
tables restores the pool. -/
theorem run_pages {mpool : MPool} (hwf : mpool.Wf) (hnodup : mpool.pages.Nodup)
    {ops : List TableOp} {w : Shared} (hrun : run step ops ⟨mpool, []⟩ = some w) :
    w.pages.Nodup ∧
      (w.pages = mpool.pages ↔
        Always step (fun w op => ¬w.ReplacesTable op) ops ⟨mpool, []⟩) ∧
      (Always step (fun w op => ¬w.ReplacesTable op) ops ⟨mpool, []⟩ → w.live = [] →
        w.mpool.pages = mpool.pages) := by
  have hinit : Sound ⟨mpool, []⟩ := ⟨hwf, by simp⟩
  have hpages : pages ⟨mpool, []⟩ = mpool.pages := by simp [pages]
  obtain ⟨hle, hiff⟩ := run_account pages lost Sound (fun _ _ _ hw h => (step_spec hw h).1)
    (fun _ _ _ hw h => (step_spec hw h).2) hinit hrun
  rw [hpages] at hle hiff
  have hcond := hiff.trans (always_congr Sound (fun _ _ _ hw _ h => (step_spec hw h).1)
    (fun w op hw _ => lost_eq_zero_iff hw op) hinit fun _ _ => trivial)
  refine ⟨Multiset.nodup_of_le hle hnodup, hcond, fun halways hlive => ?_⟩
  rw [← hcond.mpr halways, pages, hlive]
  simp

open PageTable (exampleStage fits_exampleStage examplePool wf_examplePool)

/-- A page is mapped and unmapped again, and all pages are back in the pool. -/
theorem run_pages_new :
    ∃ w, run step [.new exampleStage fits_exampleStage, .identityMap 0 0 0x1000 0#32,
        .unmap 0 0 0x1000, .defrag 0, .drop 0] ⟨examplePool, []⟩ = some w ∧
      w.live = [] ∧ w.mpool.pages = examplePool.pages := by
  have heval : (run step [.new exampleStage fits_exampleStage, .identityMap 0 0 0x1000 0#32,
      .unmap 0 0 0x1000, .defrag 0, .drop 0] ⟨examplePool, []⟩).map (fun w => w.live.length) =
      some 0 := by
    decide +kernel
  obtain ⟨w, hw, hlength⟩ := map_eq_some_iff.mp heval
  have hlive := List.length_eq_zero_iff.mp hlength
  refine ⟨w, hw, hlive, (run_pages wf_examplePool (by decide) hw).2.2 ⟨id, fun w₁ h₁ => ⟨?_,
    fun _ _ => ⟨id, fun _ _ => ⟨id, fun _ _ => ⟨id, fun _ _ => trivial⟩⟩⟩⟩⟩ hlive⟩
  -- the new table has no tables below it
  rintro ⟨-, S, pt, hk, ⟨t, i, hi⟩, -⟩
  cases h₁
  cases hk
  exact PageTableEntry.not_wholeTable_leaf _ hi

/-- Mapping a page, then the 2 MiB block around it, and dropping the table loses
the page of the table that the block replaced. -/
theorem run_loses_page :
    ∃ w, run step [.new exampleStage fits_exampleStage, .identityMap 0 0 0x1000 0#32,
        .identityMap 0 0 0x200000 0#32, .drop 0] ⟨examplePool, []⟩ = some w ∧
      w.live = [] ∧ w.mpool.pages = {0x1000, 0x3000} ∧
      examplePool.pages = {0x1000, 0x2000, 0x3000} := by
  have heval : (run step [.new exampleStage fits_exampleStage, .identityMap 0 0 0x1000 0#32,
        .identityMap 0 0 0x200000 0#32, .drop 0] ⟨examplePool, []⟩).map
      (fun w => (w.live.length, w.mpool)) = some (0, ⟨⟨[⟨0x1000, 1⟩], [0x3000]⟩, []⟩) := by
    decide +kernel
  obtain ⟨w, hw, heq⟩ := map_eq_some_iff.mp heval
  obtain ⟨hlen, hpool⟩ := Prod.mk.inj heq
  refine ⟨w, hw, List.length_eq_zero_iff.mp hlen, ?_, by decide⟩
  rw [hpool]
  decide

end Shared
end Hafnium
