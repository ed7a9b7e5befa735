import Hafnium.Mm.Observation

/-!
# The two passes of an update

The first pass only splits blocks, the second one replaces entries.  Each releases a
valid entry before it gets another valid value if the update starts no valid block in the
middle and empties no table.
-/

namespace Hafnium

open Support Aarch64 PageTableEntry RawPageTable List Leaf

/-! ## The first pass -/

def Leaf.isValid (x : Leaf) : Bool := archMmPteIsValid x.inner x.level

/-- Whether a page is valid can be seen from its attributes. -/
theorem Leaf.isValid_congr {x y : Leaf} (h : x.view = y.view) : x.isValid = y.isValid := by
  have hview : ∀ z : Leaf, z.isValid = z.view.any (archMmPteIsValid · 0) := by
    intro z
    rw [view]
    split
    · rw [Option.any_some, attrs, archMmPteIsValid_pteAttrs]
      rfl
    · rename_i hpresent
      cases hz : z.isValid with
      | false => rfl
      | true =>
        refine absurd ?_ hpresent
        rw [isPresent, archMmPteIsPresent, show archMmPteIsValid z.inner z.level =
          true from hz,
          Bool.true_or]
  rw [hview, hview, h]

/-- An update that starts at `begin` does not cut a valid block there: it wants the
block as it is, or starts with it. -/
def Leaf.StartsAt (attrs : BitVec 64) (unmap : Bool) (begin : Nat) (x : Leaf) : Prop :=
  x.isValid = true → (unmap = false ∧ x.attrs = attrs) ∨ begin % entrySize x.level = 0

namespace PageTableEntry

open RawPageTable

variable {strict unmap : Bool} {level base begin endAddr : Nat} {attrs : BitVec 64}

theorem lookup_level_le (e : PageTableEntry level) (a : Nat) : (e.lookup a).level ≤ level := by
  induction e with
  | leaf w => rw [lookup_leaf]
  | table w es ih => exact (ih _).trans (Nat.le_succ _)

theorem startsAt_of_aligned (e : PageTableEntry level) (h : begin % entrySize level = 0) :
    (e.lookup begin).StartsAt attrs unmap begin := by
  intro _
  have hdvd : entrySize (e.lookup begin).level ∣ entrySize level := by
    rw [entrySize_eq, entrySize_eq]
    exact Nat.pow_dvd_pow 2 (Nat.add_le_add_left
      (Nat.mul_le_mul_left _ (e.lookup_level_le begin)) _)
  exact Or.inr (Nat.mod_eq_zero_of_dvd (hdvd.trans (Nat.dvd_of_mod_eq_zero h)))

/-- A walk enters each entry of a table as it enters the table, or at its start. -/
theorem startsAt_child (hin : InEntry (level + 1) base begin endAddr) {w : Pte}
    {es : RawPageTable level} (h : ((table w es).lookup begin).StartsAt attrs unmap begin)
    {i : Fin 512} {b : Nat} (hb : (i, b) ∈ visits endAddr level begin) :
    ((es i).lookup b).StartsAt attrs unmap b := by
  obtain ⟨hi, rfl, -⟩ := (hin.mem_visits i b).mp hb
  have hslot := slot_of_index hin.aligned hin.lo hin.hi
  by_cases hidx : index begin level = i
  · rw [hidx] at hslot
    rw [max_eq_left hslot.1]
    rw [lookup_table, show (⟨index begin level, index_lt begin level⟩ : Fin 512) = i from
      Fin.ext hidx] at h
    exact h
  · have hlt : index begin level + 1 ≤ i := Nat.lt_of_le_of_ne hi hidx
    have hmono := slotBase_mono base (entrySize level) hlt
    rw [slotBase_succ] at hmono
    rw [max_eq_right (by omega)]
    exact startsAt_of_aligned _ (slotBase_aligned hin.aligned i)

/-- A valid block that has to be split is split at its start. -/
theorem begin_eq_base (hin : InEntry level base begin endAddr) {w : Pte}
    (hwf : (leaf w : PageTableEntry level).Wf strict base)
    (hskip : skips aarch64 attrs ⟨false, unmap⟩ (leaf w : PageTableEntry level) = false)
    (hstarts : ((leaf w : PageTableEntry level).lookup begin).StartsAt attrs unmap begin)
    (hvalid : (leaf w : PageTableEntry level).isValid aarch64 = true) : begin = base := by
  rw [lookup_leaf] at hstarts
  have hpresent : archMmPteIsPresent w level = true := by
    rw [archMmPteIsPresent, show archMmPteIsValid w level = true from hvalid, Bool.true_or]
  rcases hstarts hvalid with ⟨rfl, hattrs⟩ | hmod
  · have hblock := (wf_leaf.mp hwf).2.1 hpresent
    have hskip' : skips aarch64 attrs ⟨false, false⟩ (leaf w : PageTableEntry level) = true := by
      simp only [skips, isBlock, PageTableEntry.attrs, inner_leaf]
      simp [hblock, show archMmPteAttrs w level = attrs from hattrs]
    exact absurd (hskip'.symm.trans hskip) (by decide)
  · have hbase := entryBase_eq hin.aligned hin.lo hin.hi
    rw [entryBase, Nat.div_mul_cancel (Nat.dvd_of_mod_eq_zero hmod)] at hbase
    exact hbase

theorem startsAt_splitEntries (hin : InEntry (level + 1) base begin endAddr) {w : Pte}
    (hwf : (leaf w : PageTableEntry (level + 1)).Wf strict base)
    (hstart : (leaf w : PageTableEntry (level + 1)).isValid aarch64 = true → begin = base)
    {i : Fin 512} {b : Nat} (hb : (i, b) ∈ visits endAddr level begin) :
    ((splitEntries aarch64 level w i).lookup b).StartsAt attrs unmap b := by
  cases hvalid : (leaf w : PageTableEntry (level + 1)).isValid aarch64 with
  | true =>
    obtain ⟨-, rfl, -⟩ := (hin.mem_visits i b).mp hb
    rw [hstart hvalid, slotBase, max_eq_right (Nat.le_add_right _ _)]
    exact startsAt_of_aligned _ (slotBase_aligned hin.aligned i)
  | false =>
    have hsame := isValid_congr (view_splitEntries hin.aligned hwf i b)
    intro h
    rw [hsame] at h
    exact absurd (h.symm.trans hvalid) (by decide)

end PageTableEntry

namespace RawPageTable

open PageTableEntry

variable {strict unmap : Bool} {level base begin endAddr l a : Nat} {attrs : BitVec 64}

/-- The first pass breaks and makes at once. -/
theorem mapEntry_first : ∀ (level : Nat) {base begin : Nat} {e : PageTableEntry level}
    {mpool : MPool}, InEntry level base begin endAddr → e.Wf strict base → mpool.Wf →
    (e.lookup begin).StartsAt attrs unmap begin →
    Follows l a 0 0 (e.wordAt l a base)
      (mapEntryEvents aarch64 endAddr attrs ⟨false, unmap⟩ level begin e mpool)
      ((mapEntry aarch64 endAddr attrs ⟨false, unmap⟩ level begin e mpool).2.1.wordAt l a
        base) := by
  intro level
  induction level with
  | zero =>
    intro base begin e mpool hin hwf hpool hstarts
    have hcovers := hin.covers_zero aarch64 ⟨false, unmap⟩ (by decide)
    rw [mapEntry_covered rfl (.cover hcovers)]
    cases hskip : skips aarch64 attrs ⟨false, unmap⟩ e with
    | true =>
      rw [mapEntryEvents_skip hskip]
      exact .refl
    | false =>
      rw [mapEntryEvents_cover hskip hcovers]
      exact .refl
  | succ level ih =>
    intro base begin e mpool hin hwf hpool hstarts
    cases hskip : skips aarch64 attrs ⟨false, unmap⟩ e with
    | true =>
      rw [mapEntryEvents_skip hskip, mapEntry_skip hskip]
      exact .refl
    | false =>
      cases hcovers : coversEntry aarch64 endAddr ⟨false, unmap⟩ (level + 1) begin with
      | true =>
        rw [mapEntryEvents_cover hskip hcovers, mapEntry_cover hskip hcovers rfl]
        exact .refl
      | false =>
        rw [mapEntryEvents_descend hskip hcovers, mapEntry_descend hskip hcovers]
        have hstep : ∀ (es : RawPageTable level) i b, (i, b) ∈ visits endAddr level begin →
            ∀ s : MPool, s.Wf → MPool.Wf
              (mapEntry aarch64 endAddr attrs ⟨false, unmap⟩ level b (es i) s).2.2 :=
          fun es i b hb s hs => (mapEntry_splitPass rfl level (hin.child hb) hs).wf
        cases e with
        | table w es =>
          rw [mapSubtableEvents_table_first, mapSubtable_table_first]
          exact mapLevel_follows hin MPool.Wf hpool (hstep es) (fun i b hb s hs =>
            ih (hin.child hb) (hwf.2 i) hs (startsAt_child hin hstarts hb)) w
        | leaf w =>
          cases halloc : mpool.alloc with
          | none =>
            rw [mapSubtableEvents_leaf_none halloc, mapSubtable_leaf_none halloc]
            exact .refl
          | some p =>
            obtain ⟨page, mpool'⟩ := p
            rw [mapSubtableEvents_leaf_some halloc, mapSubtable_leaf_some halloc,
              mapSubtableEvents_table_first, mapSubtable_table_first]
            -- a valid block that is split is split at its start
            have hstart := begin_eq_base hin hwf hskip hstarts
            have hpage := MPool.isPa_of_alloc hpool halloc
            refine (replaceEvents_exact (leaf w) _
              (entryBase_eq hin.aligned hin.lo hin.hi) fun h => ⟨?_, hstart h⟩).trans ?_
            · exact archMmPteIsValid_of_isTable (archMmPteIsTable_tablePte hpage level)
            · exact mapLevel_follows hin MPool.Wf (MPool.alloc_spec hpool halloc).2
                (hstep _) (fun i b hb s hs => ih (hin.child hb)
                  (wf_splitEntries hin.aligned hwf i) hs
                  (startsAt_splitEntries hin hwf hstart hb)) _

end RawPageTable

/-! ## Tables that an update keeps -/

/-- A walk enters each entry where the region starts in it. -/
theorem InEntry.eq_max {level base begin begin₀ endAddr : Nat}
    (hin : InEntry (level + 1) base begin endAddr) (hbegin : begin = max begin₀ base) {i : Fin 512}
    {b : Nat} (hb : (i, b) ∈ visits endAddr level begin) :
    b = max begin₀ (slotBase base (entrySize level) i) := by
  obtain ⟨-, rfl, -⟩ := (hin.mem_visits i b).mp hb
  have hle : base ≤ slotBase base (entrySize level) i := Nat.le_add_right _ _
  omega

namespace PageTableEntry

/-- `P` holds of every leaf below an entry and `T` of every table. -/
def Throughout (P : Nat → Nat → Pte → Prop)
    (T : {level : Nat} → Nat → PageTableEntry level → Prop) :
    {level : Nat} → Nat → PageTableEntry level → Prop
  | level, base, leaf w => P level base w
  | level + 1, base, table w es => T base (table w es) ∧
    ∀ i : Fin 512, (es i).Throughout P T (slotBase base (entrySize level) i)

/-- An entry that the region meets but does not contain has a present page outside the
region. -/
def Outlasts (begin endAddr : Nat) {level : Nat} (base : Nat) (e : PageTableEntry level) : Prop :=
  base < endAddr → begin < base + entrySize level →
    ¬(begin ≤ base ∧ base + entrySize level ≤ endAddr) →
    ∃ a, base ≤ a ∧ a < base + entrySize level ∧ ¬(begin ≤ a ∧ a < endAddr) ∧
      (e.lookup a).view ≠ none

/-- Every table below an entry that the region meets but does not contain has a
present page outside the region. -/
def KeepsTables (begin endAddr : Nat) {level : Nat} (base : Nat) (e : PageTableEntry level) :
    Prop :=
  e.Throughout (fun _ _ _ => True) (Outlasts begin endAddr) base

/-- An entry that a block cannot replace. -/
def Stays (begin endAddr : Nat) {level : Nat} (base : Nat) (_ : PageTableEntry level) : Prop :=
  begin ≤ base → base + entrySize level ≤ endAddr → archMmIsBlockAllowed level = false

def Fallow (begin endAddr level base : Nat) (w : Pte) : Prop :=
  base < endAddr → begin < base + entrySize level → archMmPteIsValid w level = false

/-- The region meets no valid leaf below an entry, and contains no table that a block could
replace. -/
def Void (begin endAddr : Nat) {level : Nat} (base : Nat) (e : PageTableEntry level) : Prop :=
  e.Throughout (Fallow begin endAddr) (Stays begin endAddr) base

variable {strict unmap : Bool} {level base begin begin₀ endAddr : Nat} {attrs : BitVec 64}
  {P : Nat → Nat → Pte → Prop} {T : {level : Nat} → Nat → PageTableEntry level → Prop}

theorem throughout_leaf {w : Pte} :
    (leaf w : PageTableEntry level).Throughout P T base ↔ P level base w := by
  cases level <;> rfl

theorem covers_of_contained {commit : Bool} (hin : InEntry level base begin endAddr)
    (hbegin : begin = max begin₀ base)
    (hcovers : coversEntry aarch64 endAddr ⟨commit, unmap⟩ level begin = false)
    (hlo : begin₀ ≤ base) (hhi : base + entrySize level ≤ endAddr) :
    (unmap || archMmIsBlockAllowed level) = false := by
  have heq : begin = base := by omega
  have hsize : entrySize level ≤ endAddr - base := by omega
  simp only [coversEntry, heq, hin.aligned, beq_self_eq_true, Bool.and_true, ge_iff_le, hsize,
    decide_true, Bool.true_and] at hcovers
  exact hcovers

/-- The first pass of an update keeps `P` and `T`: they can be seen from the pages, and
hold where an entry on which the update descends is split. -/
structure KeptBySplit (strict unmap : Bool) (begin₀ endAddr : Nat) (attrs : BitVec 64)
    (P : Nat → Nat → Pte → Prop) (T : {level : Nat} → Nat → PageTableEntry level → Prop) :
    Prop where
  table : ∀ {level base : Nat} {e e' : PageTableEntry level},
    (∀ a, (e'.lookup a).view = (e.lookup a).view) → T base e → T base e'
  split : ∀ {level base begin : Nat} {w : Pte}, InEntry (level + 1) base begin endAddr →
    begin = max begin₀ base → (leaf w : PageTableEntry (level + 1)).Wf strict base →
    skips aarch64 attrs ⟨false, unmap⟩ (leaf w : PageTableEntry (level + 1)) = false →
    coversEntry aarch64 endAddr ⟨false, unmap⟩ (level + 1) begin = false →
    P (level + 1) base w → T base (leaf w : PageTableEntry (level + 1)) ∧
      ∀ i v, splitEntries aarch64 level w i = leaf v →
        P level (slotBase base (entrySize level) i) v

/-- The first pass of an unmapping makes no table that the second empties. -/
theorem keptBySplit_outlasts : KeptBySplit strict true begin₀ endAddr attrs (fun _ _ _ => True)
    (Outlasts begin₀ endAddr) := by
  constructor
  · intro level base e e' hview h h1 h2 h3
    obtain ⟨a, hlo, hhi, hout, ha⟩ := h h1 h2 h3
    exact ⟨a, hlo, hhi, hout, by rw [hview a]; exact ha⟩
  · intro level base begin w hin hbegin hwf hskip hcovers _
    refine ⟨fun _ _ h3 => ?_, fun _ _ _ => trivial⟩
    -- the entry was present, and so is a page of it outside the region
    have hpresent : ∀ a, ((leaf w : PageTableEntry (level + 1)).lookup a).view ≠ none := by
      intro a ha
      rw [lookup_leaf, view_eq_none] at ha
      have : skips aarch64 attrs ⟨false, true⟩ (leaf w : PageTableEntry (level + 1)) = true := by
        simp only [skips, isPresent, inner_leaf, aarch64_pteIsPresent]
        simp [show archMmPteIsPresent w (level + 1) = false from ha]
      exact absurd (this.symm.trans hskip) (by decide)
    have hpos := entrySize_pos (level + 1)
    rcases Nat.lt_or_ge base begin₀ with hlt | hge
    · exact ⟨base, le_rfl, by omega, by omega, hpresent _⟩
    · exact ⟨base + entrySize (level + 1) - 1, by omega, by omega, by omega, hpresent _⟩

theorem keptBySplit_void : KeptBySplit strict false begin₀ endAddr attrs (Fallow begin₀ endAddr)
    (Stays begin₀ endAddr) := by
  constructor
  · exact fun _ h => h
  · intro level base begin w hin hbegin hwf hskip hcovers hfallow
    refine ⟨fun hlo hhi => covers_of_contained hin hbegin hcovers hlo hhi, fun i v hv _ _ => ?_⟩
    have hmeets : base < endAddr ∧ begin₀ < base + entrySize (level + 1) := by
      have := hin.lt
      have := hin.hi
      omega
    have hsame := isValid_congr (view_splitEntries hin.aligned hwf i 0)
    rw [hv, lookup_leaf] at hsame
    exact hsame.trans (hfallow hmeets.1 hmeets.2)

end PageTableEntry

namespace RawPageTable

open PageTableEntry

variable {strict unmap : Bool} {begin₀ endAddr : Nat} {attrs : BitVec 64}
  {P : Nat → Nat → Pte → Prop} {T : {level : Nat} → Nat → PageTableEntry level → Prop}

theorem mapLevel_throughout {level base begin : Nat} {es : RawPageTable level} {mpool : MPool}
    (hin : InEntry (level + 1) base begin endAddr) (hbegin : begin = max begin₀ base)
    (hpool : mpool.Wf) (hwf : ∀ i : Fin 512, (es i).Wf strict (slotBase base (entrySize level) i))
    (hes : ∀ i : Fin 512, (es i).Throughout P T (slotBase base (entrySize level) i))
    (ih : ∀ {base begin : Nat} {e : PageTableEntry level} {mpool : MPool},
      InEntry level base begin endAddr → begin = max begin₀ base → mpool.Wf → e.Wf strict base →
      e.Throughout P T base →
      (mapEntry aarch64 endAddr attrs ⟨false, unmap⟩ level begin e mpool).2.1.Throughout P T base)
    (i : Fin 512) :
    ((mapLevel aarch64 endAddr attrs ⟨false, unmap⟩ level begin es mpool).2.1 i).Throughout P T
      (slotBase base (entrySize level) i) := by
  rw [mapLevel_eq]
  exact forEach_forall MPool.Wf
    (fun (i : Fin 512) e => e.Throughout P T (slotBase base (entrySize level) i))
    (InEntry.visits_nodup endAddr level begin) hpool hes (fun i b hb s hs =>
      ⟨(mapEntry_splitPass rfl level (hin.child hb) hs).wf,
        ih (hin.child hb) (hin.eq_max hbegin hb) hs (hwf i) (hes i)⟩) i

theorem mapEntry_throughout (hkept : KeptBySplit strict unmap begin₀ endAddr attrs P T) :
    ∀ (level : Nat) {base begin : Nat} {e : PageTableEntry level} {mpool : MPool},
    InEntry level base begin endAddr → begin = max begin₀ base → mpool.Wf → e.Wf strict base →
    e.Throughout P T base →
    (mapEntry aarch64 endAddr attrs ⟨false, unmap⟩ level begin e mpool).2.1.Throughout P T
      base := by
  intro level
  induction level with
  | zero =>
    intro base begin e mpool hin hbegin hpool hwf he
    rw [mapEntry_covered rfl (.cover (hin.covers_zero aarch64 ⟨false, unmap⟩ (by decide)))]
    exact he
  | succ level ih =>
    intro base begin e mpool hin hbegin hpool hwf he
    have hpass : SplitPass endAddr attrs ⟨false, unmap⟩ begin e mpool _ :=
      mapEntry_splitPass rfl (level + 1) hin hpool
    have hview := hpass.splits.view hin.aligned hwf
    cases hskip : skips aarch64 attrs ⟨false, unmap⟩ e with
    | true =>
      rw [mapEntry_skip hskip]
      exact he
    | false =>
      cases hcovers : coversEntry aarch64 endAddr ⟨false, unmap⟩ (level + 1) begin with
      | true =>
        rw [mapEntry_cover hskip hcovers rfl]
        exact he
      | false =>
        rw [mapEntry_descend hskip hcovers] at hview ⊢
        cases e with
        | table w es =>
          rw [mapSubtable_table_first] at hview ⊢
          exact ⟨hkept.table hview he.1, mapLevel_throughout hin hbegin hpool hwf.2 he.2 ih⟩
        | leaf w =>
          cases halloc : mpool.alloc with
          | none =>
            rw [mapSubtable_leaf_none halloc]
            exact he
          | some p =>
            obtain ⟨page, mpool'⟩ := p
            rw [mapSubtable_leaf_some halloc, mapSubtable_table_first] at hview ⊢
            obtain ⟨htable, hleaves⟩ := hkept.split hin hbegin hwf hskip hcovers he
            refine ⟨hkept.table hview htable, mapLevel_throughout hin hbegin
              (MPool.alloc_spec hpool halloc).2 (wf_splitEntries hin.aligned hwf)
              (fun i => ?_) ih⟩
            obtain ⟨v, hv⟩ := splitEntries_eq_leaf aarch64 level w i
            rw [hv, throughout_leaf]
            exact hleaves i v hv

/-! ## The second pass -/

variable {l a : Nat}

/-- What an update has to keep to for the second pass to break before it makes: it
maps valid pages or replaces no valid entry, or it unmaps and empties no table. -/
def SecondOk (attrs : BitVec 64) (unmap : Bool) (begin endAddr : Nat) {level : Nat} (base : Nat)
    (e : PageTableEntry level) : Prop :=
  if unmap then e.KeepsTables begin endAddr base
  else endAddr ≤ 2 ^ 48 ∧ ((∀ l, archMmPteIsValid attrs l = true) ∨ e.Void begin endAddr base)

theorem SecondOk.child {level base begin endAddr : Nat} {w : Pte} {es : RawPageTable level}
    (h : SecondOk attrs unmap begin endAddr base (table w es)) (i : Fin 512) :
    SecondOk attrs unmap begin endAddr (slotBase base (entrySize level) i) (es i) := by
  cases unmap with
  | true => exact h.2 i
  | false => exact ⟨h.1, h.2.imp_right fun hvoid => hvoid.2 i⟩

theorem replaceEvents_newEntry {level base begin : Nat} {e : PageTableEntry level}
    (hin : InEntry level base begin endAddr) (hbegin : begin = max begin₀ base)
    (hok : SecondOk attrs unmap begin₀ endAddr base e) (hattrs : AttrsOk attrs)
    (hcovers : coversEntry aarch64 endAddr ⟨true, unmap⟩ level begin = true) :
    Follows l a begin₀ endAddr (e.wordAt l a base)
      (e.replaceEvents aarch64 (newEntry aarch64 attrs ⟨true, unmap⟩ level begin) begin)
      ((newEntry aarch64 attrs ⟨true, unmap⟩ level begin).wordAt l a base) := by
  have hbase := entryBase_eq hin.aligned hin.lo hin.hi
  obtain ⟨heq, hhi⟩ := hin.of_covers hcovers
  cases unmap with
  | true => exact replaceEvents_absent e hbase (by omega) hhi
  | false =>
    have hlt := hin.lt
    obtain ⟨hend, hvalid | hvoid⟩ : endAddr ≤ 2 ^ 48 ∧
      ((∀ l, archMmPteIsValid attrs l = true) ∨ e.Void begin₀ endAddr base) := hok
    · refine .of_foldlM (replaceEvents_exact e _ hbase fun _ => ⟨?_, heq⟩).foldlM_eq
      rw [newEntry_isValid_map ⟨hin.beginPage, by omega⟩ hattrs]
      exact hvalid level
    · have hlo : begin₀ ≤ base := by omega
      refine .of_foldlM (replaceEvents_exact e _ hbase fun hself => ?_).foldlM_eq
      cases e with
      | leaf w =>
        have hinvalid := throughout_leaf.mp hvoid (by omega) (by have := entrySize_pos level; omega)
        cases hself.symm.trans hinvalid
      | table w es =>
        have hallowed := hvoid.1 hlo hhi
        simp only [coversEntry, aarch64_isBlockAllowed, hallowed] at hcovers
        simp at hcovers

/-- The second pass breaks what it makes, or leaves it to be released. -/
theorem mapEntry_second (hattrs : AttrsOk attrs) {level base begin : Nat}
    {e : PageTableEntry level} (hcovered : Covered endAddr attrs ⟨true, unmap⟩ begin e)
    (hin : InEntry level base begin endAddr) (hbegin : begin = max begin₀ base)
    (hwf : e.Wf strict base) (hok : SecondOk attrs unmap begin₀ endAddr base e) (mpool : MPool) :
    Follows l a begin₀ endAddr (e.wordAt l a base)
      (mapEntryEvents aarch64 endAddr attrs ⟨true, unmap⟩ level begin e mpool)
      ((mapEntry aarch64 endAddr attrs ⟨true, unmap⟩ level begin e mpool).2.1.wordAt l a base) := by
  induction hcovered generalizing base mpool with
  | skip hskip =>
    rw [mapEntryEvents_skip hskip, mapEntry_skip hskip]
    exact .refl
  | @cover level begin e hcovers =>
    cases hskip : skips aarch64 attrs ⟨true, unmap⟩ e with
    | true =>
      rw [mapEntryEvents_skip hskip, mapEntry_skip hskip]
      exact .refl
    | false =>
      rw [mapEntryEvents_cover hskip hcovers, mapEntry_cover_commit hskip hcovers rfl]
      exact replaceEvents_newEntry hin hbegin hok hattrs hcovers
  | @table level begin w es hbelow ih =>
    have hpass : CommitPass endAddr attrs ⟨true, unmap⟩ begin (.table w es) mpool _ :=
      mapEntry_commitPass rfl (.table hbelow) mpool
    have hskip : skips aarch64 attrs ⟨true, unmap⟩ (.table w es) = false :=
      skips_table hwf.1 es attrs _
    cases hcovers : coversEntry aarch64 endAddr ⟨true, unmap⟩ (level + 1) begin with
    | true =>
      rw [mapEntryEvents_cover hskip hcovers, mapEntry_cover_commit hskip hcovers rfl]
      exact replaceEvents_newEntry hin hbegin hok hattrs hcovers
    | false =>
      rw [mapEntry_descend hskip hcovers] at hpass
      rw [mapEntryEvents_descend hskip hcovers, mapEntry_descend hskip hcovers]
      have hmany : CommitTable endAddr attrs ⟨true, unmap⟩ begin es mpool _ :=
        commitTable_of_entries (fun i b hb s => mapEntry_commitPass rfl (hbelow i b hb) s) mpool
      have hfollows : Follows l a begin₀ endAddr ((table w es).wordAt l a base)
          (mapLevelEvents aarch64 endAddr attrs ⟨true, unmap⟩ level begin es mpool)
          ((table w (mapLevel aarch64 endAddr attrs ⟨true, unmap⟩ level begin es
            mpool).2.1).wordAt l a base) :=
        mapLevel_follows hin (fun _ => True) trivial (fun _ _ _ _ _ => trivial)
          (fun i b hb s _ => ih i b hb (hin.child hb) (hin.eq_max hbegin hb) (hwf.2 i)
            (hok.child i) s) w
      rcases hres : mapLevel aarch64 endAddr attrs ⟨true, unmap⟩ level begin es mpool with
        ⟨o, es', mpool'⟩
      rw [hres] at hmany hfollows
      obtain rfl : o = .ok := hmany.ok
      cases hempty : true && unmap && isEmpty aarch64 es' with
      | false =>
        rw [mapSubtableEvents_table_ok hres hempty, mapSubtable_table_ok hres hempty]
        exact hfollows
      | true =>
        -- the page outside the region that the table keeps is still there
        exfalso
        obtain rfl : unmap = true := by
          cases unmap with
          | false => contradiction
          | true => rfl
        obtain ⟨a, hlo, hhi, hout, ha⟩ := hok.1 (by have := hin.lt; omega)
          (by have := hin.hi; omega)
          fun h => absurd (covers_of_contained hin hbegin hcovers h.1 h.2) (by simp)
        have hgone : mapSubtable aarch64 ⟨true, true⟩
            (mapLevel aarch64 endAddr attrs ⟨true, true⟩ level) begin (.table w es) mpool = _ :=
          mapSubtable_table_empty hres hempty
        rw [hgone] at hpass
        have hupdated := hpass.updated
        have hframe := hupdated.frame hwf hin (by simp) hattrs hlo hhi (by omega)
        rw [← hframe, absent, lookup_leaf] at ha
        exact ha (view_of_not_present (archMmPteIsPresent_absent _))

end RawPageTable

end Hafnium
