import Hafnium.Mm.Budget

/-!
# What an update makes of an entry

The two passes of an update taken together, entry by entry.  The meaning of the pages
says nothing about the tables that hold them; this relation says exactly which entries
become tables and which tables go away, so that the pages of an update can be counted.
-/

namespace Hafnium

open Support Aarch64

namespace PageTableEntry

open RawPageTable

section Relation

variable (endAddr : Nat) (attrs : BitVec 64) (unmap : Bool)

/-- A successful update makes `e'` of the entry `e`. -/
inductive Remade : {level : Nat} → Nat → PageTableEntry level → PageTableEntry level → Prop
  | skip {level begin : Nat} {e : PageTableEntry level}
      (h : skips aarch64 attrs ⟨false, unmap⟩ e = true) : Remade begin e e
  | cover {level begin : Nat} {e : PageTableEntry level}
      (hskip : skips aarch64 attrs ⟨false, unmap⟩ e = false)
      (hcovers : coversEntry aarch64 endAddr ⟨false, unmap⟩ level begin = true) :
      Remade begin e (newEntry aarch64 attrs ⟨false, unmap⟩ level begin)
  | table {level begin : Nat} {w : Pte} {es es' : RawPageTable level}
      (hcovers : coversEntry aarch64 endAddr ⟨false, unmap⟩ (level + 1) begin = false)
      (hvisited : ∀ i b, (i, b) ∈ visits endAddr level begin → Remade b (es i) (es' i))
      (hother : ∀ i, i ∉ (visits endAddr level begin).map Prod.fst → es' i = es i)
      (hkeep : (unmap && isEmpty aarch64 es') = false) :
      Remade begin (.table w es) (.table w es')
  | emptied {level begin : Nat} {w : Pte} {es es' : RawPageTable level}
      (hcovers : coversEntry aarch64 endAddr ⟨false, unmap⟩ (level + 1) begin = false)
      (hvisited : ∀ i b, (i, b) ∈ visits endAddr level begin → Remade b (es i) (es' i))
      (hother : ∀ i, i ∉ (visits endAddr level begin).map Prod.fst → es' i = es i)
      (hempty : (unmap && isEmpty aarch64 es') = true) :
      Remade begin (.table w es) (.absent aarch64 (level + 1))
  | split {level begin page : Nat} {w : Pte} {e' : PageTableEntry (level + 1)}
      (hskip : skips aarch64 attrs ⟨false, unmap⟩
        (.leaf w : PageTableEntry (level + 1)) = false)
      (hcovers : coversEntry aarch64 endAddr ⟨false, unmap⟩ (level + 1) begin = false)
      (hpage : IsPa page)
      (h : Remade begin (.table (archMmTablePte (level + 1) page) (splitEntries aarch64 level w))
        e') :
      Remade begin (.leaf w) e'

end Relation

end PageTableEntry

namespace RawPageTable

open PageTableEntry

variable {endAddr : Nat} {attrs : BitVec 64} {unmap strict : Bool}

/-- The entries of a table after both passes. -/
structure Remade (endAddr : Nat) (attrs : BitVec 64) (unmap : Bool) {level : Nat} (begin : Nat)
    (es es' : RawPageTable level) : Prop where
  visited : ∀ i b, (i, b) ∈ visits endAddr level begin →
    PageTableEntry.Remade endAddr attrs unmap b (es i) (es' i)
  other : ∀ i, i ∉ (visits endAddr level begin).map Prod.fst → es' i = es i

section Table

variable {level base begin : Nat} {es mid es' : RawPageTable level} {m m₁ m₂ m₃ : MPool}

theorem mapLevel_remade (hin : InEntry (level + 1) base begin endAddr) (hm : m.Wf)
    (hwf : ∀ i : Fin 512, (es i).Wf strict (slotBase base (entrySize level) i))
    (ih : ∀ {base begin : Nat} {e mid e' : PageTableEntry level} {m m₁ m₂ m₃ : MPool},
      InEntry level base begin endAddr → m.Wf → e.Wf strict base →
      mapEntry aarch64 endAddr attrs ⟨false, unmap⟩ level begin e m = (.ok, mid, m₁) →
      mapEntry aarch64 endAddr attrs ⟨true, unmap⟩ level begin mid m₂ = (.ok, e', m₃) →
      PageTableEntry.Remade endAddr attrs unmap begin e e')
    (hfirst : mapLevel aarch64 endAddr attrs ⟨false, unmap⟩ level begin es m = (.ok, mid, m₁))
    (hsecond : mapLevel aarch64 endAddr attrs ⟨true, unmap⟩ level begin mid m₂ = (.ok, es', m₃)) :
    Remade endAddr attrs unmap begin es es' := by
  rw [mapLevel_eq] at hfirst hsecond
  obtain ⟨hvisited, hother⟩ := forEach_twice MPool.Wf
    (PageTableEntry.Remade endAddr attrs unmap) (InEntry.visits_nodup endAddr level begin) hm
    (fun i b hb s hs => (mapEntry_splitPass rfl level (hin.child hb) hs).wf)
    (fun i b hb => fun hs => ih (hin.child hb) hs (hwf i)) hfirst hsecond
  exact ⟨hvisited, hother⟩

/-- Both passes over a table that is not covered as a whole. -/
theorem mapSubtable_remade {w : Pte} {mid e' : PageTableEntry (level + 1)}
    (hw : archMmPteIsTable w (level + 1) = true)
    (hcovers : coversEntry aarch64 endAddr ⟨true, unmap⟩ (level + 1) begin = false)
    (hbelow : ∀ {mid es' : RawPageTable level} {m₁ m₂ m₃ : MPool},
      mapLevel aarch64 endAddr attrs ⟨false, unmap⟩ level begin es m = (.ok, mid, m₁) →
      mapLevel aarch64 endAddr attrs ⟨true, unmap⟩ level begin mid m₂ = (.ok, es', m₃) →
      Remade endAddr attrs unmap begin es es')
    (hfirst : mapSubtable aarch64 ⟨false, unmap⟩
      (mapLevel aarch64 endAddr attrs ⟨false, unmap⟩ level) begin (.table w es) m = (.ok, mid, m₁))
    (hsecond : mapEntry aarch64 endAddr attrs ⟨true, unmap⟩ (level + 1) begin mid m₂ =
      (.ok, e', m₃)) :
    PageTableEntry.Remade endAddr attrs unmap begin (.table w es) e' := by
  rw [mapSubtable_table_first] at hfirst
  rcases h₁ : mapLevel aarch64 endAddr attrs ⟨false, unmap⟩ level begin es m with ⟨o₁, es₁, s₁⟩
  rw [h₁] at hfirst
  cases hfirst
  rw [mapEntry_descend (skips_table hw es₁ attrs _) hcovers] at hsecond
  rcases h₂ : mapLevel aarch64 endAddr attrs ⟨true, unmap⟩ level begin es₁ m₂ with ⟨o₂, es₂, s₂⟩
  cases o₂ with
  | err =>
    rw [mapSubtable_table_err h₂] at hsecond
    cases hsecond
  | ok =>
    obtain ⟨hvisited, hother⟩ := hbelow h₁ h₂
    cases hempty : unmap && isEmpty aarch64 es₂ with
    | false =>
      rw [mapSubtable_table_ok h₂ (by simpa using hempty)] at hsecond
      cases hsecond
      exact .table hcovers hvisited hother hempty
    | true =>
      rw [mapSubtable_table_empty h₂ (by simpa using hempty)] at hsecond
      cases hsecond
      exact .emptied hcovers hvisited hother hempty

end Table

theorem eq_of_mapEntry_covered {level begin : Nat} {e mid : PageTableEntry level} {m m₁ : MPool}
    (h : Covered endAddr attrs ⟨false, unmap⟩ begin e)
    (hfirst : mapEntry aarch64 endAddr attrs ⟨false, unmap⟩ level begin e m = (.ok, mid, m₁)) :
    e = mid := by
  rw [mapEntry_covered rfl h] at hfirst
  cases hfirst
  rfl

theorem mapEntry_remade : ∀ (level : Nat) {base begin : Nat} {e mid e' : PageTableEntry level}
    {m m₁ m₂ m₃ : MPool}, InEntry level base begin endAddr → m.Wf → e.Wf strict base →
    mapEntry aarch64 endAddr attrs ⟨false, unmap⟩ level begin e m = (.ok, mid, m₁) →
    mapEntry aarch64 endAddr attrs ⟨true, unmap⟩ level begin mid m₂ = (.ok, e', m₃) →
    PageTableEntry.Remade endAddr attrs unmap begin e e' := by
  intro level
  induction level with
  | zero =>
    intro base begin e mid e' m m₁ m₂ m₃ hin hm hwf hfirst hsecond
    have hcovers := hin.covers_zero aarch64 ⟨true, unmap⟩ (by decide)
    obtain rfl := eq_of_mapEntry_covered (.cover hcovers) hfirst
    cases hskip : skips aarch64 attrs ⟨true, unmap⟩ e with
    | true =>
      rw [mapEntry_skip hskip] at hsecond
      cases hsecond
      exact .skip hskip
    | false =>
      rw [mapEntry_cover_commit hskip hcovers rfl] at hsecond
      cases hsecond
      exact .cover hskip hcovers
  | succ level ih =>
    intro base begin e mid e' m m₁ m₂ m₃ hin hm hwf hfirst hsecond
    cases hskip : skips aarch64 attrs ⟨true, unmap⟩ e with
    | true =>
      obtain rfl := eq_of_mapEntry_covered (.skip hskip) hfirst
      rw [mapEntry_skip hskip] at hsecond
      cases hsecond
      exact .skip hskip
    | false =>
      cases hcovers : coversEntry aarch64 endAddr ⟨true, unmap⟩ (level + 1) begin with
      | true =>
        obtain rfl := eq_of_mapEntry_covered (.cover hcovers) hfirst
        rw [mapEntry_cover_commit hskip hcovers rfl] at hsecond
        cases hsecond
        exact .cover hskip hcovers
      | false =>
        have hskip' : skips aarch64 attrs ⟨false, unmap⟩ e = false := hskip
        rw [mapEntry_descend hskip' hcovers] at hfirst
        cases e with
        | table w es =>
          exact mapSubtable_remade hwf.1 hcovers (mapLevel_remade hin hm hwf.2 ih) hfirst
            hsecond
        | leaf w =>
          cases halloc : m.alloc with
          | none =>
            rw [mapSubtable_leaf_none halloc] at hfirst
            cases hfirst
          | some p =>
            obtain ⟨page, m'⟩ := p
            have hpage := MPool.isPa_of_alloc hm halloc
            rw [mapSubtable_leaf_some halloc] at hfirst
            exact .split hskip hcovers hpage
              (mapSubtable_remade (archMmPteIsTable_tablePte hpage _) hcovers
                (mapLevel_remade hin (MPool.alloc_spec hm halloc).2
                  (wf_splitEntries hin.aligned hwf) ih) hfirst hsecond)

end RawPageTable

namespace PageTable

variable {S : Stage} {attrs : BitVec 64} {unmap strict : Bool} {begin endAddr : Nat}

/-- A page table after both passes. -/
structure Remade (endAddr : Nat) (attrs : BitVec 64) (unmap : Bool) (begin : Nat)
    (pt pt' : PageTable S) : Prop where
  visited : ∀ t b, (t, b) ∈ visits S endAddr begin →
    RawPageTable.Remade endAddr attrs unmap b (pt.tables t) (pt'.tables t)
  other : ∀ t, t ∉ (visits S endAddr begin).map Prod.fst → pt'.tables t = pt.tables t

theorem mapRoot_remade (hS : S.Valid) (hin : InSpace S begin endAddr) {pt mid pt' : PageTable S}
    (hwf : pt.Wf strict) {m m₁ m₂ m₃ : MPool} (hm : m.Wf)
    (hfirst : pt.mapRoot aarch64 begin endAddr attrs ⟨false, unmap⟩ m = some (.ok, mid, m₁))
    (hsecond : mid.mapRoot aarch64 begin endAddr attrs ⟨true, unmap⟩ m₂ = some (.ok, pt', m₃)) :
    Remade endAddr attrs unmap begin pt pt' := by
  have hidx := InSpace.index_eq hS (hin.lt.trans_le hin.le)
  rw [mapRoot_eq _ _ (by omega)] at hfirst hsecond
  rcases h₁ : forEach (RawPageTable.mapLevel aarch64 endAddr attrs ⟨false, unmap⟩ S.maxLevel)
    (visits S endAddr begin) pt.tables m with ⟨o₁, tables₁, s₁⟩
  rw [h₁] at hfirst
  cases hfirst
  rcases h₂ : forEach (RawPageTable.mapLevel aarch64 endAddr attrs ⟨true, unmap⟩ S.maxLevel)
    (visits S endAddr begin) tables₁ m₂ with ⟨o₂, tables₂, s₂⟩
  rw [h₂] at hsecond
  cases hsecond
  obtain ⟨hvisited, hother⟩ := forEach_twice MPool.Wf (RawPageTable.Remade endAddr attrs unmap)
    (InSpace.visits_nodup S endAddr begin) hm
    (fun t b hb s hs => (RawPageTable.splitTable_of_entries (hin.child hS hb) hs
      (RawPageTable.mapEntry_splitPass rfl S.maxLevel)).drawn.wf)
    (fun t b hb => fun hs => RawPageTable.mapLevel_remade (hin.child hS hb) hs (hwf t)
      (RawPageTable.mapEntry_remade S.maxLevel)) h₁ h₂
  exact ⟨hvisited, hother⟩

end PageTable

end Hafnium
