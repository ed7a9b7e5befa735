import Hafnium.Boot.Rewriting

/-!
# The ramdisk of the primary VM

After `patch`, `find_initrd` reads what was written, as far as the properties are wide
enough for it: a property of 4 bytes keeps the low half of an address.  Nothing else that
can be read from the device tree has changed.
-/

namespace Hafnium

open Support FdtBlocks Option List

/-- The blocks of a device tree do not overlap. -/
structure FdtValid (mem : Memory) (hdr : Nat) : Prop extends FdtPlaced mem hdr 0 where
  structAligned : (hdr + fdtOffDtStruct mem hdr) % 4 = 0
  apart : fdtOffDtStruct mem hdr + fdtSizeDtStruct mem hdr ≤ fdtOffDtStrings mem hdr ∨
    fdtOffDtStrings mem hdr + fdtSizeDtStrings mem hdr ≤ fdtOffDtStruct mem hdr

/-! ## Writing a number -/

theorem liftFdt_eq_ok {α : Type} {x : Except FdtPanic α} {a : α} :
    liftFdt x = .ok a ↔ x = .ok a := by
  cases x <;> simp [liftFdt]

theorem Memory.getElem?_bytes (mem : Memory) (addr n i : Nat) :
    (mem.bytes addr n)[i]? = if i < n then some (mem (addr + i)) else none := by
  rw [Memory.bytes, getElem?_map]
  by_cases hi : i < n
  · rw [if_pos hi, getElem?_range hi, map_some]
  · rw [if_neg hi, getElem?_eq_none (by rw [length_range]; omega), map_none]

theorem Memory.drop_take_bytes {mem : Memory} {addr n pos k : Nat} (h : pos + k ≤ n) :
    ((mem.bytes addr n).drop pos).take k = mem.bytes (addr + pos) k := by
  apply ext_getElem?
  intro i
  rw [getElem?_take, getElem?_drop, getElem?_bytes, getElem?_bytes]
  by_cases hi : i < k
  · rw [if_pos hi, if_pos (by omega), if_pos hi, Nat.add_assoc]
  · rw [if_neg hi, if_neg hi]

variable {slices : FdtSlices} {mem mem' : Memory} {name : List Byte} {value node : Nat}

/-- What `write_number` does to the blocks: it rewrites the value of a property. -/
theorem rewrites_of_writeNumber (hdata : slices.data % 4 = 0)
    (hapart : slices.data + slices.dataSize ≤ slices.strs ∨
      slices.strs + slices.strsSize ≤ slices.data)
    (hnode : (slices.read mem).Clean node)
    (h : writeNumber slices name value node mem = .ok (.ok, mem')) :
    ∃ q n, (n = 4 ∨ n = 8) ∧ (slices.read mem).word (q + 4) = n ∧
      (slices.read mem).readPropertyAt name node = .ok (some (q + 12, n)) ∧
      strcmp ((slices.read mem).strs.drop ((slices.read mem).word (q + 8))) (cstr name ++ [0]) =
        some 0 ∧
      (slices.read mem).Rewrites (slices.read mem') q ∧
      ((slices.read mem').data.drop (q + 12)).take n = beBytes n value ∧
      ∀ a, a < slices.data ∨ slices.data + slices.dataSize ≤ a → mem' a = mem a := by
  obtain ⟨found, hread, h⟩ := bind_eq_ok.mp h
  rw [liftFdt_eq_ok] at hread
  obtain _ | ⟨d, n⟩ := found
  · cases h
  obtain ⟨q, hq, hname, rfl, hn⟩ := property_of_readPropertyAt hdata hnode hread
  dsimp only at h
  split at h
  · rename_i hsize
    obtain ⟨mem₁, hstore, h⟩ := bind_eq_ok.mp h
    cases h
    rw [Memory.storeBe] at hstore
    split at hstore
    · cases hstore
      have hend : q + 12 + n ≤ slices.dataSize := by
        have hpad := hq.pad
        have hlength : (slices.read mem).data.length = slices.dataSize := Memory.length_bytes ..
        have hround := le_roundUp4 (q + 12 + (slices.read mem).word (q + 4))
        omega
      have hframe : ∀ a, a < slices.data + (q + 12) ∨ slices.data + (q + 12) + n ≤ a →
          mem.writeBe (slices.data + (q + 12)) n value a = mem a := by
        intro a ha
        exact Memory.write_of_not_mem (by omega)
      refine ⟨q, n, hsize, hn.symm, hread, hname, ?_, ?_, ?_⟩
      · refine ⟨hq, rfl, ?_, ?_, ?_⟩
        · exact Memory.bytes_congr fun i hi => hframe _ (by omega)
        · exact (Memory.length_bytes ..).trans (Memory.length_bytes ..).symm
        · intro i hi
          change (Memory.bytes _ _ _)[i]? = (Memory.bytes _ _ _)[i]?
          rw [Memory.getElem?_bytes, Memory.getElem?_bytes, hframe _ (by omega)]
      · change ((Memory.bytes _ _ _).drop _).take _ = _
        rw [Memory.drop_take_bytes hend, Memory.bytes_writeBe]
      · intro a ha
        exact hframe a (by omega)
    · contradiction
  · cases h

/-! ## The properties of the ramdisk -/

namespace FdtBlocks

/-- Where the properties of the ramdisk are, and their sizes. -/
structure InitrdAt (B : FdtBlocks) (root chosen q₁ n₁ q₂ n₂ : Nat) : Prop where
  findRoot : B.findChild (asciz "") 0 = .ok (some root)
  findChosen : B.findChild (asciz "chosen") root = .ok (some chosen)
  readStart : B.readPropertyAt (asciz "linux,initrd-start") chosen = .ok (some (q₁ + 12, n₁))
  readEnd : B.readPropertyAt (asciz "linux,initrd-end") chosen = .ok (some (q₂ + 12, n₂))

variable {B B' : FdtBlocks} {root chosen q₁ n₁ q₂ n₂ q : Nat}

theorem InitrdAt.clean_root (h : B.InitrdAt root chosen q₁ n₁ q₂ n₂) (hB : B.addr % 4 = 0) :
    B.Clean root := clean_of_findChild hB (.inl .refl) h.findRoot

theorem InitrdAt.clean (h : B.InitrdAt root chosen q₁ n₁ q₂ n₂) (hB : B.addr % 4 = 0) :
    B.Clean chosen := clean_of_findChild hB (h.clean_root hB) h.findChosen

theorem InitrdAt.rewrites (h : B.InitrdAt root chosen q₁ n₁ q₂ n₂) (hB : B.addr % 4 = 0)
    (hrewrites : B.Rewrites B' q) : B'.InitrdAt root chosen q₁ n₁ q₂ n₂ where
  findRoot := (hrewrites.findChild_eq hB _ (.inl .refl)).trans h.findRoot
  findChosen := (hrewrites.findChild_eq hB _ (h.clean_root hB)).trans h.findChosen
  readStart := (hrewrites.readPropertyAt_eq hB _ (h.clean hB)).trans h.readStart
  readEnd := (hrewrites.readPropertyAt_eq hB _ (h.clean hB)).trans h.readEnd

theorem readNumber_eq (hB : B.addr % 4 = 0) {name : List Byte} {node d n v : Nat}
    (hnode : B.Clean node) (hread : B.readPropertyAt name node = .ok (some (d, n)))
    (hvalue : (B.data.drop d).take n = beBytes n v) (hn : n = 4 ∨ n = 8) :
    B.readNumber name node = .ok (some (v % 256 ^ n)) := by
  have hproperty : B.readProperty name node = .ok (some (beBytes n v)) := by
    rw [readProperty_eq_map hB name hnode, hread, ← hvalue]
    rfl
  rw [readNumber, hproperty]
  change Except.ok (fdtParseNumber (beBytes n v)) = _
  rw [fdtParseNumber, length_beBytes, if_pos hn, fromBeBytes_beBytes]

/-- `find_initrd` reads the low bytes of what was written. -/
theorem InitrdAt.findInitrd_eq (h : B.InitrdAt root chosen q₁ n₁ q₂ n₂) (hB : B.addr % 4 = 0)
    {begin endAddr : Nat} (hn₁ : n₁ = 4 ∨ n₁ = 8) (hn₂ : n₂ = 4 ∨ n₂ = 8)
    (hstart : (B.data.drop (q₁ + 12)).take n₁ = beBytes n₁ begin)
    (hstop : (B.data.drop (q₂ + 12)).take n₂ = beBytes n₂ endAddr) :
    B.findInitrd root = .ok (some (begin % 256 ^ n₁, endAddr % 256 ^ n₂)) := by
  rw [findInitrd, h.findChosen]
  change (B.readNumber _ _ >>= _) = _
  rw [readNumber_eq hB (h.clean hB) h.readStart hstart hn₁]
  change (B.readNumber _ _ >>= _) = _
  rw [readNumber_eq hB (h.clean hB) h.readEnd hstop hn₂]
  rfl

theorem findInitrd_shift (B : FdtBlocks) (n : Nat) : (B.shift n).findInitrd = B.findInitrd := by
  funext pos
  simp only [findInitrd, readNumber, findChild_shift, readProperty_shift]

end FdtBlocks

/-! ## `patch` -/

theorem fdtSlices_eq_some {hdr : Nat} (h : fdtSlices mem hdr = some slices) :
    slices = ⟨hdr + fdtOffDtStruct mem hdr, fdtSizeDtStruct mem hdr, hdr + fdtOffDtStrings mem hdr,
      fdtSizeDtStrings mem hdr⟩ ∧ fdtNewRoot mem hdr = some (slices.read mem) := by
  obtain ⟨B, hB, rfl⟩ := map_eq_some_iff.mp h
  refine ⟨rfl, ?_⟩
  rw [hB, some.injEq]
  rw [fdtNewRoot] at hB
  split at hB
  · contradiction
  · dsimp only at hB
    split at hB
    · contradiction
    · exact (some.inj hB).symm

theorem newRoot_of_fields {hdr : Nat} (h : fdtSlices mem hdr = some slices)
    (hfields : ∀ k < 10, fdtField mem' hdr k = fdtField mem hdr k) :
    fdtNewRoot mem' hdr = some (slices.read mem') := by
  obtain ⟨hslices, hroot⟩ := fdtSlices_eq_some h
  have hstruct : fdtOffDtStruct mem' hdr = fdtOffDtStruct mem hdr := hfields 2 (by decide)
  have hstrings : fdtOffDtStrings mem' hdr = fdtOffDtStrings mem hdr := hfields 3 (by decide)
  have hsizeStrings : fdtSizeDtStrings mem' hdr = fdtSizeDtStrings mem hdr := hfields 8 (by decide)
  have hsizeStruct : fdtSizeDtStruct mem' hdr = fdtSizeDtStruct mem hdr := hfields 9 (by decide)
  rw [fdtNewRoot] at hroot ⊢
  dsimp only at hroot ⊢
  rw [hfields 0 (by decide), hfields 5 (by decide), hfields 6 (by decide), hstruct, hstrings,
    hsizeStruct, hsizeStrings, hslices]
  split at hroot
  · contradiction
  · rename_i hmagic
    split at hroot
    · contradiction
    · rename_i hversion
      rw [if_neg hmagic, if_neg hversion]
      rfl

/-- The header is read as before if the struct block changes. -/
theorem FdtValid.of_frame {hdr : Nat} (h : FdtValid mem hdr)
    (hframe : ∀ a, a < hdr + fdtOffDtStruct mem hdr ∨
      hdr + fdtOffDtStruct mem hdr + fdtSizeDtStruct mem hdr ≤ a → mem' a = mem a) :
    (∀ k < 10, fdtField mem' hdr k = fdtField mem hdr k) ∧ FdtValid mem' hdr := by
  have hheader := h.header
  have hbefore := h.beforeStruct
  have hfields : ∀ k < 10, fdtField mem' hdr k = fdtField mem hdr k := by
    intro k hk
    rw [fdtField, fdtField, Memory.bytes_congr fun i hi => hframe _ (by omega)]
  refine ⟨hfields, ?_⟩
  have htotal : fdtTotalsize mem' hdr = fdtTotalsize mem hdr := hfields 1 (by decide)
  have hstruct : fdtOffDtStruct mem' hdr = fdtOffDtStruct mem hdr := hfields 2 (by decide)
  have hstrings : fdtOffDtStrings mem' hdr = fdtOffDtStrings mem hdr := hfields 3 (by decide)
  have hrsvmap : fdtOffMemRsvmap mem' hdr = fdtOffMemRsvmap mem hdr := hfields 4 (by decide)
  have hsizeStrings : fdtSizeDtStrings mem' hdr = fdtSizeDtStrings mem hdr := hfields 8 (by decide)
  have hsizeStruct : fdtSizeDtStruct mem' hdr = fdtSizeDtStruct mem hdr := hfields 9 (by decide)
  refine ⟨⟨h.aligned, ?_, ?_, ?_, ?_, ?_, ?_⟩, ?_, ?_⟩
  · rw [hrsvmap]
    exact h.rsvmapAligned
  · rw [hrsvmap]
    exact h.header
  · rw [hrsvmap, hstruct]
    exact h.beforeStruct
  · rw [hrsvmap, hstrings]
    exact h.beforeStrings
  · rw [hstruct, hsizeStruct, htotal]
    exact h.structEnd
  · rw [hstrings, hsizeStrings, htotal]
    exact h.stringsEnd
  · rw [hstruct]
    exact h.structAligned
  · rw [hstruct, hsizeStruct, hstrings, hsizeStrings]
    exact h.apart

/-- What `patch` leaves of the blocks, at their new addresses. -/
structure PatchedBlocks (B B' : FdtBlocks) (p : BootParamsUpdate) (root chosen q₁ n₁ q₂ n₂ : Nat) :
    Prop where
  initrdAt : B.InitrdAt root chosen q₁ n₁ q₂ n₂
  startSize : n₁ = 4 ∨ n₁ = 8
  endSize : n₂ = 4 ∨ n₂ = 8
  rewrites : ∃ mid, B.Rewrites mid q₁ ∧ mid.Rewrites B' q₂
  startValue : (B'.data.drop (q₁ + 12)).take n₁ = beBytes n₁ p.initrdBegin
  endValue : (B'.data.drop (q₂ + 12)).take n₂ = beBytes n₂ p.initrdEnd

theorem patchTree_eq_ok {layout : Layout} {hdr : Nat} {p : BootParamsUpdate}
    (hvalid : FdtValid mem hdr) (hslices : fdtSlices mem hdr = some slices)
    (hfits : fdtTotalsize mem hdr + 16 * (p.reservedRanges.length + 3) < 2 ^ 32)
    (h : patchTree layout slices hdr p mem = .ok (.ok, mem')) :
    ∃ B B' root chosen q₁ n₁ q₂ n₂ k, fdtNewRoot mem hdr = some B ∧
      fdtNewRoot mem' hdr = some (B'.shift k) ∧ B.addr % 4 = 0 ∧
      PatchedBlocks B B' p root chosen q₁ n₁ q₂ n₂ := by
  obtain ⟨hslices', hroot⟩ := fdtSlices_eq_some hslices
  have hdata : slices.data % 4 = 0 := by
    rw [hslices']
    exact hvalid.structAligned
  have hapart : slices.data + slices.dataSize ≤ slices.strs ∨
      slices.strs + slices.strsSize ≤ slices.data := by
    have := hvalid.apart
    rw [hslices']
    dsimp only
    omega
  obtain ⟨found, hfind, h⟩ := bind_eq_ok.mp h
  rw [liftFdt_eq_ok] at hfind
  cases found with
  | none => cases h
  | some root =>
  obtain ⟨found, hfind', h⟩ := bind_eq_ok.mp h
  rw [liftFdt_eq_ok] at hfind'
  cases found with
  | none => cases h
  | some chosen =>
  have hclean : (slices.read mem).Clean chosen :=
    clean_of_findChild hdata (clean_of_findChild hdata (.inl .refl)
      hfind) hfind'
  -- the two numbers
  obtain ⟨⟨r₁, mem₁⟩, hwrite₁, h⟩ := bind_eq_ok.mp h
  cases r₁ with
  | err => cases h
  | ok =>
  obtain ⟨⟨r₂, mem₂⟩, hwrite₂, h⟩ := bind_eq_ok.mp h
  cases r₂ with
  | err => cases h
  | ok =>
  obtain ⟨mem₃, hadd, h⟩ := bind_eq_ok.mp h
  cases h
  obtain ⟨q₁, n₁, hn₁, hsize₁, hread₁, hname₁, hrewrites₁, hvalue₁, hframe₁⟩ :=
    rewrites_of_writeNumber hdata hapart hclean hwrite₁
  obtain ⟨q₂, n₂, hn₂, hsize₂, hread₂, hname₂, hrewrites₂, hvalue₂, hframe₂⟩ :=
    rewrites_of_writeNumber hdata hapart (hrewrites₁.clean hclean) hwrite₂
  -- the names differ, and so do the properties
  have hne : q₁ ≠ q₂ := by
    rintro rfl
    have hword : (slices.read mem₁).word (q₁ + 8) = (slices.read mem).word (q₁ + 8) :=
      hrewrites₁.word_eq (by omega)
    rw [hword, hrewrites₁.strs] at hname₂
    have hcstr := (cstr_of_strcmp (zero_notMem_cstr _) hname₁).symm.trans
      (cstr_of_strcmp (zero_notMem_cstr _) hname₂)
    exact absurd hcstr (by decide)
  have hproperty₁ := hrewrites₁.propertyAt hrewrites₁.property
  have hsize₁' := hrewrites₁.size_eq hrewrites₁.property
  -- the header and the strings are as they were
  have hframe : ∀ a, a < hdr + fdtOffDtStruct mem hdr ∨
      hdr + fdtOffDtStruct mem hdr + fdtSizeDtStruct mem hdr ≤ a → mem₂ a = mem a := by
    intro a ha
    rw [hslices'] at hframe₁ hframe₂
    exact (hframe₂ a ha).trans (hframe₁ a ha)
  obtain ⟨hfields, hvalid₂⟩ := hvalid.of_frame hframe
  have htotal : fdtTotalsize mem₂ hdr = fdtTotalsize mem hdr := hfields 1 (by decide)
  have hlength : (reservations layout p).length = p.reservedRanges.length + 3 := by
    rw [reservations, length_append, length_map]
    exact Nat.add_comm ..
  obtain ⟨mem₃', hadd', hmoved⟩ := hvalid₂.toFdtPlaced.addAll
    (show fdtTotalsize mem₂ hdr + 16 * (reservations layout p).length < 2 ^ 32 by
      rw [hlength, htotal]
      exact hfits)
  obtain rfl := Except.ok.inj (hadd.symm.trans hadd')
  rw [show 16 * (reservations layout p).length = 4 * (4 * (reservations layout p).length) by
    omega] at hmoved
  refine ⟨slices.read mem, slices.read mem₂, root, chosen, q₁, n₁, q₂, n₂,
    4 * (reservations layout p).length, hroot, ?_, hdata, ?_⟩
  · rw [hmoved.newRoot hvalid₂.toFdtPlaced, newRoot_of_fields hslices hfields, map_some]
  · refine ⟨⟨hfind, hfind', hread₁, ?_⟩, hn₁, hn₂, ⟨_, hrewrites₁, hrewrites₂⟩, ?_, hvalue₂⟩
    · exact (hrewrites₁.readPropertyAt_eq hdata _ hclean).symm.trans hread₂
    · have hvalue := hrewrites₂.value_eq hproperty₁ hne
      rw [hsize₁', hsize₁] at hvalue
      exact hvalue.trans hvalue₁

/-- `patch` changes memory as `patchTree` does. -/
theorem patch_eq_ok {H : Stage} {layout : Layout} {hdr : Nat} {p : BootParamsUpdate}
    {s s' : PatchState H} (h : patch layout hdr p s = .ok (.ok, s')) :
    ∃ slices, fdtSlices s.mem hdr = some slices ∧
      patchTree layout slices hdr p s.mem = .ok (.ok, s'.mem) := by
  have hmap : ∀ {begin endAddr mode r} {t t' : PatchState H},
      t.map begin endAddr mode = .ok (r, t') → t'.mem = t.mem := by
    intro begin endAddr mode r t t' h
    obtain ⟨x, -, h⟩ := bind_eq_ok.mp h
    cases h
    rfl
  have hunmap : ∀ {begin endAddr r} {t t' : PatchState H},
      t.unmap begin endAddr = .ok (r, t') → t'.mem = t.mem := by
    intro begin endAddr r t t' h
    obtain ⟨x, -, h⟩ := bind_eq_ok.mp h
    cases h
    rfl
  obtain ⟨⟨r₁, s₁⟩, hmap₁, h⟩ := bind_eq_ok.mp h
  have hmem₁ := hmap hmap₁
  cases r₁ with
  | err => cases h
  | ok =>
  dsimp only at h
  rw [if_neg (by decide), hmem₁] at h
  cases hslices : fdtSlices s.mem hdr with
  | none =>
    rw [hslices] at h
    obtain ⟨x, -, h⟩ := bind_eq_ok.mp h
    cases h
  | some slices =>
  rw [hslices] at h
  obtain ⟨⟨r₂, s₂⟩, hmap₂, h⟩ := bind_eq_ok.mp h
  have hmem₂ := (hmap hmap₂).trans hmem₁
  cases r₂ with
  | err =>
    obtain ⟨x, -, h⟩ := bind_eq_ok.mp h
    cases h
  | ok =>
  obtain ⟨⟨r₃, mem₃⟩, htree, h⟩ := bind_eq_ok.mp h
  rw [hmem₂] at htree
  cases r₃ with
  | err =>
    obtain ⟨x, -, h⟩ := bind_eq_ok.mp h
    cases h
  | ok =>
    refine ⟨slices, rfl, ?_⟩
    rw [htree, hunmap h]

/-! ## What the primary VM is told -/

namespace FdtBlocks

/-- The value of a property of the ramdisk is at a position. -/
def IsInitrd (B : FdtBlocks) (d : Nat) : Prop :=
  ∃ root chosen n, B.findChild (asciz "") 0 = .ok (some root) ∧
    B.findChild (asciz "chosen") root = .ok (some chosen) ∧
    (B.readPropertyAt (asciz "linux,initrd-start") chosen = .ok (some (d, n)) ∨
      B.readPropertyAt (asciz "linux,initrd-end") chosen = .ok (some (d, n)))

/-- The patched tree tells where the ramdisk is, and all else that the tree did. -/
structure TellsInitrd (B B' : FdtBlocks) (p : BootParamsUpdate) : Prop where
  initrd : ∃ root, B'.findChild (asciz "") 0 = .ok (some root) ∧
    B'.findInitrd root = .ok (some (p.initrdBegin, p.initrdEnd))
  visit : ∀ pos, B.Visited pos → B'.visit pos = B.visit pos
  others : ∀ pos, B.Visited pos → ∀ name,
    (∀ d n, B.readPropertyAt name pos = .ok (some (d, n)) → ¬B.IsInitrd d) →
      B'.readProperty name pos = B.readProperty name pos

/-- The properties of the ramdisk are wide enough for its new location. -/
def InitrdFits (B : FdtBlocks) (p : BootParamsUpdate) : Prop :=
  ∀ root chosen, B.findChild (asciz "") 0 = .ok (some root) →
    B.findChild (asciz "chosen") root = .ok (some chosen) →
    (∀ value, B.readProperty (asciz "linux,initrd-start") chosen = .ok (some value) →
      value.length = 4 → p.initrdBegin < 2 ^ 32) ∧
    ∀ value, B.readProperty (asciz "linux,initrd-end") chosen = .ok (some value) →
      value.length = 4 → p.initrdEnd < 2 ^ 32

end FdtBlocks

namespace PatchedBlocks

variable {B B' : FdtBlocks} {p : BootParamsUpdate} {root chosen q₁ n₁ q₂ n₂ : Nat}
  (h : PatchedBlocks B B' p root chosen q₁ n₁ q₂ n₂) (hB : B.addr % 4 = 0) (k : Nat)
include h hB

theorem findInitrd_eq : (B'.shift k).findChild (asciz "") 0 = .ok (some root) ∧
    (B'.shift k).findInitrd root =
      .ok (some (p.initrdBegin % 256 ^ n₁, p.initrdEnd % 256 ^ n₂)) := by
  obtain ⟨mid, hfirst, hsecond⟩ := h.rewrites
  have hmid : mid.addr % 4 = 0 := by rwa [hfirst.addr]
  have hB' : B'.addr % 4 = 0 := by rwa [hsecond.addr]
  have hinitrd := (h.initrdAt.rewrites hB hfirst).rewrites hmid hsecond
  constructor
  · rw [B'.findChild_shift]
    exact hinitrd.findRoot
  · rw [B'.findInitrd_shift]
    exact hinitrd.findInitrd_eq hB' h.startSize h.endSize h.startValue h.endValue

theorem visit_eq {pos : Nat} (hpos : B.Clean pos) : (B'.shift k).visit pos = B.visit pos := by
  obtain ⟨mid, hfirst, hsecond⟩ := h.rewrites
  have hmid : mid.addr % 4 = 0 := by rwa [hfirst.addr]
  funext op
  rw [B'.visit_shift, hsecond.visit_eq hmid (hfirst.clean hpos), hfirst.visit_eq hB hpos]

/-- A property that is not one of the ramdisk keeps its value. -/
theorem readProperty_eq {pos : Nat} (hpos : B.Clean pos) (name : List Byte)
    (hother : ∀ d n, B.readPropertyAt name pos = .ok (some (d, n)) → ¬B.IsInitrd d) :
    (B'.shift k).readProperty name pos = B.readProperty name pos := by
  obtain ⟨mid, hfirst, hsecond⟩ := h.rewrites
  have hmid : mid.addr % 4 = 0 := by rwa [hfirst.addr]
  have hB' : B'.addr % 4 = 0 := by rwa [hsecond.addr]
  have hinitrd := h.initrdAt
  rw [B'.readProperty_shift, readProperty_eq_map hB name hpos,
    readProperty_eq_map hB' name (hsecond.clean (hfirst.clean hpos)),
    hsecond.readPropertyAt_eq hmid name (hfirst.clean hpos), hfirst.readPropertyAt_eq hB name hpos]
  cases hread : B.readPropertyAt name pos with
  | error e => rfl
  | ok found =>
    cases found with
    | none => rfl
    | some x =>
      obtain ⟨q, hq, -, hd, hn⟩ := property_of_readPropertyAt hB hpos hread
      have hnot := hother x.1 x.2 hread
      have hne₁ : q ≠ q₁ := by
        rintro rfl
        exact hnot ⟨root, chosen, n₁, hinitrd.findRoot, hinitrd.findChosen,
          .inl (by rw [hd]; exact hinitrd.readStart)⟩
      have hne₂ : q ≠ q₂ := by
        rintro rfl
        exact hnot ⟨root, chosen, n₂, hinitrd.findRoot, hinitrd.findChosen,
          .inr (by rw [hd]; exact hinitrd.readEnd)⟩
      have hvalue := hsecond.value_eq (hfirst.propertyAt hq) hne₂
      rw [hfirst.size_eq hq] at hvalue
      change Except.ok (some ((B'.data.drop x.1).take x.2)) =
        Except.ok (some ((B.data.drop x.1).take x.2))
      rw [hd, hn, hvalue, hfirst.value_eq hq hne₁]

/-- The ramdisk is told iff its properties are wide enough. -/
theorem tellsInitrd_iff (hbegin : p.initrdBegin < 2 ^ 64) (hend : p.initrdEnd < 2 ^ 64) :
    B.TellsInitrd (B'.shift k) p ↔ B.InitrdFits p := by
  obtain ⟨hroot, hfind⟩ := h.findInitrd_eq hB k
  have hinitrd := h.initrdAt
  have hclean := hinitrd.clean hB
  have hkept : ∀ {n v : Nat}, n = 4 ∨ n = 8 → v < 2 ^ 64 →
      (v % 256 ^ n = v ↔ (n = 4 → v < 2 ^ 32)) := by
    rintro n v (rfl | rfl) hv
    · have hpow : (256 : Nat) ^ 4 = 2 ^ 32 := by norm_num
      rw [hpow]
      omega
    · have hpow : (256 : Nat) ^ 8 = 2 ^ 64 := by norm_num
      rw [hpow, Nat.mod_eq_of_lt hv]
      simp
  have hsizes : B.InitrdFits p ↔
      (n₁ = 4 → p.initrdBegin < 2 ^ 32) ∧ (n₂ = 4 → p.initrdEnd < 2 ^ 32) := by
    have hvalue : ∀ {name d n}, B.readPropertyAt name chosen = .ok (some (d, n)) →
        ∃ value, B.readProperty name chosen = .ok (some value) ∧ value.length = n := by
      intro name d n hread
      obtain ⟨q, hq, -, rfl, rfl⟩ := property_of_readPropertyAt hB hclean hread
      have hpad := hq.pad
      have hround := le_roundUp4 (q + 12 + B.word (q + 4))
      refine ⟨_, by rw [readProperty_eq_map hB name hclean, hread]; rfl, ?_⟩
      rw [length_take, length_drop]
      omega
    obtain ⟨value₁, hread₁, rfl⟩ := hvalue hinitrd.readStart
    obtain ⟨value₂, hread₂, rfl⟩ := hvalue hinitrd.readEnd
    constructor
    · intro hfits
      obtain ⟨hfits₁, hfits₂⟩ := hfits root chosen hinitrd.findRoot hinitrd.findChosen
      exact ⟨hfits₁ value₁ hread₁, hfits₂ value₂ hread₂⟩
    · rintro ⟨hfits₁, hfits₂⟩ root' chosen' hroot' hchosen'
      cases hinitrd.findRoot.symm.trans hroot'
      cases hinitrd.findChosen.symm.trans hchosen'
      constructor
      · intro value hread
        cases hread₁.symm.trans hread
        exact hfits₁
      · intro value hread
        cases hread₂.symm.trans hread
        exact hfits₂
  rw [hsizes, ← hkept h.startSize hbegin, ← hkept h.endSize hend]
  constructor
  · rintro ⟨⟨root', hroot', hfind'⟩, -, -⟩
    cases hroot.symm.trans hroot'
    have heq := Prod.mk.inj (some.inj (Except.ok.inj (hfind.symm.trans hfind')))
    exact heq
  · rintro ⟨hbegin', hend'⟩
    rw [hbegin', hend'] at hfind
    refine ⟨⟨root, hroot, hfind⟩, ?_, ?_⟩
    · intro pos hpos
      exact h.visit_eq hB k (hpos.clean hB)
    · intro pos hpos name hother
      exact h.readProperty_eq hB k (hpos.clean hB) name hother

end PatchedBlocks

/-- Whenever `patch` succeeds, the primary VM is told the new location of its ramdisk, and
all else that the tree told, exactly if the properties of the ramdisk are wide enough. -/
theorem patch_tellsInitrd_iff {H : Stage} {layout : Layout} {hdr : Nat} {p : BootParamsUpdate}
    {s s' : PatchState H} (hvalid : FdtValid s.mem hdr)
    (hfits : fdtTotalsize s.mem hdr + 16 * (p.reservedRanges.length + 3) < 2 ^ 32)
    (hbegin : p.initrdBegin < 2 ^ 64) (hend : p.initrdEnd < 2 ^ 64)
    (hok : patch layout hdr p s = .ok (.ok, s')) :
    ∃ B B', fdtNewRoot s.mem hdr = some B ∧ fdtNewRoot s'.mem hdr = some B' ∧
      (B.TellsInitrd B' p ↔ B.InitrdFits p) := by
  obtain ⟨slices, hslices, htree⟩ := patch_eq_ok hok
  obtain ⟨B, B', root, chosen, q₁, n₁, q₂, n₂, k, hroot, hroot', hB, hpatched⟩ :=
    patchTree_eq_ok hvalid hslices hfits htree
  exact ⟨B, B'.shift k, hroot, hroot', hpatched.tellsInitrd_iff hB k hbegin hend⟩

/-! ### A tree with a short and a long number -/

def initrdLayout : Layout := ⟨0x10000, 0x12000, 0x12000, 0x13000, 0x13000, 0x15000, 0x80000, []⟩

def initrdState : PatchState ⟨.stage1, 1, 1⟩ :=
  ⟨PageTable.absentTable _ 0x20000, initrdFdt, PageTable.examplePool⟩

def initrdBlocks : FdtBlocks :=
  (fdtNewRoot initrdFdt 0).getD ⟨0, [], []⟩

theorem newRoot_initrdFdt : fdtNewRoot initrdFdt 0 = some initrdBlocks := by decide +kernel

theorem valid_initrdFdt : FdtValid initrdFdt 0 where
  aligned := rfl
  rsvmapAligned := layout_initrdFdt.rsvmapAligned
  header := layout_initrdFdt.header
  beforeStruct := (Nat.add_le_add_left (Nat.zero_le _) _).trans layout_initrdFdt.beforeStruct
  beforeStrings := (Nat.add_le_add_left (Nat.zero_le _) _).trans layout_initrdFdt.beforeStrings
  structEnd := layout_initrdFdt.structEnd
  stringsEnd := layout_initrdFdt.stringsEnd
  structAligned := by decide +kernel
  apart := by decide +kernel

theorem exists_of_outcome {α : Type} {x : Except PatchStop (Outcome × α)}
    (h : x.toOption.map Prod.fst = some .ok) : ∃ a, x = .ok (.ok, a) := by
  obtain e | ⟨_ | _, a⟩ := x
  · contradiction
  · exact ⟨a, rfl⟩
  · cases h

/-- A ramdisk that begins below 4 GiB and ends above. -/
theorem patch_tellsInitrd_iff_across :
    ∃ s' B B', patch initrdLayout 0 ⟨[], 0xfffff000, 0x100001000⟩ initrdState = .ok (.ok, s') ∧
      fdtNewRoot initrdFdt 0 = some B ∧ fdtNewRoot s'.mem 0 = some B' ∧
      B.TellsInitrd B' ⟨[], 0xfffff000, 0x100001000⟩ := by
  obtain ⟨s', hok⟩ := exists_of_outcome
    (x := patch initrdLayout 0 ⟨[], 0xfffff000, 0x100001000⟩ initrdState) (by decide +kernel)
  obtain ⟨B, B', hroot, hroot', hiff⟩ := patch_tellsInitrd_iff (s := initrdState) valid_initrdFdt
    (by decide +kernel) (by decide) (by decide) hok
  refine ⟨s', B, B', hok, hroot, hroot', hiff.mpr ?_⟩
  obtain rfl := some.inj (newRoot_initrdFdt.symm.trans hroot)
  have hfind : initrdBlocks.findChild (asciz "") 0 = .ok (some 8) := by decide +kernel
  have hchosen : initrdBlocks.findChild (asciz "chosen") 8 = .ok (some 20) := by decide +kernel
  have hend : initrdBlocks.readProperty (asciz "linux,initrd-end") 20 =
      .ok (some (beBytes 8 0)) := by decide +kernel
  intro root chosen hroot hchosen'
  cases hfind.symm.trans hroot
  cases hchosen.symm.trans hchosen'
  constructor
  · intro _ _ _
    decide
  · intro value hread hlength
    cases hend.symm.trans hread
    cases hlength

/-- The low half of an address above 4 GiB is read from the property of 4 bytes. -/
theorem initrd_truncated : FdtValid initrdFdt 0 ∧
    ∃ s' B B', patch initrdLayout 0 ⟨[], 0x100000000, 0x100001000⟩ initrdState = .ok (.ok, s') ∧
      fdtNewRoot initrdFdt 0 = some B ∧ fdtNewRoot s'.mem 0 = some B' ∧
      (∃ root, B'.findChild (asciz "") 0 = .ok (some root) ∧
        B'.findInitrd root = .ok (some (0, 0x100001000))) ∧
      ¬B.TellsInitrd B' ⟨[], 0x100000000, 0x100001000⟩ := by
  refine ⟨valid_initrdFdt, ?_⟩
  obtain ⟨s', hok⟩ := exists_of_outcome
    (x := patch initrdLayout 0 ⟨[], 0x100000000, 0x100001000⟩ initrdState) (by decide +kernel)
  obtain ⟨slices, hslices, htree⟩ := patch_eq_ok hok
  obtain ⟨B, B', root, chosen, q₁, n₁, q₂, n₂, k, hroot, hroot', hB, hpatched⟩ :=
    patchTree_eq_ok valid_initrdFdt hslices (by decide +kernel) htree
  obtain ⟨hfindRoot, hfind⟩ := hpatched.findInitrd_eq hB k
  have hinitrd := hpatched.initrdAt
  obtain rfl := some.inj (newRoot_initrdFdt.symm.trans hroot)
  have hroot₀ : initrdBlocks.findChild (asciz "") 0 = .ok (some 8) := by decide +kernel
  have hchosen : initrdBlocks.findChild (asciz "chosen") 8 = .ok (some 20) := by decide +kernel
  cases hroot₀.symm.trans hinitrd.findRoot
  cases hchosen.symm.trans hinitrd.findChosen
  have hstart : initrdBlocks.readPropertyAt (asciz "linux,initrd-start") 20 =
      .ok (some (32, 4)) := by decide +kernel
  have hend : initrdBlocks.readPropertyAt (asciz "linux,initrd-end") 20 =
      .ok (some (48, 8)) := by decide +kernel
  have hn₁ := (Prod.mk.inj (some.inj (Except.ok.inj
    (hstart.symm.trans hinitrd.readStart)))).2
  have hn₂ := (Prod.mk.inj (some.inj (Except.ok.inj (hend.symm.trans hinitrd.readEnd)))).2
  have hlow : (0x100000000 : Nat) % 256 ^ 4 = 0 := by norm_num
  have hwhole : (0x100001000 : Nat) % 256 ^ 8 = 0x100001000 := by norm_num
  dsimp only at hfind
  rw [← hn₁, ← hn₂, hlow, hwhole] at hfind
  refine ⟨s', _, _, hok, hroot, hroot', ⟨8, hfindRoot, hfind⟩, ?_⟩
  rintro ⟨⟨root, hroot₁, hfind₁⟩, -, -⟩
  cases hfindRoot.symm.trans hroot₁
  have heq := some.inj (Except.ok.inj (hfind.symm.trans hfind₁))
  exact absurd heq (by decide)

end Hafnium
