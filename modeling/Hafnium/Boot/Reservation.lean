import Hafnium.Boot.Navigation
import Hafnium.Boot.Patch

/-!
# Memory reservations

`add_mem_reservation` moves all that follows the header and puts an entry before the other
reservations.  The struct and strings blocks are found at their new places, and are read
as before.
-/

namespace Hafnium

open Support Memory List

/-! ## Big-endian numbers -/

theorem beBytes_succ (n v : Nat) : beBytes (n + 1) v = .ofNat 8 (v / 256 ^ n) :: beBytes n v := by
  rw [beBytes, range_succ_eq_map, map_cons, map_map, beBytes]
  congr 1
  apply map_congr_left
  intro i _
  have hexp : n + 1 - 1 - (i + 1) = n - 1 - i := by omega
  simp only [Function.comp_apply, Nat.succ_eq_add_one, hexp]

theorem length_beBytes (n v : Nat) : (beBytes n v).length = n := by
  simp [beBytes]

/-- Reading a number that was written drops what does not fit. -/
theorem fromBeBytes_beBytes (n v : Nat) : fromBeBytes (beBytes n v) = v % 256 ^ n := by
  have hfold : ∀ acc, (beBytes n v).foldl (fun v b => 256 * v + b.toNat) acc =
      256 ^ n * acc + v % 256 ^ n := by
    induction n with
    | zero =>
      intro acc
      simp [beBytes, Nat.mod_one]
    | succ n ih =>
      intro acc
      have hmod : v % 256 ^ (n + 1) = v % 256 ^ n + 256 ^ n * (v / 256 ^ n % 256) :=
        Nat.mod_pow_succ
      have hbyte : (BitVec.ofNat 8 (v / 256 ^ n)).toNat = v / 256 ^ n % 256 := BitVec.toNat_ofNat ..
      rw [beBytes_succ, foldl_cons, ih, hbyte, hmod]
      ring
  rw [fromBeBytes, hfold, Nat.mul_zero, Nat.zero_add]

namespace Memory

variable {mem mem' : Memory} {addr addr' n : Nat}

theorem bytes_congr (h : ∀ i < n, mem' (addr' + i) = mem (addr + i)) :
    mem'.bytes addr' n = mem.bytes addr n := by
  apply map_congr_left
  intro i hi
  exact h i (mem_range.mp hi)

theorem bytes_writeBe (mem : Memory) (addr n v : Nat) :
    (mem.writeBe addr n v).bytes addr n = beBytes n v := by
  apply map_congr_left
  intro i hi
  rw [writeBe, write_of_mem (Nat.le_add_right addr i)
    (Nat.add_lt_add_left (mem_range.mp hi) addr), Nat.add_sub_cancel_left]

theorem bytes_write_of_disjoint {m : Nat} {src : Nat → BitVec 8}
    (h : addr' + m ≤ addr ∨ addr + n ≤ addr') :
    (mem.write addr n src).bytes addr' m = mem.bytes addr' m := by
  apply bytes_congr
  intro i hi
  apply write_of_not_mem
  omega

theorem storeBe_eq (v : Nat) (h : addr % n = 0) :
    mem.storeBe addr n v = .ok (mem.writeBe addr n v) := if_pos h

end Memory

/-! ## Fields of the header -/

section Fields

variable {mem : Memory} {hdr k : Nat}

theorem fdtField_writeBe (v : Nat) :
    fdtField (mem.writeBe (hdr + 4 * k) 4 v) hdr k = v % 2 ^ 32 := by
  rw [fdtField, bytes_writeBe, fromBeBytes_beBytes]
  norm_num

theorem fdtField_write_of_disjoint {addr n : Nat} {src : Nat → BitVec 8}
    (h : hdr + 4 * k + 4 ≤ addr ∨ addr + n ≤ hdr + 4 * k) :
    fdtField (mem.write addr n src) hdr k = fdtField mem hdr k := by
  rw [fdtField, bytes_write_of_disjoint h, fdtField]

theorem fdtField_writeBe_of_ne {j : Nat} (v : Nat) (h : k ≠ j) :
    fdtField (mem.writeBe (hdr + 4 * j) 4 v) hdr k = fdtField mem hdr k := by
  apply fdtField_write_of_disjoint
  omega

end Fields

/-! ## The layout of a device tree -/

/-- The reservations, of some size, come after the header and before the other blocks, and
these end before the tree does. -/
structure FdtPlaced (mem : Memory) (hdr rsvmapSize : Nat) : Prop where
  aligned : hdr % 4 = 0
  rsvmapAligned : (hdr + fdtOffMemRsvmap mem hdr) % 8 = 0
  header : 40 ≤ fdtOffMemRsvmap mem hdr
  beforeStruct : fdtOffMemRsvmap mem hdr + rsvmapSize ≤ fdtOffDtStruct mem hdr
  beforeStrings : fdtOffMemRsvmap mem hdr + rsvmapSize ≤ fdtOffDtStrings mem hdr
  structEnd : fdtOffDtStruct mem hdr + fdtSizeDtStruct mem hdr ≤ fdtTotalsize mem hdr
  stringsEnd : fdtOffDtStrings mem hdr + fdtSizeDtStrings mem hdr ≤ fdtTotalsize mem hdr

/-- A device tree whose blocks are in order, and its reservations. -/
structure FdtLayout (mem : Memory) (hdr : Nat) (entries : List (Nat × Nat)) : Prop
    extends FdtPlaced mem hdr (16 * (entries.length + 1)) where
  reservations : fdtReservations mem hdr = some entries

/-- All that follows the header of a device tree was moved by `n` bytes. -/
structure FdtMoved (mem mem' : Memory) (hdr n : Nat) : Prop where
  totalsize : fdtTotalsize mem' hdr = fdtTotalsize mem hdr + n
  offDtStruct : fdtOffDtStruct mem' hdr = fdtOffDtStruct mem hdr + n
  offDtStrings : fdtOffDtStrings mem' hdr = fdtOffDtStrings mem hdr + n
  fields : ∀ k, k = 0 ∨ 4 ≤ k → k < 10 → fdtField mem' hdr k = fdtField mem hdr k
  moved : ∀ a, fdtOffMemRsvmap mem hdr ≤ a → a < fdtTotalsize mem hdr →
    mem' (hdr + a + n) = mem (hdr + a)
  frame : ∀ a, a < hdr ∨ hdr + fdtTotalsize mem hdr + n ≤ a → mem' a = mem a

namespace FdtMoved

variable {mem mem' mem'' : Memory} {hdr n m : Nat}

theorem refl (mem : Memory) (hdr : Nat) : FdtMoved mem mem hdr 0 :=
  ⟨rfl, rfl, rfl, fun _ _ _ => rfl, fun _ _ _ => rfl, fun _ _ => rfl⟩

theorem offMemRsvmap (h : FdtMoved mem mem' hdr n) :
    fdtOffMemRsvmap mem' hdr = fdtOffMemRsvmap mem hdr := h.fields 4 (.inr le_rfl) (by decide)

theorem trans (h : FdtMoved mem mem' hdr n) (h' : FdtMoved mem' mem'' hdr m) :
    FdtMoved mem mem'' hdr (n + m) where
  totalsize := by rw [h'.totalsize, h.totalsize, Nat.add_assoc]
  offDtStruct := by rw [h'.offDtStruct, h.offDtStruct, Nat.add_assoc]
  offDtStrings := by rw [h'.offDtStrings, h.offDtStrings, Nat.add_assoc]
  fields := fun k hk hlt => (h'.fields k hk hlt).trans (h.fields k hk hlt)
  moved := by
    intro a hlo hhi
    have hrest := h'.moved (a + n) (by rw [h.offMemRsvmap]; omega) (by rw [h.totalsize]; omega)
    have hfirst := h.moved a hlo hhi
    rw [← Nat.add_assoc] at hrest
    rw [← Nat.add_assoc, hrest, hfirst]
  frame := by
    intro a ha
    have htotal := h.totalsize
    rw [h'.frame a (by omega), h.frame a (by omega)]

/-- A block behind the reservations is read at its new place. -/
theorem bytes_eq (h : FdtMoved mem mem' hdr n) {off size : Nat}
    (hoff : fdtOffMemRsvmap mem hdr ≤ off) (hend : off + size ≤ fdtTotalsize mem hdr) :
    mem'.bytes (hdr + (off + n)) size = mem.bytes (hdr + off) size := by
  apply bytes_congr
  intro i hi
  have hmoved := h.moved (off + i) (by omega) (by omega)
  rw [show hdr + (off + n) + i = hdr + (off + i) + n by omega, hmoved, Nat.add_assoc]

end FdtMoved

/-! ## One reservation -/

section Add

variable {mem : Memory} {hdr addr len : Nat} {entries : List (Nat × Nat)}

theorem reserveEntries_cons {fuel entry : Nat} : reserveEntries mem (fuel + 1) entry =
      if fromBeBytes (mem.bytes entry 8) ≠ 0 ∨ fromBeBytes (mem.bytes (entry + 8) 8) ≠ 0 then
        (reserveEntries mem fuel (entry + 16)).map
          ((fromBeBytes (mem.bytes entry 8), fromBeBytes (mem.bytes (entry + 8) 8)) :: ·)
      else some [] := rfl

/-- The list ends after its last entry, so that it can be read from a copy, and with any
bound that suffices. -/
theorem reserveEntries_moved {mem' : Memory} {fuel fuel' entry entry' : Nat}
    (h : reserveEntries mem fuel entry = some entries) (hfuel : entries.length < fuel')
    (hmoved : ∀ i < 16 * (entries.length + 1), mem' (entry' + i) = mem (entry + i)) :
    reserveEntries mem' fuel' entry' = some entries := by
  induction fuel generalizing fuel' entry entry' entries with
  | zero => contradiction
  | succ fuel ih =>
    obtain ⟨fuel', rfl⟩ : ∃ k, fuel' = k + 1 := ⟨fuel' - 1, by omega⟩
    have haddress : mem'.bytes entry' 8 = mem.bytes entry 8 :=
      bytes_congr fun i hi => hmoved i (by omega)
    have hsize : mem'.bytes (entry' + 8) 8 = mem.bytes (entry + 8) 8 := by
      apply bytes_congr
      intro i hi
      rw [Nat.add_assoc, Nat.add_assoc]
      exact hmoved (8 + i) (by omega)
    rw [reserveEntries_cons] at h
    rw [reserveEntries_cons, haddress, hsize]
    by_cases hne : fromBeBytes (mem.bytes entry 8) ≠ 0 ∨ fromBeBytes (mem.bytes (entry + 8) 8) ≠ 0
    · rw [if_pos hne] at h ⊢
      obtain ⟨rest, hrest, rfl⟩ := Option.map_eq_some_iff.mp h
      rw [length_cons] at hfuel hmoved
      rw [ih hrest (Nat.lt_of_succ_lt_succ hfuel) fun i hi => ?_, Option.map_some]
      rw [Nat.add_assoc, Nat.add_assoc]
      exact hmoved (16 + i) (by omega)
    · rw [if_neg hne] at h ⊢
      exact h

theorem length_lt_of_reserveEntries {fuel entry : Nat}
    (h : reserveEntries mem fuel entry = some entries) : entries.length < fuel := by
  induction fuel generalizing entry entries with
  | zero => contradiction
  | succ fuel ih =>
    rw [reserveEntries_cons] at h
    split at h
    · obtain ⟨rest, hrest, rfl⟩ := Option.map_eq_some_iff.mp h
      exact Nat.succ_lt_succ (ih hrest)
    · obtain rfl := Option.some.inj h
      exact Nat.succ_pos fuel

/-- What one call does: the tail of the tree moves, and the new entry is before it. -/
theorem addMemReservation_eq {n : Nat} (h : FdtPlaced mem hdr n) (addr len : Nat)
    (hfits : fdtTotalsize mem hdr + 16 < 2 ^ 32) :
    ∃ mem', addMemReservation hdr addr len mem = .ok mem' ∧ FdtMoved mem mem' hdr 16 ∧
      mem'.bytes (hdr + fdtOffMemRsvmap mem hdr) 8 = beBytes 8 addr ∧
      mem'.bytes (hdr + fdtOffMemRsvmap mem hdr + 8) 8 = beBytes 8 len := by
  have haligned := h.aligned
  have hrsv := h.rsvmapAligned
  have hheader := h.header
  have hstruct := h.structEnd
  have hstrings := h.stringsEnd
  have hbefore := h.beforeStruct
  have hbefore' := h.beforeStrings
  have htotal : fdtTotalsize mem hdr < 2 ^ 32 := fdtField_lt mem hdr 1
  -- the memory after each of the stores
  obtain ⟨off, hoff⟩ : ∃ off, fdtOffMemRsvmap mem hdr = off := ⟨_, rfl⟩
  obtain ⟨mem₁, h₁⟩ : ∃ m, mem.writeBe (hdr + 4 * 1) 4 (fdtTotalsize mem hdr + 16) = m := ⟨_, rfl⟩
  obtain ⟨mem₂, h₂⟩ : ∃ m, mem₁.writeBe (hdr + 4 * 2) 4 (fdtOffDtStruct mem₁ hdr + 16) = m :=
    ⟨_, rfl⟩
  obtain ⟨mem₃, h₃⟩ : ∃ m, mem₂.writeBe (hdr + 4 * 3) 4 (fdtOffDtStrings mem₂ hdr + 16) = m :=
    ⟨_, rfl⟩
  obtain ⟨mem₄, h₄⟩ : ∃ m, mem₃.copy (hdr + off) (hdr + off + 16)
      (fdtTotalsize mem hdr - off) = m :=
    ⟨_, rfl⟩
  obtain ⟨mem₅, h₅⟩ : ∃ m, mem₄.writeBe (hdr + off) 8 addr = m := ⟨_, rfl⟩
  have hsize : (fdtTotalsize mem hdr + 2 ^ 32 - off) % 2 ^ 32 = fdtTotalsize mem hdr - off := by
    omega
  rw [hoff] at hrsv hheader hbefore hbefore' ⊢
  have hstores : addMemReservation hdr addr len mem = .ok (mem₅.writeBe (hdr + off + 8) 8 len) := by
    rw [addMemReservation, hoff, hsize, storeBe_eq _ (by omega), h₁]
    change (mem₁.storeBe (hdr + 4 * 2) 4 _ >>= _) = _
    rw [storeBe_eq _ (by omega), h₂]
    change (mem₂.storeBe (hdr + 4 * 3) 4 _ >>= _) = _
    rw [storeBe_eq _ (by omega), h₃]
    change ((mem₃.copy _ _ _).storeBe (hdr + off) 8 _ >>= _) = _
    rw [h₄, storeBe_eq _ (by omega), h₅]
    exact storeBe_eq _ (by omega)
  refine ⟨_, hstores, ?_, ?_, bytes_writeBe ..⟩
  · -- the copy and the entry are behind the header
    have hfields : ∀ k < 10, fdtField (mem₅.writeBe (hdr + off + 8) 8 len) hdr k =
        fdtField mem₃ hdr k := by
      intro k hk
      rw [writeBe, fdtField_write_of_disjoint (by omega), ← h₅, writeBe,
        fdtField_write_of_disjoint (by omega), ← h₄, copy,
        fdtField_write_of_disjoint (by omega)]
    have hheader' : ∀ a, hdr + 16 ≤ a ∨ a < hdr → mem₃ a = mem a := by
      intro a ha
      rw [← h₃, writeBe, write_of_not_mem (by omega), ← h₂, writeBe,
        write_of_not_mem (by omega), ← h₁, writeBe,
        write_of_not_mem (by omega)]
    have hstruct₁ : fdtOffDtStruct mem₁ hdr = fdtOffDtStruct mem hdr := by
      rw [← h₁]
      exact fdtField_writeBe_of_ne _ (by decide)
    have hstrings₂ : fdtOffDtStrings mem₂ hdr = fdtOffDtStrings mem hdr := by
      rw [← h₂, ← h₁]
      exact (fdtField_writeBe_of_ne _ (by decide)).trans (fdtField_writeBe_of_ne _ (by decide))
    constructor
    · rw [fdtTotalsize, hfields 1 (by decide), ← h₃, fdtField_writeBe_of_ne _ (by decide), ← h₂,
        fdtField_writeBe_of_ne _ (by decide), ← h₁, fdtField_writeBe, Nat.mod_eq_of_lt hfits]
    · rw [fdtOffDtStruct, hfields 2 (by decide), ← h₃, fdtField_writeBe_of_ne _ (by decide), ← h₂,
        fdtField_writeBe, hstruct₁, Nat.mod_eq_of_lt (by omega)]
    · rw [fdtOffDtStrings, hfields 3 (by decide), ← h₃, fdtField_writeBe, hstrings₂,
        Nat.mod_eq_of_lt (by omega)]
    · intro k hk hlt
      rw [hfields k hlt, ← h₃, fdtField_writeBe_of_ne _ (by omega), ← h₂,
        fdtField_writeBe_of_ne _ (by omega), ← h₁, fdtField_writeBe_of_ne _ (by omega)]
    · intro a hlo hhi
      rw [hoff] at hlo
      rw [writeBe, write_of_not_mem (by omega), ← h₅, writeBe,
        write_of_not_mem (by omega), ← h₄, copy,
        write_of_mem (by omega) (by omega), hheader' _ (by omega)]
      congr 1
      omega
    · intro a ha
      rw [writeBe, write_of_not_mem (by omega), ← h₅, writeBe,
        write_of_not_mem (by omega), ← h₄, copy,
        write_of_not_mem (by omega), hheader' _ (by omega)]
  · rw [writeBe, bytes_write_of_disjoint (by omega), ← h₅, bytes_writeBe]

theorem FdtPlaced.moved {mem' : Memory} {n k : Nat} (h : FdtPlaced mem hdr n)
    (hmoved : FdtMoved mem mem' hdr k) : FdtPlaced mem' hdr (n + k) := by
  have hbefore := h.beforeStruct
  have hbefore' := h.beforeStrings
  have hstruct := h.structEnd
  have hstrings := h.stringsEnd
  have hsizeStruct : fdtSizeDtStruct mem' hdr = fdtSizeDtStruct mem hdr :=
    hmoved.fields 9 (by omega) (by decide)
  have hsizeStrings : fdtSizeDtStrings mem' hdr = fdtSizeDtStrings mem hdr :=
    hmoved.fields 8 (by omega) (by decide)
  constructor
  · exact h.aligned
  · rw [hmoved.offMemRsvmap]
    exact h.rsvmapAligned
  · rw [hmoved.offMemRsvmap]
    exact h.header
  · rw [hmoved.offMemRsvmap, hmoved.offDtStruct]
    omega
  · rw [hmoved.offMemRsvmap, hmoved.offDtStrings]
    omega
  · rw [hmoved.offDtStruct, hsizeStruct, hmoved.totalsize]
    omega
  · rw [hmoved.offDtStrings, hsizeStrings, hmoved.totalsize]
    omega

/-- One call puts its entry before the reservations, and the result is laid out like the
tree was. -/
theorem FdtLayout.add (h : FdtLayout mem hdr entries) (hentry : addr ≠ 0 ∨ len ≠ 0)
    (haddr : addr < 2 ^ 64) (hlen : len < 2 ^ 64) (hfits : fdtTotalsize mem hdr + 16 < 2 ^ 32) :
    ∃ mem', addMemReservation hdr addr len mem = .ok mem' ∧ FdtMoved mem mem' hdr 16 ∧
      FdtLayout mem' hdr ((addr, len) :: entries) := by
  obtain ⟨mem', hadd, hmoved, haddress, hsize⟩ := addMemReservation_eq h.toFdtPlaced addr len hfits
  refine ⟨mem', hadd, hmoved, h.toFdtPlaced.moved hmoved, ?_⟩
  have hbefore := h.beforeStruct
  have hstruct := h.structEnd
  have hrest := length_lt_of_reserveEntries h.reservations
  obtain ⟨fuel, hfuel⟩ : ∃ fuel, fdtTotalsize mem' hdr = fuel + 1 :=
    ⟨fdtTotalsize mem hdr + 15, by rw [hmoved.totalsize]⟩
  have haddress' : fromBeBytes (beBytes 8 addr) = addr := by
    rw [fromBeBytes_beBytes]
    exact Nat.mod_eq_of_lt haddr
  have hsize' : fromBeBytes (beBytes 8 len) = len := by
    rw [fromBeBytes_beBytes]
    exact Nat.mod_eq_of_lt hlen
  rw [fdtReservations, hfuel, hmoved.offMemRsvmap, reserveEntries_cons, haddress, hsize, haddress',
    hsize', if_pos hentry, reserveEntries_moved h.reservations ?_ fun i hi => ?_, Option.map_some]
  · have htotal := hmoved.totalsize
    omega
  · have hbyte := hmoved.moved (fdtOffMemRsvmap mem hdr + i) (by omega) (by omega)
    rw [← Nat.add_assoc] at hbyte
    rw [Nat.add_right_comm]
    exact hbyte

end Add

/-! ## A sequence of reservations -/

theorem FdtPlaced.addAll {mem : Memory} {hdr n : Nat} (h : FdtPlaced mem hdr n)
    {calls : List (Nat × Nat)} (hfits : fdtTotalsize mem hdr + 16 * calls.length < 2 ^ 32) :
    ∃ mem', addMemReservations hdr calls mem = .ok mem' ∧
      FdtMoved mem mem' hdr (16 * calls.length) := by
  induction calls generalizing mem n with
  | nil => exact ⟨mem, rfl, .refl mem hdr⟩
  | cons c calls ih =>
    rw [length_cons] at hfits
    obtain ⟨mem₁, hadd, hmoved, -⟩ := addMemReservation_eq h c.1 c.2 (by omega)
    obtain ⟨mem₂, hrest, hmoved'⟩ := ih (h.moved hmoved) (by rw [hmoved.totalsize]; omega)
    refine ⟨mem₂, ?_, ?_⟩
    · rw [addMemReservations, hadd]
      exact hrest
    · have hboth := hmoved.trans hmoved'
      rwa [show 16 + 16 * calls.length = 16 * (calls.length + 1) by omega] at hboth

/-- A sequence of calls puts its entries before the reservations, the last one first. -/
theorem FdtLayout.addAll {mem : Memory} {hdr : Nat} {entries : List (Nat × Nat)}
    (h : FdtLayout mem hdr entries) {calls : List (Nat × Nat)}
    (hcalls : ∀ c ∈ calls, (c.1 ≠ 0 ∨ c.2 ≠ 0) ∧ c.1 < 2 ^ 64 ∧ c.2 < 2 ^ 64)
    (hfits : fdtTotalsize mem hdr + 16 * calls.length < 2 ^ 32) {mem' : Memory}
    (hadd : addMemReservations hdr calls mem = .ok mem') :
    fdtReservations mem' hdr = some (calls.reverse ++ entries) := by
  induction calls generalizing mem entries with
  | nil =>
    cases hadd
    exact h.reservations
  | cons c calls ih =>
    obtain ⟨addr, len⟩ := c
    obtain ⟨hentry, haddr, hlen⟩ := hcalls (addr, len) mem_cons_self
    rw [length_cons] at hfits
    obtain ⟨mem₁, hfirst, hmoved, hlayout⟩ := h.add hentry haddr hlen (by omega)
    rw [addMemReservations, hfirst] at hadd
    rw [reverse_cons, append_assoc]
    exact ih hlayout (fun c hc => hcalls c (mem_cons_of_mem _ hc))
      (by rw [hmoved.totalsize]; omega) hadd

/-! ## Reading the moved tree -/

namespace FdtBlocks

variable (B : FdtBlocks) (n : Nat)

/-- The blocks, with the struct block at another address of the same alignment. -/
def shift : FdtBlocks := { B with addr := B.addr + 4 * n }

theorem align_shift : (B.shift n).align = B.align := by
  funext pos
  have hmod : (B.addr + 4 * n + pos) % fdtTokenAlignment = (B.addr + pos) % fdtTokenAlignment := by
    rw [fdtTokenAlignment]
    omega
  simp only [align, shift, hmod]

theorem bytes_shift : (B.shift n).bytes = B.bytes := by
  funext size pos
  simp only [FdtBlocks.bytes, align_shift]
  rfl

theorem u32_shift : (B.shift n).u32 = B.u32 := by
  funext pos
  simp only [u32, bytes_shift]

theorem token_shift : (B.shift n).token = B.token := by
  have hround : (B.shift n).tokenRound = B.tokenRound := by
    funext pos
    simp only [tokenRound, u32_shift]
  funext pos
  rw [token, hround, token]
  rfl

theorem tokenExpect_shift : (B.shift n).tokenExpect = B.tokenExpect := by
  funext expect pos
  simp only [tokenExpect, token_shift]

theorem nextProperty_shift : (B.shift n).nextProperty = B.nextProperty := by
  funext pos
  simp only [nextProperty, nextPropertyAt, tokenExpect_shift, u32_shift, bytes_shift]
  rfl

theorem nextSubnode_shift : (B.shift n).nextSubnode = B.nextSubnode := by
  have hstr : (B.shift n).str = B.str := by
    funext pos
    simp only [str, align_shift]
    rfl
  funext pos
  simp only [nextSubnode, tokenExpect_shift, hstr]
  rfl

theorem skipProperties_shift : (B.shift n).skipProperties = B.skipProperties := by
  have hround : (B.shift n).skipPropertiesRound = B.skipPropertiesRound := by
    funext pos
    simp only [skipPropertiesRound, nextProperty_shift]
  funext pos
  rw [skipProperties, hround, skipProperties]
  rfl

theorem skipNode_shift : (B.shift n).skipNode = B.skipNode := by
  have hround : (B.shift n).skipNodeRound = B.skipNodeRound := by
    funext s
    obtain ⟨_ | pending, pos⟩ := s
    · rfl
    · simp only [skipNodeRound, nextSubnode_shift, skipProperties_shift, token_shift]
      rfl
  funext pos
  rw [skipNode, hround, skipProperties_shift, skipNode]
  rfl

theorem readProperty_shift : (B.shift n).readProperty = B.readProperty := by
  have hround : (B.shift n).readPropertyRound = B.readPropertyRound := by
    funext name pos
    simp only [readPropertyRound, nextProperty_shift]
  funext name pos
  rw [readProperty, hround, readProperty]
  rfl

theorem findChild_shift : (B.shift n).findChild = B.findChild := by
  have hround : (B.shift n).findChildRound = B.findChildRound := by
    funext name pos
    simp only [findChildRound, nextSubnode_shift, skipNode_shift]
  funext name pos
  simp only [findChild, skipProperties_shift, hround]
  rfl

theorem visit_shift : (B.shift n).visit = B.visit := by
  funext pos op
  cases op with
  | firstChild => simp only [visit, firstChild, skipProperties_shift, nextSubnode_shift]
  | nextSibling => simp only [visit, nextSibling, skipNode_shift, nextSubnode_shift]
  | findChild name => simp only [visit, findChild_shift]

end FdtBlocks

theorem FdtMoved.newRoot {mem mem' : Memory} {hdr n size : Nat}
    (h : FdtMoved mem mem' hdr (4 * n)) (hlayout : FdtPlaced mem hdr size) :
    fdtNewRoot mem' hdr = (fdtNewRoot mem hdr).map fun B => B.shift n := by
  have hsizeStruct : fdtSizeDtStruct mem' hdr = fdtSizeDtStruct mem hdr :=
    h.fields 9 (by omega) (by decide)
  have hsizeStrings : fdtSizeDtStrings mem' hdr = fdtSizeDtStrings mem hdr :=
    h.fields 8 (by omega) (by decide)
  have hbefore := hlayout.beforeStruct
  have hbefore' := hlayout.beforeStrings
  rw [fdtNewRoot, fdtNewRoot, h.fields 0 (by omega) (by decide), h.fields 5 (by omega) (by decide),
    h.fields 6 (by omega) (by decide), h.offDtStruct, h.offDtStrings, hsizeStruct, hsizeStrings]
  dsimp only
  rw [h.bytes_eq (by omega) hlayout.structEnd, h.bytes_eq (by omega) hlayout.stringsEnd]
  split
  · rfl
  · split
    · rfl
    · rw [Option.map_some, FdtBlocks.shift, Nat.add_assoc]

/-- Any number of reservations that fit leave the device tree intact: they are read before
the original ones, the last one first; the other blocks have moved with their offsets, and
every node and every property is read as before. -/
theorem reservations_intact {mem : Memory} {hdr : Nat} {entries : List (Nat × Nat)}
    (h : FdtLayout mem hdr entries) (calls : List (Nat × Nat))
    (hcalls : ∀ c ∈ calls, (c.1 ≠ 0 ∨ c.2 ≠ 0) ∧ c.1 < 2 ^ 64 ∧ c.2 < 2 ^ 64)
    (hfits : fdtTotalsize mem hdr + 16 * calls.length < 2 ^ 32) :
    ∃ mem', addMemReservations hdr calls mem = .ok mem' ∧
      fdtReservations mem' hdr = some (calls.reverse ++ entries) ∧
      fdtTotalsize mem' hdr = fdtTotalsize mem hdr + 16 * calls.length ∧
      mem'.bytes (hdr + fdtOffDtStruct mem' hdr) (fdtSizeDtStruct mem' hdr) =
        mem.bytes (hdr + fdtOffDtStruct mem hdr) (fdtSizeDtStruct mem hdr) ∧
      mem'.bytes (hdr + fdtOffDtStrings mem' hdr) (fdtSizeDtStrings mem' hdr) =
        mem.bytes (hdr + fdtOffDtStrings mem hdr) (fdtSizeDtStrings mem hdr) ∧
      (∀ B, fdtNewRoot mem hdr = some B → ∃ B', fdtNewRoot mem' hdr = some B' ∧
        B'.visit = B.visit ∧ B'.readProperty = B.readProperty) ∧
      ∀ a, a < hdr ∨ hdr + fdtTotalsize mem hdr + 16 * calls.length ≤ a → mem' a = mem a := by
  obtain ⟨mem', hcall, hmoved⟩ := h.toFdtPlaced.addAll hfits
  have hreservations := h.addAll hcalls hfits hcall
  have hsizeStruct : fdtSizeDtStruct mem' hdr = fdtSizeDtStruct mem hdr :=
    hmoved.fields 9 (by omega) (by decide)
  have hsizeStrings : fdtSizeDtStrings mem' hdr = fdtSizeDtStrings mem hdr :=
    hmoved.fields 8 (by omega) (by decide)
  have hbefore := h.beforeStruct
  have hbefore' := h.beforeStrings
  refine ⟨mem', hcall, hreservations, hmoved.totalsize, ?_, ?_, ?_, hmoved.frame⟩
  · rw [hmoved.offDtStruct, hsizeStruct]
    exact hmoved.bytes_eq (by omega) h.structEnd
  · rw [hmoved.offDtStrings, hsizeStrings]
    exact hmoved.bytes_eq (by omega) h.stringsEnd
  · intro B hB
    rw [show 16 * calls.length = 4 * (4 * calls.length) by omega] at hmoved
    refine ⟨B.shift (4 * calls.length), ?_, B.visit_shift _, B.readProperty_shift _⟩
    rw [hmoved.newRoot h.toFdtPlaced, hB, Option.map_some]

/-! ## An example -/

/-- A root with a node `chosen`, which has a short and a long number for the ramdisk. -/
def initrdTree : DtNode :=
  .node [] [] [.node (ascii "chosen") [(ascii "linux,initrd-start", beBytes 4 0),
    (ascii "linux,initrd-end", beBytes 8 0)] []]

/-- The tree, with a reservation. -/
def initrdBlob : List Byte :=
  let strs := asciz "linux,initrd-start" ++ asciz "linux,initrd-end"
  let block := flatten (fun name => if name = ascii "linux,initrd-end" then 19 else 0) (fun _ => 0)
    initrdTree
  let rsvmap := [0x1000, 0x100, 0, 0].flatMap (beBytes 8)
  let header := [fdtMagic, 72 + block.length + strs.length, 72, 72 + block.length, 40, 17, 16, 0,
    strs.length, block.length]
  header.flatMap toBeBytes ++ rsvmap ++ block ++ strs

def initrdFdt : Memory := fun a => initrdBlob.getD a 0

theorem layout_initrdFdt : FdtLayout initrdFdt 0 [(0x1000, 0x100)] where
  aligned := rfl
  rsvmapAligned := by decide +kernel
  header := by decide +kernel
  reservations := by decide +kernel
  beforeStruct := by decide +kernel
  beforeStrings := by decide +kernel
  structEnd := by decide +kernel
  stringsEnd := by decide +kernel

theorem reservations_intact_initrd :
    ∃ mem', addMemReservations 0 [(0x8000, 0x200), (0, 0x40)] initrdFdt = .ok mem' ∧
      fdtReservations mem' 0 = some [(0, 0x40), (0x8000, 0x200), (0x1000, 0x100)] := by
  obtain ⟨mem', hcalls, hreservations, -⟩ := reservations_intact layout_initrdFdt
    [(0x8000, 0x200), (0, 0x40)] (by decide) (by decide +kernel)
  exact ⟨mem', hcalls, hreservations⟩

end Hafnium
