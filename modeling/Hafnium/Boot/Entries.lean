import Hafnium.Boot.Cpio

/-!
# Entries and searches

An entry as it is written into memory is read back, and a search goes from entry to
entry until it finds a name or the end.  Where in memory the entries lie does not matter.
-/

namespace Hafnium

open List CpioFile MemIter

namespace Memory

/-- Memory has bytes at an address. -/
def HasAt (mem : Memory) (a : Nat) (bytes : List Byte) : Prop := mem.bytes a bytes.length = bytes

/-- Memory has a terminated string at an address. -/
def Named (mem : Memory) (a : Nat) (name : List Byte) : Prop := mem.HasAt a (name ++ [0])

instance (mem : Memory) (a : Nat) (bytes : List Byte) : Decidable (mem.HasAt a bytes) :=
  inferInstanceAs (Decidable (_ = _))

instance (mem : Memory) (a : Nat) (name : List Byte) : Decidable (mem.Named a name) :=
  inferInstanceAs (Decidable (mem.HasAt a (name ++ [0])))

variable {mem : Memory} {a : Nat}

theorem bytes_add (mem : Memory) (a m n : Nat) :
    mem.bytes a (m + n) = mem.bytes a m ++ mem.bytes (a + m) n := by
  simp only [bytes, range_add, map_append, map_map, Function.comp_def, Nat.add_assoc]

theorem hasAt_append {xs ys : List Byte} :
    mem.HasAt a (xs ++ ys) ↔ mem.HasAt a xs ∧ mem.HasAt (a + xs.length) ys := by
  rw [HasAt, HasAt, HasAt, length_append, bytes_add]
  constructor
  · intro h
    exact append_inj h (length_bytes _ _ _)
  · rintro ⟨hx, hy⟩
    rw [hx, hy]

theorem HasAt.get {bytes : List Byte} (h : mem.HasAt a bytes) {i : Nat} (hi : i < bytes.length) :
    mem (a + i) = bytes[i] := by
  have hget := getElem_of_eq h (by rw [length_bytes]; exact hi)
  rw [← hget]
  simp [Memory.bytes]

theorem Named.eq {n m : List Byte} (hn : 0 ∉ n) (hm : 0 ∉ m) (h : mem.Named a n)
    (h' : mem.Named a m) : n = m := by
  have hle : ∀ {n m : List Byte}, 0 ∉ n → mem.Named a n → mem.Named a m → n.length ≤ m.length := by
    intro n m hn h h'
    apply Nat.le_of_not_lt
    intro hlt
    apply hn
    have hend : mem (a + m.length) = 0 := by
      rw [h'.get (by simp)]
      simp
    rw [h.get (show m.length < (n ++ [0]).length by simp; omega), getElem_append_left hlt] at hend
    rw [← hend]
    exact getElem_mem _
  have hlen := Nat.le_antisymm (hle hn h h') (hle hm h' h)
  rw [Named, HasAt, length_append, hlen] at h
  rw [Named, HasAt, length_append] at h'
  exact append_cancel_right (h.symm.trans h')

end Memory

/-! ## Comparisons of names -/

theorem strcmp_swap (a b : List Byte) : strcmp b a = (strcmp a b).map (- ·) := by
  induction a generalizing b with
  | nil =>
    cases b with
    | nil => rfl
    | cons => rfl
  | cons x a ih =>
    cases b with
    | nil => rfl
    | cons y b =>
      rw [strcmp, strcmp]
      by_cases h : x ≠ 0 ∧ y ≠ 0
      · rw [if_pos h, if_pos h.symm]
        by_cases hxy : x = y
        · rw [if_neg (not_not.mpr hxy), if_neg (not_not.mpr hxy.symm), ih]
        · rw [if_pos hxy, if_pos (Ne.symm hxy), Option.map_some, Int.neg_sub]
      · rw [if_neg h, if_neg (mt And.symm h), Option.map_some, Int.neg_sub]

theorem strcmp_eq_zero_iff {name bytes : List Byte} (hname : 0 ∉ name)
    (hlen : bytes.length = name.length + 1) :
    strcmp bytes (name ++ [0]) = some 0 ↔ bytes = name ++ [0] := by
  constructor
  · intro h
    obtain ⟨rest, rfl⟩ := strcmp_eq_zero hname h
    rw [length_append, length_cons, Nat.add_left_cancel_iff] at hlen
    rw [eq_nil_of_length_eq_zero (Nat.succ.inj hlen)]
  · rintro rfl
    obtain ⟨v, hv, hzero⟩ := strcmp_append_zero hname hname []
    rw [hv, hzero.mpr rfl]

section

variable {mem : Memory} {name : List Byte} {p : Nat}

theorem strcmp_memory_iff (hname : 0 ∉ name) :
    strcmp (mem.bytes p (name.length + 1)) (name ++ [0]) = some 0 ↔ mem.Named p name := by
  rw [strcmp_eq_zero_iff hname (mem.length_bytes _ _), Memory.Named, Memory.HasAt,
    length_append, length_singleton]

/-- `find_file` compares names. -/
theorem strcmp_filename_iff (hname : 0 ∉ name) :
    strcmp (name ++ [0]) (mem.bytes p (name.length + 1)) = some 0 ↔ mem.Named p name := by
  rw [strcmp_swap, Option.map_eq_some_iff, ← strcmp_memory_iff hname]
  constructor
  · rintro ⟨v, hv, h0⟩
    rw [hv, show v = 0 by omega]
  · intro h
    exact ⟨0, h, rfl⟩

theorem iseq_iff (hname : 0 ∉ name) : iseq mem name p = true ↔ mem.Named p name := by
  have hsplit : mem.bytes p (name.length + 1) =
      mem.bytes p name.length ++ [mem (p + name.length)] :=
    mem.bytes_add p name.length 1
  rw [iseq, Memory.Named, Memory.HasAt, length_append, length_singleton, Bool.and_eq_true,
    decide_eq_true_eq, beq_iff_eq]
  constructor
  · rintro ⟨hlen, hbytes⟩
    rw [hlen] at hbytes
    rw [hsplit, ← hbytes, cstr, takeWhile_append_of_pos] at hlen
    · by_cases hend : mem (p + name.length) = 0
      · rw [hsplit, ← hbytes, hend]
      · have hone : [mem (p + name.length)].takeWhile (fun x => decide (x ≠ 0)) =
            [mem (p + name.length)] := takeWhile_cons_of_pos (decide_eq_true hend)
        rw [hone] at hlen
        simp at hlen
    · intro x hx
      exact decide_eq_true fun h0 => hname (h0 ▸ hx)
  · intro h
    have hbytes := (append_inj (hsplit.symm.trans h) (mem.length_bytes _ _)).1
    have hcstr : cstr (mem.bytes p (name.length + 1)) = name := by
      rw [h, cstr_append_zero hname]
    rw [hcstr]
    exact ⟨rfl, hbytes.symm⟩

end

/-! ## One entry -/

section Entry

variable (mem : Memory) (a : Nat)

/-- Where the contents of the entry at an address start, for the reader. -/
def contentsAt : Nat := a + cpioHeaderSize + cpioNameLen (cpioField mem a 20)

def sizeAt : Nat := cpioField mem a 22 * 2 ^ 16 + cpioField mem a 24

/-- Where the next entry starts, for the reader. -/
def nextAt : Nat := contentsAt mem a + (sizeAt mem a + 1) / 2 * 2

theorem fromLeBytes_two (x y : Byte) : fromLeBytes [x, y] = x.toNat + 256 * y.toNat := by
  simp [fromLeBytes]

theorem cpioField_eq (offset : Nat) :
    cpioField mem a offset = (mem (a + offset)).toNat + 256 * (mem (a + offset + 1)).toNat :=
  fromLeBytes_two _ _

theorem cpioField_lt (offset : Nat) : cpioField mem a offset < 2 ^ 16 := by
  have h := (mem (a + offset)).isLt
  have h' := (mem (a + offset + 1)).isLt
  rw [cpioField_eq]
  omega

theorem MemIter.read_eq {a limit v : Nat} (hlimit : limit < 2 ^ 64) (ha : a ≤ limit)
    (hv : v < 2 ^ 64) :
    (mk a limit).read v = if a + v ≤ limit then some (a, ⟨a + v, limit⟩) else none := by
  rw [read, advance]
  show Option.map _ (if a ≤ (a + v) % 2 ^ 64 ∧ (a + v) % 2 ^ 64 ≤ limit then
    some (mk ((a + v) % 2 ^ 64) limit) else none) = _
  by_cases h : a + v ≤ limit
  · rw [Nat.mod_eq_of_lt (by omega), if_pos h, if_pos ⟨by omega, h⟩]
    rfl
  · rw [if_neg h, if_neg]
    · rfl
    · -- an address that wraps around is below the start
      rintro ⟨hle, hle'⟩
      omega

theorem zero_notMem_cpioTrailer (after : List Byte) : 0 ∉ cpioTrailer after := by
  rw [cpioTrailer, mem_append]
  exact not_or.mpr ⟨by decide, zero_notMem_cstr after⟩

/-- What `parse_cpio` reads at an address. -/
theorem parseCpio_eq (after : List Byte) {limit : Nat} (hlimit : limit < 2 ^ 64) (ha : a ≤ limit) :
    parseCpio after mem ⟨a, limit⟩ =
      if nextAt mem a ≤ limit ∧ ¬mem.Named (a + cpioHeaderSize) (cpioTrailer after) then
        some (⟨a + cpioHeaderSize, contentsAt mem a, sizeAt mem a⟩, ⟨nextAt mem a, limit⟩)
      else none := by
  have hsize : sizeAt mem a < 2 ^ 32 := by
    have h := cpioField_lt mem a 22
    have h' := cpioField_lt mem a 24
    rw [sizeAt]
    omega
  have hname : cpioNameLen (cpioField mem a 20) < 2 ^ 16 := by
    rw [cpioNameLen]
    omega
  have hnext : nextAt mem a =
      a + cpioHeaderSize + cpioNameLen (cpioField mem a 20) + (sizeAt mem a + 1) / 2 * 2 := rfl
  simp only [parseCpio, Option.bind_eq_bind]
  rw [read_eq hlimit ha (by decide)]
  by_cases h₁ : a + cpioHeaderSize ≤ limit
  swap
  · rw [if_neg h₁, if_neg (by omega)]
    rfl
  rw [if_pos h₁, Option.bind_some]
  dsimp only
  rw [read_eq hlimit h₁ (by omega)]
  by_cases h₂ : a + cpioHeaderSize + cpioNameLen (cpioField mem a 20) ≤ limit
  swap
  · rw [if_neg h₂, if_neg (by omega)]
    rfl
  rw [if_pos h₂, Option.bind_some]
  dsimp only
  rw [← sizeAt, read_eq hlimit h₂ (by omega), ← hnext]
  by_cases h₃ : nextAt mem a ≤ limit
  swap
  · rw [if_neg h₃, if_neg (fun h => h₃ h.1)]
    rfl
  rw [if_pos h₃, Option.bind_some]
  dsimp only
  have htrailer := zero_notMem_cpioTrailer after
  by_cases h₄ : mem.Named (a + cpioHeaderSize) (cpioTrailer after)
  · rw [if_pos ((strcmp_memory_iff htrailer).mpr h₄), if_neg (fun h => h.2 h₄)]
  · rw [if_neg (mt (strcmp_memory_iff htrailer).mp h₄), if_pos ⟨h₃, h₄⟩]
    rfl

end Entry

namespace CpioFile

variable (file : CpioFile)

theorem length_padEven (bytes : List Byte) :
    (padEven bytes).length = (bytes.length + 1) / 2 * 2 := by
  rw [padEven, length_append, length_replicate]
  omega

theorem length_toLe16 (n : Nat) : (toLe16 n).length = 2 := rfl

theorem length_encode : file.encode.length =
    cpioHeaderSize + (file.name.length + 2) / 2 * 2 + (file.contents.length + 1) / 2 * 2 := by
  simp only [encode, length_append, length_padEven, length_toLe16, length_singleton,
    file.fields_length, cpioHeaderSize]

variable {file} {mem : Memory} {a : Nat}

/-- What stands in memory where a file of an archive is. -/
theorem fields_of_hasAt (h : mem.HasAt a file.encode) :
    cpioField mem a 20 = file.name.length + 1 ∧ sizeAt mem a = file.contents.length ∧
      mem.Named (a + cpioHeaderSize) file.name ∧
      mem.HasAt (a + cpioHeaderSize + (file.name.length + 2) / 2 * 2) (padEven file.contents) := by
  have hle16 : ∀ {offset n : Nat}, n < 2 ^ 16 → mem.HasAt (a + offset) (toLe16 n) →
      cpioField mem a offset = n := by
    intro offset n hn h
    rw [cpioField, show mem.bytes (a + offset) 2 = toLe16 n from h, toLe16, fromLeBytes_two,
      BitVec.toNat_ofNat, BitVec.toNat_ofNat]
    omega
  have hname := file.namesize_lt
  have hsize := file.size_lt
  simp only [encode, Memory.hasAt_append, length_append, file.fields_length,
    length_padEven, length_toLe16, length_singleton] at h
  obtain ⟨⟨⟨⟨⟨-, hfield⟩, hhigh⟩, hlow⟩, hpad⟩, hcontents⟩ := h
  rw [← Nat.add_assoc a] at hcontents
  refine ⟨hle16 hname hfield, ?_, ?_, hcontents⟩
  · have hhigh' : cpioField mem a 22 = file.contents.length / 2 ^ 16 := hle16 (by omega) hhigh
    have hlow' : cpioField mem a 24 = file.contents.length % 2 ^ 16 := hle16 (by omega) hlow
    rw [sizeAt, hhigh', hlow']
    omega
  · rw [padEven, Memory.hasAt_append] at hpad
    exact hpad.1

theorem named_iff (h : mem.HasAt a file.encode) {name : List Byte} (hname : 0 ∉ name) :
    mem.Named (a + cpioHeaderSize) name ↔ file.name = name := by
  have hfile := (fields_of_hasAt h).2.2.1
  constructor
  · intro hnamed
    exact hfile.eq file.zero_notMem_name hname hnamed
  · rintro rfl
    exact hfile

/-- The reader passes over a file, unless the size of its name has 16 ones. -/
theorem nextAt_of_hasAt (h : mem.HasAt a file.encode) (hname : file.name.length + 2 ≠ 2 ^ 16) :
    contentsAt mem a = a + cpioHeaderSize + (file.name.length + 2) / 2 * 2 ∧
      nextAt mem a = a + file.encode.length := by
  obtain ⟨hfield, hsize, -⟩ := fields_of_hasAt h
  have hlt := file.namesize_lt
  have hcontents : contentsAt mem a = a + cpioHeaderSize + (file.name.length + 2) / 2 * 2 := by
    rw [contentsAt, hfield, cpioNameLen]
    omega
  constructor
  · exact hcontents
  · rw [nextAt, hcontents, hsize, length_encode]
    omega

theorem nextAt_of_longest (h : mem.HasAt a file.encode) (hname : file.name.length + 2 = 2 ^ 16) :
    contentsAt mem a = a + cpioHeaderSize ∧
      nextAt mem a = a + cpioHeaderSize + (file.contents.length + 1) / 2 * 2 := by
  obtain ⟨hfield, hsize, -⟩ := fields_of_hasAt h
  have hcontents : contentsAt mem a = a + cpioHeaderSize := by
    rw [contentsAt, hfield, cpioNameLen]
    omega
  rw [nextAt, hcontents, hsize]
  exact ⟨rfl, rfl⟩

end CpioFile

/-! ## Searches -/

section Search

variable (after : List Byte) (mem : Memory)

/-- The loop of a search, from an iterator to what is returned. -/
inductive Search (test : CpioResult → Bool) : MemIter → Option MemIter → Prop
  | stop {it : MemIter} (h : parseCpio after mem it = none) : Search test it none
  | found {it it' : MemIter} {result : CpioResult}
      (h : parseCpio after mem it = some (result, it')) (htest : test result = true) :
      Search test it (some (.fromRaw result.contents result.size))
  | next {it it' : MemIter} {result : CpioResult} {found : Option MemIter}
      (h : parseCpio after mem it = some (result, it')) (htest : test result = false)
      (hrest : Search test it' found) : Search test it found

/-- The entries that the loop comes to. -/
inductive Reads : MemIter → CpioResult → Prop
  | here {it it' : MemIter} {result : CpioResult}
      (h : parseCpio after mem it = some (result, it')) : Reads it result
  | later {it it' : MemIter} {result result' : CpioResult}
      (h : parseCpio after mem it = some (result, it')) (hrest : Reads it' result') :
      Reads it result'

variable {after mem} {test : CpioResult → Bool}

/-- A search ends, and returns what the fuelled loop returns. -/
theorem search_findFrom {fuel : Nat} {it : MemIter} (hfuel : it.len < fuel) :
    Search after mem test it (findFrom after mem test fuel it) := by
  induction fuel generalizing it with
  | zero => exact absurd hfuel (Nat.not_lt_zero _)
  | succ fuel ih =>
    rw [findFrom]
    split
    · rename_i h
      exact .stop h
    · rename_i result it' h
      have hlt := parseCpio_lt after mem h
      cases htest : test result with
      | true => exact .found h htest
      | false => exact .next h htest (ih (by omega))

theorem search_findFileMemiter (after : List Byte) (mem : Memory) (cpio : MemIter)
    (filename : List Byte) :
    Search after mem (fun result => iseq mem filename result.name) cpio
      (findFileMemiter after mem cpio filename) :=
  search_findFrom (Nat.lt_succ_self _)

theorem search_findFile (after : List Byte) (mem : Memory) (cpio : MemIter) (filename : List Byte) :
    Search after mem (fun result => strcmp (filename ++ [0])
        (mem.bytes result.name (filename.length + 1)) = some 0) cpio
      (findFile after mem cpio filename) :=
  search_findFrom (Nat.lt_succ_self _)

theorem Search.unique {it : MemIter} {found found' : Option MemIter}
    (h : Search after mem test it found) (h' : Search after mem test it found') :
    found = found' := by
  induction h with
  | stop hparse =>
    cases h' with
    | stop => rfl
    | found hparse' => cases hparse.symm.trans hparse'
    | next hparse' => cases hparse.symm.trans hparse'
  | found hparse htest =>
    cases h' with
    | stop hparse' => cases hparse.symm.trans hparse'
    | found hparse' =>
      cases hparse.symm.trans hparse'
      rfl
    | next hparse' htest' =>
      cases hparse.symm.trans hparse'
      cases htest.symm.trans htest'
  | next hparse htest hrest ih =>
    cases h' with
    | stop hparse' => cases hparse.symm.trans hparse'
    | found hparse' htest' =>
      cases hparse.symm.trans hparse'
      cases htest.symm.trans htest'
    | next hparse' htest' hrest' =>
      cases hparse.symm.trans hparse'
      exact ih hrest'

theorem Search.isSome_iff {it : MemIter} {found : Option MemIter}
    (h : Search after mem test it found) :
    found.isSome ↔ ∃ result, Reads after mem it result ∧ test result = true := by
  induction h with
  | stop hparse =>
    apply iff_of_false nofun
    rintro ⟨result, hread, -⟩
    cases hread with
    | here hparse' => cases hparse.symm.trans hparse'
    | later hparse' => cases hparse.symm.trans hparse'
  | found hparse htest => exact iff_of_true rfl ⟨_, .here hparse, htest⟩
  | next hparse htest hrest ih =>
    rw [ih]
    constructor
    · rintro ⟨result, hread, hresult⟩
      exact ⟨result, .later hparse hread, hresult⟩
    · rintro ⟨result, hread, hresult⟩
      cases hread with
      | here hparse' =>
        cases hparse.symm.trans hparse'
        cases htest.symm.trans hresult
      | later hparse' hread =>
        cases hparse.symm.trans hparse'
        exact ⟨result, hread, hresult⟩

end Search

/-! ### Searches elsewhere in memory -/

section Shift

variable {mem tail : Memory} {d : Nat} (h : ∀ i, mem (d + i) = tail i)

include h

theorem bytes_shift (a n : Nat) : mem.bytes (d + a) n = tail.bytes a n := by
  simp only [Memory.bytes, Nat.add_assoc, h]

theorem named_shift (a : Nat) (name : List Byte) : mem.Named (d + a) name ↔ tail.Named a name := by
  rw [Memory.Named, Memory.Named, Memory.HasAt, Memory.HasAt, bytes_shift h]

theorem cpioField_shift (a offset : Nat) :
    cpioField mem (d + a) offset = cpioField tail a offset := by
  rw [cpioField, cpioField, Nat.add_assoc, bytes_shift h]

theorem contentsAt_shift (a : Nat) : contentsAt mem (d + a) = d + contentsAt tail a := by
  rw [contentsAt, contentsAt, cpioField_shift h]
  omega

theorem sizeAt_shift (a : Nat) : sizeAt mem (d + a) = sizeAt tail a := by
  rw [sizeAt, sizeAt, cpioField_shift h, cpioField_shift h]

theorem nextAt_shift (a : Nat) : nextAt mem (d + a) = d + nextAt tail a := by
  rw [nextAt, nextAt, contentsAt_shift h, sizeAt_shift h]
  omega

theorem parseCpio_shift (after : List Byte) {a limit : Nat} (ha : a ≤ limit)
    (hlimit : d + limit < 2 ^ 64) :
    parseCpio after mem ⟨d + a, d + limit⟩ =
      (parseCpio after tail ⟨a, limit⟩).map fun (result, it) =>
        (⟨d + result.name, d + result.contents, result.size⟩, ⟨d + it.next, d + it.limit⟩) := by
  rw [parseCpio_eq _ _ _ hlimit (by omega), parseCpio_eq _ _ _ (by omega) ha, nextAt_shift h,
    contentsAt_shift h, sizeAt_shift h, Nat.add_assoc d a]
  have hnamed := named_shift h (a + cpioHeaderSize) (cpioTrailer after)
  by_cases hread : nextAt tail a ≤ limit ∧ ¬tail.Named (a + cpioHeaderSize) (cpioTrailer after)
  · rw [if_pos hread, if_pos ⟨by omega, mt hnamed.mp hread.2⟩]
    rfl
  · rw [if_neg hread, if_neg (fun hread' => hread ⟨by omega, mt hnamed.mpr hread'.2⟩)]
    rfl

theorem search_shift {after name : List Byte} {a limit : Nat} {found : Option MemIter}
    {test : CpioResult → Bool} (htest : ∀ result, test result = true ↔ mem.Named result.name name)
    (ha : a ≤ limit) (hlimit : d + limit < 2 ^ 64)
    (hsearch : Search after tail (fun result => decide (tail.Named result.name name)) ⟨a, limit⟩
      found) :
    Search after mem test ⟨d + a, d + limit⟩
      (found.map fun it => ⟨d + it.next, d + it.limit⟩) := by
  generalize hit : mk a limit = it at hsearch
  induction hsearch generalizing a with
  | stop hparse =>
    subst hit
    apply Search.stop
    rw [parseCpio_shift h after ha hlimit, hparse]
    rfl
  | @found _ it' result hparse hresult =>
    subst hit
    have hparse' := parseCpio_shift h after ha hlimit
    rw [hparse] at hparse'
    have hfound := Search.found hparse' ((htest _).mpr
      ((named_shift h _ _).mpr (of_decide_eq_true hresult)))
    rw [Option.map_some]
    rw [fromRaw] at hfound ⊢
    rwa [Nat.add_assoc] at hfound
  | @next _ it' result _ hparse hresult hrest ih =>
    subst hit
    have hparse' := parseCpio_shift h after ha hlimit
    rw [hparse] at hparse'
    obtain ⟨a', limit'⟩ := it'
    rw [parseCpio_eq _ _ _ (by omega) ha, Option.ite_none_right_eq_some] at hparse
    obtain ⟨⟨hle, -⟩, heq⟩ := hparse
    cases heq
    apply Search.next hparse'
    · apply Bool.eq_false_iff.mpr
      rw [Ne, htest, named_shift h]
      exact of_decide_eq_false hresult
    · exact ih hle rfl

end Shift

end Hafnium
