import Hafnium.Boot.Manifest

/-!
# Archives

`cpio.rs` and the memory iterators it works on.  An archive is a range of memory; its
files follow one another, each with a header, a name and the contents.
-/

namespace Hafnium

open Option

/-- The number that little-endian bytes stand for. -/
def fromLeBytes (bytes : List Byte) : Nat := bytes.foldr (fun b v => b.toNat + 256 * v) 0

/-- A range of memory that is read from its start. -/
structure MemIter where
  next : Nat
  limit : Nat
  deriving DecidableEq, Repr

namespace MemIter

def fromRaw (data size : Nat) : MemIter := ⟨data, data + size⟩

def len (it : MemIter) : Nat := it.limit - it.next

def advance (it : MemIter) (v : Nat) : Option MemIter :=
  let p := (it.next + v) % 2 ^ 64
  if it.next ≤ p ∧ p ≤ it.limit then some { it with next := p } else none

/-- The address of the next bytes, and the iterator after them. -/
def read (it : MemIter) (v : Nat) : Option (Nat × MemIter) :=
  (it.advance v).map fun it' => (it.next, it')

theorem advance_eq_some {it it' : MemIter} {v : Nat} (h : it.advance v = some it') :
    it'.limit = it.limit ∧ it.next ≤ it'.next ∧ it'.next ≤ it.limit ∧
      it'.next = (it.next + v) % 2 ^ 64 := by
  simp only [advance, ite_none_right_eq_some, some.injEq] at h
  obtain ⟨⟨hle, hlimit⟩, rfl⟩ := h
  exact ⟨rfl, hle, hlimit, rfl⟩

theorem read_eq_some {it it' : MemIter} {v a : Nat} (h : it.read v = some (a, it')) :
    a = it.next ∧ it'.limit = it.limit ∧ it.next ≤ it'.next ∧ it'.next ≤ it.limit ∧
      it'.next = (it.next + v) % 2 ^ 64 := by
  obtain ⟨it'', hadv, heq⟩ := map_eq_some_iff.mp h
  obtain ⟨rfl, rfl⟩ := Prod.mk.inj heq
  exact ⟨rfl, advance_eq_some hadv⟩

end MemIter

/-- `size_of::<CpioHeader>()`. -/
def cpioHeaderSize : Nat := 26

structure CpioResult where
  name : Nat
  contents : Nat
  size : Nat
  deriving DecidableEq, Repr

/-- What `strcmp` finds at the name of the end marker.  The literal has no terminator,
so that it goes on with the bytes after it in the image, up to the first zero. -/
def cpioTrailer (after : List Byte) : List Byte := ascii "TRAILER!!!\n" ++ cstr after

section Archive

variable (after : List Byte) (mem : Memory)

/-- A 16-bit field of the header at an address. -/
def cpioField (hdr offset : Nat) : Nat := fromLeBytes (mem.bytes (hdr + offset) 2)

/-- A length rounded up to an even number, in 16 bits for a name. -/
def cpioNameLen (namesize : Nat) : Nat := (namesize + 1) % 2 ^ 16 / 2 * 2

/-- The next file, and the iterator after it. -/
def parseCpio (it : MemIter) : Option (CpioResult × MemIter) := do
  let (header, it) ← it.read cpioHeaderSize
  let (name, it) ← it.read (cpioNameLen (cpioField mem header 20))
  let contentsLen := cpioField mem header 22 * 2 ^ 16 + cpioField mem header 24
  let (contents, it) ← it.read ((contentsLen + 1) / 2 * 2)
  let trailer := cpioTrailer after
  if strcmp (mem.bytes name (trailer.length + 1)) (trailer ++ [0]) = some 0 then none
  else some (⟨name, contents, contentsLen⟩, it)

/-- The contents of the first file that passes a test.  Every round takes at least a
header from the iterator. -/
def findFrom (test : CpioResult → Bool) : Nat → MemIter → Option MemIter
  | 0, _ => none
  | fuel + 1, it =>
    match parseCpio after mem it with
    | none => none
    | some (result, it) =>
      if test result then some (.fromRaw result.contents result.size)
      else findFrom test fuel it

/-- `MemIter::iseq`, for an iterator over `filename`. -/
def iseq (filename : List Byte) (str : Nat) : Bool :=
  let len := (cstr (mem.bytes str (filename.length + 1))).length
  len = filename.length && filename == mem.bytes str len

/-- A file by its name, which is not terminated. -/
def findFileMemiter (cpio : MemIter) (filename : List Byte) : Option MemIter :=
  findFrom after mem (fun result => iseq mem filename result.name) (cpio.len + 1) cpio

/-- A file by its name, which is terminated in memory. -/
def findFile (cpio : MemIter) (filename : List Byte) : Option MemIter :=
  findFrom after mem (fun result =>
    strcmp (filename ++ [0]) (mem.bytes result.name (filename.length + 1)) = some 0)
    (cpio.len + 1) cpio

/-- Every file that is read leaves less to read. -/
theorem parseCpio_lt {it it' : MemIter} {result : CpioResult}
    (h : parseCpio after mem it = some (result, it')) : it'.len < it.len := by
  simp only [parseCpio, bind_eq_bind, bind_eq_some_iff, Prod.exists] at h
  obtain ⟨header, it₁, hheader, name, it₂, hname, contents, it₃, hcontents, h⟩ := h
  obtain ⟨-, hlimit₁, hle₁, hnext₁, hadv⟩ := MemIter.read_eq_some hheader
  obtain ⟨-, hlimit₂, hle₂, -⟩ := MemIter.read_eq_some hname
  obtain ⟨-, hlimit₃, hle₃, hnext₃, -⟩ := MemIter.read_eq_some hcontents
  simp only [ite_none_left_eq_some, some.injEq, Prod.mk.injEq] at h
  obtain ⟨-, -, rfl⟩ := h
  -- the header alone moves the iterator, since it cannot wrap around
  have hheader : it.next < it₁.next := by
    rw [cpioHeaderSize] at hadv
    omega
  rw [MemIter.len, MemIter.len]
  omega

end Archive

/-! ## What an archive looks like -/

/-- The two bytes of a 16-bit field. -/
def toLe16 (n : Nat) : List Byte := [.ofNat 8 n, .ofNat 8 (n / 256)]

/-- Bytes, padded to an even number. -/
def padEven (bytes : List Byte) : List Byte := bytes ++ List.replicate (bytes.length % 2) 0

/-- A file in an archive in the old binary format.  The fields of the header before the
size of the name are not read. -/
structure CpioFile where
  fields : List Byte
  name : List Byte
  contents : List Byte
  fields_length : fields.length = 20
  zero_notMem_name : 0 ∉ name
  namesize_lt : name.length + 1 < 2 ^ 16
  size_lt : contents.length < 2 ^ 32

/-- The header, the name with its terminator, and the contents. -/
def CpioFile.encode (file : CpioFile) : List Byte :=
  file.fields ++ toLe16 (file.name.length + 1) ++ toLe16 (file.contents.length / 2 ^ 16) ++
    toLe16 (file.contents.length % 2 ^ 16) ++ padEven (file.name ++ [0]) ++ padEven file.contents

/-- A file with zeros in its other fields. -/
def zeroFile (name contents : List Byte) (hname : 0 ∉ name) (hlen : name.length + 1 < 2 ^ 16)
    (hsize : contents.length < 2 ^ 32) : CpioFile :=
  ⟨List.replicate 20 0, name, contents, rfl, hname, hlen, hsize⟩

end Hafnium
