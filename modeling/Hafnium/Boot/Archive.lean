import Hafnium.Boot.Entries

/-!
# Files found in archives

An archive is a sequence of files, closed by an entry `TRAILER!!!` and followed by bytes
that do not belong to it.  The name with which the end is recognised has a line feed
after it and no terminator, so that a search does not stop at the end of the archive; and
a name of the greatest size is taken to be empty when the reader moves on.
-/

namespace Hafnium

open List CpioFile Memory

/-! ## Whole archives -/

/-- The name of the entry that closes an archive. -/
def trailerName : List Byte := ascii "TRAILER!!!"

/-- Files and the entry that closes the archive. -/
def archive (files : List CpioFile) (trailer : CpioFile) : List Byte :=
  files.flatMap encode ++ trailer.encode

/-- Memory with an archive at an address.  What follows the archive in memory is given
from its first byte on, and the first `size` bytes of it are padding. -/
structure ArchiveAt (mem : Memory) (base : Nat) (files : List CpioFile) (trailer : CpioFile)
    (tail : Memory) (size : Nat) : Prop where
  hasAt : mem.HasAt base (archive files trailer)
  tail_eq : ∀ i, mem (base + (archive files trailer).length + i) = tail i
  fits : base + (archive files trailer).length + size < 2 ^ 64

/-- The contents of the first file of a name. -/
def contentsOf (name : List Byte) (files : List CpioFile) : Option (List Byte) :=
  (files.find? fun file => file.name = name).map contents

/-- The bytes that an iterator goes over. -/
def Memory.readAll (mem : Memory) (it : MemIter) : List Byte := mem.bytes it.next it.len

theorem Memory.readAll_fromRaw (mem : Memory) (a n : Nat) :
    mem.readAll (.fromRaw a n) = mem.bytes a n := by
  rw [readAll, MemIter.fromRaw, MemIter.len, Nat.add_sub_cancel_left]

/-- Both searches for a name end, and return the contents of the first file of that name,
for all archives with files of the given names, whatever their contents. -/
def LooksUp (after filename : List Byte) (names : List (List Byte)) (tail : Memory)
    (size : Nat) : Prop :=
  ∀ files trailer mem base, files.map name = names → trailer.name = trailerName →
    ArchiveAt mem base files trailer tail size →
    let cpio := MemIter.fromRaw base ((archive files trailer).length + size)
    (Search after mem (fun result => iseq mem filename result.name) cpio
        (findFileMemiter after mem cpio filename) ∧
      (findFileMemiter after mem cpio filename).map mem.readAll = contentsOf filename files) ∧
    (Search after mem (fun result => strcmp (filename ++ [0])
          (mem.bytes result.name (filename.length + 1)) = some 0) cpio
        (findFile after mem cpio filename) ∧
      (findFile after mem cpio filename).map mem.readAll = contentsOf filename files)

/-- A search for a name goes right, as far as the names of the files tell: `trailer` is the
name that ends a search, and `barren` says that none of the padding has the name. -/
def Finds (trailer filename : List Byte) (barren : Prop) : List (List Byte) → Prop
  | [] => filename = trailer ∨ filename ≠ trailerName ∧ barren
  | name :: names =>
    if name = filename then name ≠ trailer ∧ name.length + 2 ≠ 2 ^ 16
    else if name = trailer then filename ∉ names
    else if name.length + 2 = 2 ^ 16 then filename = trailer ∧ filename ∉ names
    else Finds trailer filename barren names

section Archive

variable {mem tail : Memory} {base size limit : Nat} {file trailer : CpioFile}
  {files : List CpioFile} {after filename : List Byte} {test : CpioResult → Bool}
  {found : Option MemIter}

theorem ArchiveAt.cons (h : ArchiveAt mem base (file :: files) trailer tail size) :
    mem.HasAt base file.encode ∧ ArchiveAt mem (base + file.encode.length) files trailer tail size ∧
      (archive (file :: files) trailer).length =
        file.encode.length + (archive files trailer).length := by
  have hlen : (archive (file :: files) trailer).length =
      file.encode.length + (archive files trailer).length := by
    rw [archive, archive, flatMap_cons, append_assoc, length_append]
  obtain ⟨hhas, htail, hfits⟩ := h
  rw [hlen] at hfits
  rw [hlen, ← Nat.add_assoc] at htail
  rw [archive, flatMap_cons, append_assoc, hasAt_append] at hhas
  exact ⟨hhas.1, ⟨hhas.2, htail, by omega⟩, hlen⟩

theorem ArchiveAt.nil (h : ArchiveAt mem base [] trailer tail size) :
    mem.HasAt base trailer.encode ∧ ∀ i, mem (base + trailer.encode.length + i) = tail i :=
  ⟨h.hasAt, h.tail_eq⟩

/-- What a search does at a file. -/
theorem search_file (htest : ∀ result, test result = true ↔ mem.Named result.name filename)
    (hfilename : 0 ∉ filename) (hfile : mem.HasAt base file.encode)
    (hlimit : limit < 2 ^ 64) (hfits : base + file.encode.length ≤ limit)
    (h : Search after mem test ⟨base, limit⟩ found) :
    (file.name = cpioTrailer after ∧ found = none) ∨
    (file.name = filename ∧ file.name ≠ cpioTrailer after ∧
      found = some (.fromRaw (contentsAt mem base) file.contents.length)) ∨
    (file.name ≠ filename ∧ file.name ≠ cpioTrailer after ∧
      Search after mem test ⟨nextAt mem base, limit⟩ found) := by
  have htrailer := named_iff hfile (zero_notMem_cpioTrailer after)
  have hnamed := named_iff hfile hfilename
  have hnext : nextAt mem base ≤ limit := by
    by_cases hname : file.name.length + 2 = 2 ^ 16
    · rw [(nextAt_of_longest hfile hname).2]
      rw [length_encode] at hfits
      omega
    · rwa [(nextAt_of_hasAt hfile hname).2]
  have hparse := parseCpio_eq mem base after hlimit (Nat.le_trans (Nat.le_add_right ..) hfits)
  by_cases hend : file.name = cpioTrailer after
  · rw [if_neg (fun h => h.2 (htrailer.mpr hend))] at hparse
    exact .inl ⟨hend, h.unique (.stop hparse)⟩
  rw [if_pos ⟨hnext, mt htrailer.mp hend⟩] at hparse
  right
  by_cases hname : file.name = filename
  · left
    refine ⟨hname, hend, ?_⟩
    rw [h.unique (.found hparse ((htest _).mpr (hnamed.mpr hname)))]
    dsimp only
    rw [(fields_of_hasAt hfile).2.1]
  · right
    refine ⟨hname, hend, ?_⟩
    have hno := (htest ⟨base + cpioHeaderSize, contentsAt mem base, sizeAt mem base⟩).not.mpr
      (mt hnamed.mp hname)
    cases h with
    | stop hparse' => cases hparse.symm.trans hparse'
    | found hparse' htrue =>
      cases hparse.symm.trans hparse'
      exact absurd htrue hno
    | next hparse' _ hrest =>
      cases hparse.symm.trans hparse'
      exact hrest

/-- No search returns a file of the name that ends it. -/
theorem search_cpioTrailer
    (htest : ∀ result, test result = true ↔ mem.Named result.name (cpioTrailer after))
    {it : MemIter} (hlimit : it.limit < 2 ^ 64) (hnext : it.next ≤ it.limit)
    (h : Search after mem test it found) : found = none := by
  induction h with
  | stop => rfl
  | @found it it' result hparse hresult =>
    rw [parseCpio_eq _ _ _ hlimit hnext, Option.ite_none_right_eq_some] at hparse
    obtain ⟨⟨-, hnot⟩, heq⟩ := hparse
    cases heq
    exact absurd ((htest _).mp hresult) hnot
  | @next it it' result _ hparse _ _ ih =>
    rw [parseCpio_eq _ _ _ hlimit hnext, Option.ite_none_right_eq_some] at hparse
    obtain ⟨⟨hle, -⟩, heq⟩ := hparse
    cases heq
    exact ih hlimit hle

theorem contentsOf_eq_none_iff : contentsOf filename files = none ↔ filename ∉ files.map name := by
  rw [contentsOf, Option.map_eq_none_iff, find?_eq_none, mem_map]
  constructor
  · rintro h ⟨file, hmem, rfl⟩
    exact h file hmem (decide_eq_true rfl)
  · intro h file hmem hname
    exact h ⟨file, hmem, of_decide_eq_true hname⟩

theorem contentsOf_cons_of_eq (h : file.name = filename) :
    contentsOf filename (file :: files) = some file.contents := by
  simp [contentsOf, h]

theorem contentsOf_cons_of_ne (h : file.name ≠ filename) :
    contentsOf filename (file :: files) = contentsOf filename files := by
  simp [contentsOf, h]

/-- What the padding has to do with a search that passes over all files. -/
theorem search_tail (htest : ∀ result, test result = true ↔ mem.Named result.name filename)
    (htail : ∀ i, mem (base + i) = tail i) (hfits : base + size < 2 ^ 64)
    (h : Search after mem test ⟨base, base + size⟩ found) :
    found.isSome ↔
      ∃ result, Reads after tail ⟨0, size⟩ result ∧ tail.Named result.name filename := by
  have htail' : Search after tail (fun result => decide (tail.Named result.name filename)) ⟨0, size⟩
      (findFrom after tail _ (size + 1) ⟨0, size⟩) :=
    search_findFrom (show size - 0 < size + 1 by omega)
  have hshift := search_shift htail htest (Nat.zero_le size) hfits htail'
  rw [h.unique hshift, Option.isSome_map, htail'.isSome_iff]
  simp only [decide_eq_true_eq]

/-- A search goes right wherever the names say so. -/
theorem search_of_finds (hfilename : 0 ∉ filename)
    (htest : ∀ result, test result = true ↔ mem.Named result.name filename)
    (htrailer : trailer.name = trailerName)
    (h : ArchiveAt mem base files trailer tail size)
    (hlimit : limit = base + (archive files trailer).length + size)
    (hfinds : Finds (cpioTrailer after) filename
      (∀ result, Reads after tail ⟨0, size⟩ result → ¬tail.Named result.name filename)
      (files.map name))
    (hsearch : Search after mem test ⟨base, limit⟩ found) :
    found.map mem.readAll = contentsOf filename files := by
  have hlt : limit < 2 ^ 64 := hlimit ▸ h.fits
  induction files generalizing base with
  | nil =>
    obtain ⟨hfile, htail⟩ := h.nil
    have hbase : base + trailer.encode.length + size = limit := hlimit.symm
    suffices hnone : found = none by
      rw [hnone]
      rfl
    rcases hfinds with rfl | ⟨hname, hbarren⟩
    · exact search_cpioTrailer htest hlt (show base ≤ limit by omega) hsearch
    rcases search_file htest hfilename hfile hlt (by omega) hsearch with
      ⟨-, hnone⟩ | ⟨heq, -⟩ | ⟨-, -, hrest⟩
    · exact hnone
    · exact absurd (heq.symm.trans htrailer) hname
    · have hlen : trailer.name.length + 2 ≠ 2 ^ 16 := by
        rw [htrailer]
        decide
      rw [(nextAt_of_hasAt hfile hlen).2, ← hbase] at hrest
      rw [← Option.not_isSome_iff_eq_none, search_tail htest htail (by omega) hrest]
      rintro ⟨result, hread, hnamed⟩
      exact hbarren result hread hnamed
  | cons file files ih =>
    obtain ⟨hfile, hfiles, hlen⟩ := h.cons
    rw [hlen, ← Nat.add_assoc] at hlimit
    rw [map_cons, Finds] at hfinds
    have hcases := search_file htest hfilename hfile hlt (by omega) hsearch
    by_cases hname : file.name = filename
    · rw [if_pos hname] at hfinds
      rw [contentsOf_cons_of_eq hname]
      rcases hcases with ⟨hend, -⟩ | ⟨-, -, rfl⟩ | ⟨hne, -⟩
      · exact absurd hend hfinds.1
      · obtain ⟨-, -, -, hcontents⟩ := fields_of_hasAt hfile
        rw [padEven, hasAt_append] at hcontents
        rw [(nextAt_of_hasAt hfile hfinds.2).1, Option.map_some, readAll_fromRaw]
        exact congrArg some hcontents.1
      · exact absurd hname hne
    rw [if_neg hname] at hfinds
    rw [contentsOf_cons_of_ne hname]
    by_cases hend : file.name = cpioTrailer after
    · rw [if_pos hend] at hfinds
      rcases hcases with ⟨-, rfl⟩ | ⟨heq, -⟩ | ⟨-, hne, -⟩
      · rw [contentsOf_eq_none_iff.mpr hfinds]
        rfl
      · exact absurd heq hname
      · exact absurd hend hne
    rw [if_neg hend] at hfinds
    by_cases hlong : file.name.length + 2 = 2 ^ 16
    · rw [if_pos hlong] at hfinds
      obtain ⟨rfl, hmem⟩ := hfinds
      rw [contentsOf_eq_none_iff.mpr hmem,
        search_cpioTrailer htest hlt (show base ≤ limit by omega) hsearch]
      rfl
    rw [if_neg hlong] at hfinds
    rcases hcases with ⟨heq, -⟩ | ⟨heq, -⟩ | ⟨-, -, hrest⟩
    · exact absurd heq hend
    · exact absurd heq hname
    · rw [(nextAt_of_hasAt hfile hlong).2] at hrest
      exact ih hfiles hlimit hfinds hrest

end Archive

/-! ### Archives in which a search goes wrong -/

/-- An entry without contents, in as many bytes as the longest name takes. -/
def buriedEntry (filename : List Byte) : List Byte :=
  replicate 26 0 ++ (filename ++ [0]) ++ replicate (2 ^ 16 - 27 - filename.length) 0

section Wrong

variable {mem tail : Memory} {base size limit : Nat} {file trailer : CpioFile}
  {files : List CpioFile} {after filename : List Byte} {test : CpioResult → Bool}
  {found : Option MemIter} {names : List (List Byte)}

theorem length_buriedEntry (h : filename.length + 27 ≤ 2 ^ 16) :
    (buriedEntry filename).length = 2 ^ 16 := by
  simp only [buriedEntry, length_append, length_replicate, length_singleton]
  omega

theorem search_buriedEntry (htest : ∀ result, test result = true ↔ mem.Named result.name filename)
    (hfilename : 0 ∉ filename) (hne : filename ≠ cpioTrailer after) (hlimit : limit < 2 ^ 64)
    (hfits : base + (buriedEntry filename).length ≤ limit)
    (h : mem.HasAt base (buriedEntry filename))
    (hsearch : Search after mem test ⟨base, limit⟩ found) :
    found.map mem.readAll = some [] := by
  have hlen : (buriedEntry filename).length ≥ 26 := by
    simp only [buriedEntry, length_append, length_replicate]
    omega
  obtain ⟨⟨hheader, hname⟩, -⟩ : (mem.HasAt base (replicate 26 0) ∧
      mem.Named (base + 26) filename) ∧ _ := by
    rwa [buriedEntry, hasAt_append, hasAt_append] at h
  have hfield : ∀ {offset : Nat}, offset + 1 < 26 → cpioField mem base offset = 0 := by
    intro offset hoffset
    rw [cpioField_eq, Nat.add_assoc, hheader.get (show offset < _ by rw [length_replicate]; omega),
      hheader.get (show offset + 1 < _ by rw [length_replicate]; omega),
      getElem_replicate, getElem_replicate]
    rfl
  have hsize : sizeAt mem base = 0 := by
    rw [sizeAt, hfield (by decide), hfield (by decide), Nat.zero_mul]
  have hcontents : contentsAt mem base = base + 26 := by
    rw [contentsAt, hfield (by decide)]
    rfl
  have hnext : nextAt mem base = base + 26 := by
    rw [nextAt, hcontents, hsize]
  have hparse := parseCpio_eq mem base after hlimit (by omega)
  rw [if_pos ⟨by omega, fun htrailer =>
    hne (hname.eq hfilename (zero_notMem_cpioTrailer after) htrailer)⟩] at hparse
  rw [hsearch.unique (.found hparse ((htest _).mpr hname)), Option.map_some, hsize,
    readAll_fromRaw]
  rfl

/-- A search goes wrong in all archives with some files of the given names. -/
def GoesWrong (after filename : List Byte) (tail : Memory) (size : Nat)
    (names : List (List Byte)) : Prop :=
  ∃ files : List CpioFile, files.map name = names ∧
    (files.flatMap encode).length ≤ names.length * 2 ^ 18 ∧
    ∀ mem base trailer test found limit, trailer.name = trailerName →
      (∀ result, test result = true ↔ mem.Named result.name filename) →
      ArchiveAt mem base files trailer tail size →
      limit = base + (archive files trailer).length + size →
      Search after mem test ⟨base, limit⟩ found → found.map mem.readAll ≠ contentsOf filename files

theorem length_flatMap_encode_cons {n : Nat} (hcontents : file.contents.length ≤ 2 ^ 16)
    (h : (files.flatMap encode).length ≤ n * 2 ^ 18) :
    ((file :: files).flatMap encode).length ≤ (n + 1) * 2 ^ 18 := by
  have hname := file.namesize_lt
  rw [flatMap_cons, length_append, length_encode, cpioHeaderSize]
  omega

theorem length_trailerName : trailerName.length = 10 := by decide

theorem trailerName_ne_cpioTrailer (after : List Byte) : trailerName ≠ cpioTrailer after := by
  intro heq
  have hlen := congrArg length heq
  have hliteral : (ascii "TRAILER!!!\n").length = 11 := by decide
  rw [length_trailerName, cpioTrailer, length_append, hliteral] at hlen
  omega

/-- The end of the archive is passed over, and an entry of the padding is found. -/
theorem goesWrong_nil (hfilename : 0 ∉ filename) (hfinds : ¬Finds (cpioTrailer after) filename
      (∀ result, Reads after tail ⟨0, size⟩ result → ¬tail.Named result.name filename) []) :
    GoesWrong after filename tail size [] := by
  refine ⟨[], rfl, Nat.le_refl _, ?_⟩
  intro mem base trailer test found limit htrailer htest h hlimit hsearch hwrong
  have hnone : found = none := Option.map_eq_none_iff.mp hwrong
  obtain ⟨-, hbarren⟩ := not_or.mp hfinds
  obtain ⟨hfile, htail⟩ := h.nil
  have hlt : limit < 2 ^ 64 := hlimit ▸ h.fits
  have hbase : base + trailer.encode.length + size = limit := hlimit.symm
  rcases search_file htest hfilename hfile hlt (by omega) hsearch with
    ⟨heq, -⟩ | ⟨-, -, hsome⟩ | ⟨hname, -, hrest⟩
  · exact trailerName_ne_cpioTrailer after (htrailer.symm.trans heq)
  · exact nomatch hnone.symm.trans hsome
  · apply hbarren
    constructor
    · intro heq
      exact hname (htrailer.trans heq.symm)
    · intro result hread hnamed
      have hlong : trailer.name.length + 2 ≠ 2 ^ 16 := by
        rw [htrailer, length_trailerName]
        decide
      rw [(nextAt_of_hasAt hfile hlong).2, ← hbase] at hrest
      have hsome := (search_tail htest htail (by omega) hrest).mpr ⟨result, hread, hnamed⟩
      rw [hnone] at hsome
      contradiction

theorem GoesWrong.cons {name : List Byte} (hfilename : 0 ∉ filename) (hname : 0 ∉ name)
    (hsize : name.length + 1 < 2 ^ 16) (hne : name ≠ filename) (hend : name ≠ cpioTrailer after)
    (hlong : name.length + 2 ≠ 2 ^ 16) (h : GoesWrong after filename tail size names) :
    GoesWrong after filename tail size (name :: names) := by
  obtain ⟨files, hfiles, hlen, hwrong⟩ := h
  refine ⟨zeroFile name [] hname hsize (by decide) :: files, congrArg (name :: ·) hfiles, ?_, ?_⟩
  · exact length_flatMap_encode_cons (Nat.zero_le _) hlen
  · intro mem base trailer test found limit htrailer htest h hlimit hsearch
    obtain ⟨hfile, hrest, hlen'⟩ := h.cons
    have hlt : limit < 2 ^ 64 := hlimit ▸ h.fits
    rw [hlen', ← Nat.add_assoc] at hlimit
    rw [contentsOf_cons_of_ne hne]
    rcases search_file htest hfilename hfile hlt (by omega) hsearch with
      ⟨heq, -⟩ | ⟨heq, -⟩ | ⟨-, -, hnext⟩
    · exact absurd heq hend
    · exact absurd heq hne
    · rw [(nextAt_of_hasAt hfile hlong).2] at hnext
      exact hwrong mem _ trailer test found limit htrailer htest hrest hlimit hnext

theorem exists_files (hnames : ∀ name ∈ names, 0 ∉ name ∧ name.length + 1 < 2 ^ 16) :
    ∃ files : List CpioFile, files.map name = names ∧
      (files.flatMap encode).length ≤ names.length * 2 ^ 18 ∧
      ∀ file ∈ files, file.contents ≠ [] := by
  induction names with
  | nil => exact ⟨[], rfl, Nat.le_refl _, nofun⟩
  | cons name names ih =>
    obtain ⟨hname, hsize⟩ := hnames name (mem_cons_self ..)
    obtain ⟨files, hfiles, hlen, hcontents⟩ := ih fun n hn => hnames n (mem_cons_of_mem _ hn)
    refine ⟨zeroFile name [0] hname hsize (by decide) :: files, congrArg (name :: ·) hfiles, ?_, ?_⟩
    · exact length_flatMap_encode_cons (show 1 ≤ 2 ^ 16 by decide) hlen
    · intro file hfile
      rcases mem_cons.mp hfile with rfl | hfile
      · exact nofun
      · exact hcontents file hfile

theorem contentsOf_ne_some_nil (h : ∀ file ∈ files, file.contents ≠ []) :
    contentsOf filename files ≠ some [] := by
  intro heq
  obtain ⟨file, hfile, hnil⟩ := Option.map_eq_some_iff.mp heq
  exact h file (mem_of_find?_eq_some hfile) hnil

/-- A search that returns nothing, for a file that is there. -/
theorem goesWrong_of_none (hnames : ∀ name ∈ names, 0 ∉ name ∧ name.length + 1 < 2 ^ 16)
    (hmem : filename ∈ names)
    (hnone : ∀ files mem base trailer test found limit, files.map name = names →
      (∀ result, test result = true ↔ mem.Named result.name filename) →
      ArchiveAt mem base files trailer tail size →
      limit = base + (archive files trailer).length + size →
      Search after mem test ⟨base, limit⟩ found → found = none) :
    GoesWrong after filename tail size names := by
  obtain ⟨files, hfiles, hlen, -⟩ := exists_files hnames
  refine ⟨files, hfiles, hlen, ?_⟩
  intro mem base trailer test found limit htrailer htest h hlimit hsearch heq
  rw [hnone files mem base trailer test found limit hfiles htest h hlimit hsearch] at heq
  exact contentsOf_eq_none_iff.mp heq.symm (hfiles ▸ hmem)

/-- The contents of a file with the longest name are taken to be its name. -/
theorem goesWrong_of_longest_name (hfilename : 0 ∉ filename) (hend : filename ≠ cpioTrailer after)
    (hlong : filename.length + 2 = 2 ^ 16)
    (hnames : ∀ name ∈ names, 0 ∉ name ∧ name.length + 1 < 2 ^ 16) :
    GoesWrong after filename tail size (filename :: names) := by
  obtain ⟨files, hfiles, hlen, -⟩ := exists_files hnames
  refine ⟨zeroFile filename [0] hfilename (by omega) (by decide) :: files,
    congrArg (filename :: ·) hfiles, ?_, ?_⟩
  · exact length_flatMap_encode_cons (show 1 ≤ 2 ^ 16 by decide) hlen
  · intro mem base trailer test found limit htrailer htest h hlimit hsearch
    obtain ⟨hfile, -, hlen'⟩ := h.cons
    have hlt : limit < 2 ^ 64 := hlimit ▸ h.fits
    have hname : (zeroFile filename [0] hfilename (by omega) (by decide)).name = filename := rfl
    rw [contentsOf_cons_of_eq hname]
    rcases search_file htest hfilename hfile hlt (by omega) hsearch with
      ⟨heq, -⟩ | ⟨-, -, rfl⟩ | ⟨hne, -⟩
    · exact absurd heq hend
    · rw [(nextAt_of_longest hfile hlong).1, Option.map_some, readAll_fromRaw]
      intro heq
      have hbyte : mem (base + cpioHeaderSize) = 0 := (cons.inj (Option.some.inj heq)).1
      have hnamed : mem.Named (base + cpioHeaderSize) filename :=
        (fields_of_hasAt hfile).2.2.1
      apply hfilename
      have hget := hnamed.get (show 0 < (filename ++ [0]).length by simp)
      rw [Nat.add_zero, hbyte, getElem_append_left (by omega)] at hget
      rw [hget]
      exact getElem_mem _
    · exact absurd rfl hne

/-- The next entry after a file with the longest name is looked for in its contents. -/
theorem goesWrong_of_longest {name : List Byte} (hfilename : 0 ∉ filename)
    (hlen : filename.length + 27 ≤ 2 ^ 16) (hend : filename ≠ cpioTrailer after)
    (hname : 0 ∉ name) (hne : name ≠ filename) (hend' : name ≠ cpioTrailer after)
    (hlong : name.length + 2 = 2 ^ 16)
    (hnames : ∀ name ∈ names, 0 ∉ name ∧ name.length + 1 < 2 ^ 16) :
    GoesWrong after filename tail size (name :: names) := by
  obtain ⟨files, hfiles, hsize, hcontents⟩ := exists_files hnames
  have hburied := length_buriedEntry hlen
  have hlt32 : (buriedEntry filename).length < 2 ^ 32 := by
    rw [hburied]
    decide
  refine ⟨zeroFile name (buriedEntry filename) hname (by omega) hlt32 :: files,
    congrArg (name :: ·) hfiles, ?_, ?_⟩
  · exact length_flatMap_encode_cons hburied.le hsize
  · intro mem base trailer test found limit htrailer htest h hlimit hsearch
    obtain ⟨hfile, -, hlen'⟩ := h.cons
    have hlt : limit < 2 ^ 64 := hlimit ▸ h.fits
    have hencode : (zeroFile name (buriedEntry filename) hname (by omega) hlt32).encode.length =
        cpioHeaderSize + (name.length + 2) / 2 * 2 + ((buriedEntry filename).length + 1) / 2 * 2 :=
      length_encode _
    have hpad : (name.length + 2) / 2 * 2 = 2 ^ 16 := by omega
    have hsize' : ((buriedEntry filename).length + 1) / 2 * 2 = 2 ^ 16 := by omega
    rw [contentsOf_cons_of_ne hne]
    rcases search_file htest hfilename hfile hlt (by omega) hsearch with
      ⟨heq, -⟩ | ⟨heq, -⟩ | ⟨-, -, hnext⟩
    · exact absurd heq hend'
    · exact absurd heq hne
    · rw [(nextAt_of_longest hfile hlong).2] at hnext
      obtain ⟨-, -, -, hhas⟩ := fields_of_hasAt hfile
      dsimp only [zeroFile] at hnext hhas
      rw [hsize'] at hnext
      rw [hpad, padEven, hasAt_append] at hhas
      rw [search_buriedEntry htest hfilename hend hlt (by omega) hhas.1 hnext]
      exact (contentsOf_ne_some_nil hcontents).symm

/-- Where the names do not say that a search goes right, it goes wrong. -/
theorem goesWrong_of_not_finds (hfilename : 0 ∉ filename) (hlen : filename.length + 27 ≤ 2 ^ 16)
    (hnames : ∀ name ∈ names, 0 ∉ name ∧ name.length + 1 < 2 ^ 16)
    (hfinds : ¬Finds (cpioTrailer after) filename
      (∀ result, Reads after tail ⟨0, size⟩ result → ¬tail.Named result.name filename) names) :
    GoesWrong after filename tail size names := by
  induction names with
  | nil => exact goesWrong_nil hfilename hfinds
  | cons name names ih =>
    obtain ⟨hname, hsize⟩ := hnames name (mem_cons_self ..)
    have hnames' : ∀ n ∈ names, 0 ∉ n ∧ n.length + 1 < 2 ^ 16 :=
      fun n hn => hnames n (mem_cons_of_mem _ hn)
    rw [Finds] at hfinds
    by_cases heq : name = filename
    · subst heq
      rw [if_pos rfl] at hfinds
      by_cases hend : name = cpioTrailer after
      · apply goesWrong_of_none hnames (mem_cons_self ..)
        intro files mem base trailer test found limit _ htest h hlimit hsearch
        rw [hend] at htest
        have hfits := h.fits
        exact search_cpioTrailer htest (show limit < 2 ^ 64 by omega) (show base ≤ limit by omega)
          hsearch
      · apply goesWrong_of_longest_name hname hend _ hnames'
        exact not_not.mp fun hlong => hfinds ⟨hend, hlong⟩
    rw [if_neg heq] at hfinds
    by_cases hend : name = cpioTrailer after
    · rw [if_pos hend, not_not] at hfinds
      apply goesWrong_of_none hnames (mem_cons_of_mem _ hfinds)
      intro files mem base trailer test found limit hfiles htest h hlimit hsearch
      obtain ⟨file, files, rfl⟩ : ∃ file files', files = file :: files' := by
        cases files with
        | nil => contradiction
        | cons file files => exact ⟨file, files, rfl⟩
      obtain ⟨hfile, -, hlen'⟩ := h.cons
      have hfits := h.fits
      have hfileName : file.name = name := (cons.inj hfiles).1
      rcases search_file htest hfilename hfile (by omega) (by omega) hsearch with
        ⟨-, hnone⟩ | ⟨hfound, -⟩ | ⟨-, hne, -⟩
      · exact hnone
      · exact absurd (hfileName.symm.trans hfound) heq
      · exact absurd (hfileName.trans hend) hne
    rw [if_neg hend] at hfinds
    by_cases hlong : name.length + 2 = 2 ^ 16
    · rw [if_pos hlong] at hfinds
      by_cases htrailer : filename = cpioTrailer after
      · have hmem : filename ∈ names := not_not.mp fun hmem => hfinds ⟨htrailer, hmem⟩
        apply goesWrong_of_none hnames (mem_cons_of_mem _ hmem)
        intro files mem base trailer test found limit _ htest h hlimit hsearch
        rw [htrailer] at htest
        have hfits := h.fits
        exact search_cpioTrailer htest (show limit < 2 ^ 64 by omega) (show base ≤ limit by omega)
          hsearch
      · exact goesWrong_of_longest hfilename hlen htrailer hname heq hend hlong hnames'
    rw [if_neg hlong] at hfinds
    exact (ih hnames' hfinds).cons hfilename hname hsize heq hend hlong

end Wrong

/-- Some memory has a given archive. -/
theorem exists_archiveAt (files : List CpioFile) (trailer : CpioFile) (tail : Memory) {size : Nat}
    (hfits : (archive files trailer).length + size < 2 ^ 64) :
    ∃ mem, ArchiveAt mem 0 files trailer tail size := by
  refine ⟨fun a => (archive files trailer).getD a (tail (a - (archive files trailer).length)),
    ?_, ?_, ?_⟩
  · apply ext_getElem
    · exact length_bytes ..
    · intro i _ hi
      simp [bytes, hi]
  · intro i
    simp
  · rwa [Nat.zero_add]

/-- A search for a name returns the contents of the first file of that name, in all
archives with files of the given names and the given bytes after them, if the names say
so; and, unless the name or the archive is too long for it, only if they do. -/
theorem looksUp_iff_finds (after filename : List Byte) (names : List (List Byte)) (tail : Memory)
    (size : Nat) (hfilename : 0 ∉ filename)
    (hnames : ∀ name ∈ names, 0 ∉ name ∧ name.length + 1 < 2 ^ 16) :
    (Finds (cpioTrailer after) filename
        (∀ result, Reads after tail ⟨0, size⟩ result → ¬tail.Named result.name filename) names →
      LooksUp after filename names tail size) ∧
    (filename.length + 27 ≤ 2 ^ 16 → (names.length + 1) * 2 ^ 18 + size ≤ 2 ^ 64 →
      LooksUp after filename names tail size → Finds (cpioTrailer after) filename
        (∀ result, Reads after tail ⟨0, size⟩ result → ¬tail.Named result.name filename)
        names) := by
  constructor
  · rintro hfinds files trailer mem base rfl htrailer h
    have hlimit : base + ((archive files trailer).length + size) =
        base + (archive files trailer).length + size := (Nat.add_assoc ..).symm
    constructor
    · have hsearch := search_findFileMemiter after mem
        (.fromRaw base ((archive files trailer).length + size)) filename
      exact ⟨hsearch, search_of_finds hfilename (fun _ => iseq_iff hfilename) htrailer h hlimit
        hfinds hsearch⟩
    · have hsearch := search_findFile after mem
        (.fromRaw base ((archive files trailer).length + size)) filename
      refine ⟨hsearch, search_of_finds hfilename ?_ htrailer h hlimit hfinds hsearch⟩
      intro result
      rw [decide_eq_true_eq]
      exact strcmp_filename_iff hfilename
  · intro hlen hroom hlooks
    apply not_not.mp
    intro hnot
    obtain ⟨files, rfl, hsize, hwrong⟩ := goesWrong_of_not_finds hfilename hlen hnames hnot
    obtain ⟨trailer, htrailer, hempty⟩ : ∃ trailer : CpioFile,
        trailer.name = trailerName ∧ trailer.contents = [] :=
      ⟨zeroFile trailerName [] (by decide) (by decide) (by decide), rfl, rfl⟩
    have hfits : (archive files trailer).length + size < 2 ^ 64 := by
      have hencode := trailer.length_encode
      rw [htrailer, hempty, length_trailerName] at hencode
      rw [archive, List.length_append, hencode]
      simp only [List.length_nil, cpioHeaderSize]
      omega
    obtain ⟨mem, h⟩ := exists_archiveAt files trailer tail hfits
    obtain ⟨⟨hsearch, hright⟩, -⟩ := hlooks files trailer mem 0 rfl htrailer h
    exact hwrong mem 0 trailer _ _ _ htrailer (fun _ => iseq_iff hfilename) h
      (Nat.add_assoc ..).symm hsearch hright

theorem looksUp_single_file :
    LooksUp [] (ascii "a") [ascii "a"] (fun _ => 0) 512 ∧
      Finds (cpioTrailer []) (ascii "a") (∀ result, Reads [] (fun _ => 0) ⟨0, 512⟩ result →
        ¬Memory.Named (fun _ => 0) result.name (ascii "a")) [ascii "a"] := by
  have h := looksUp_iff_finds [] (ascii "a") [ascii "a"] (fun _ => 0) 512 (by decide) (by decide)
  have hfinds : Finds (cpioTrailer []) (ascii "a")
      (∀ result, Reads [] (fun _ => 0) ⟨0, 512⟩ result →
        ¬Memory.Named (fun _ => 0) result.name (ascii "a")) [ascii "a"] := by
    rw [Finds, if_pos rfl]
    decide
  exact ⟨h.1 hfinds, h.2 (by decide) (by decide) (h.1 hfinds)⟩

/-- An entry in the bytes after an archive. -/
def staleEntry : CpioFile := zeroFile (ascii "a") (ascii "b") (by decide) (by decide) (by decide)

def closingEntry : CpioFile := zeroFile trailerName [] (by decide) (by decide) (by decide)

/-- The end of an archive is not recognised: a file is found after it. -/
theorem stale_entry_found :
    ¬LooksUp [] (ascii "a") [] (fun i => staleEntry.encode.getD i 0) staleEntry.encode.length := by
  intro h
  have harchive : ArchiveAt (fun a => (archive [] closingEntry ++ staleEntry.encode).getD a 0) 0 []
      closingEntry (fun i => staleEntry.encode.getD i 0) staleEntry.encode.length := by
    refine ⟨by decide, ?_, by decide⟩
    intro i
    rw [Nat.zero_add, List.getD_eq_getElem?_getD, List.getD_eq_getElem?_getD,
      List.getElem?_append_right (Nat.le_add_right ..), Nat.add_sub_cancel_left]
  obtain ⟨-, -, hnone⟩ := h [] closingEntry _ 0 rfl rfl harchive
  exact absurd hnone (by decide +kernel)

end Hafnium
