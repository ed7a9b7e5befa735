import Hafnium.Arch.Aarch64
import Hafnium.Mm.Addr
import Hafnium.Mpool
import Hafnium.Support.Traverse

/-!
# Page tables

The operations of `mm.rs` on page tables.  A `PageTableEntry` owns the table it
refers to, so a page table is modelled as the tree it spans: an entry is the
stored word and, if that is a table descriptor, the entries of the table.  The
level is an index of the type, so that a table cannot hang below level 0.

Loops visit the entries in the order of the source and thread the page pool;
an operation that returns `Result<(), ()>` yields an `Outcome` next to the new
value of everything it was given by mutable reference.
-/

namespace Hafnium

open Support List

/-- A page table entry at some level, with all it owns.  `inner` is a table
descriptor exactly in `table`. -/
inductive PageTableEntry : Nat → Type
  | leaf {level : Nat} (inner : Pte) : PageTableEntry level
  | table {level : Nat} (inner : Pte) (entries : Fin 512 → PageTableEntry level) :
      PageTableEntry (level + 1)

/-- The entries of one table (`PTE_PER_PAGE` is 512). -/
abbrev RawPageTable (level : Nat) := Fin 512 → PageTableEntry level

/-- Flags of a page table update. -/
structure Flags where
  commit : Bool
  unmap : Bool
  deriving DecidableEq, Repr

namespace PageTableEntry

variable (A : ArchMm) {level : Nat}

/-- The stored word. -/
def inner : PageTableEntry level → Pte
  | leaf w => w
  | table w _ => w

def absent (level : Nat) : PageTableEntry level := leaf (A.absentPte level)

def block (level : Nat) (begin : Nat) (attrs : BitVec 64) : PageTableEntry level :=
  leaf (A.blockPte level begin attrs)

def isPresent (self : PageTableEntry level) : Bool := A.pteIsPresent self.inner level

def isValid (self : PageTableEntry level) : Bool := A.pteIsValid self.inner level

def isBlock (self : PageTableEntry level) : Bool := A.pteIsBlock self.inner level

def attrs (self : PageTableEntry level) : BitVec 64 := A.pteAttrs self.inner level

/-- Frees all page tables below an entry: those of its entries first, then its
own. -/
def drop : {level : Nat} → PageTableEntry level → MPool → MPool
  | _, leaf _, mpool => mpool
  | level + 1, table w entries, mpool =>
    ((finRange 512).foldl (fun mpool i => (entries i).drop mpool) mpool).free
      (A.tableFromPte w (level + 1))

/-- Replaces an entry.  If both values are valid, break-before-make first
overwrites the entry with an absent one; what is dropped afterwards is whatever
the entry holds by then. -/
def replace (self newPte : PageTableEntry level) (mpool : MPool) : PageTableEntry level × MPool :=
  let self := if self.isValid A && newPte.isValid A then absent A level else self
  let oldPte := self
  (newPte, oldPte.drop A mpool)

/-- Makes an entry refer to a table, one level down, with the same meaning. -/
def populateTable (self : PageTableEntry (level + 1)) (mpool : MPool) :
    Outcome × PageTableEntry (level + 1) × MPool :=
  match self with
  | table _ _ => (.ok, self, mpool)
  | leaf w =>
    match mpool.alloc with
    | none => (.err, self, mpool)
    | some (page, mpool) =>
      let entries : RawPageTable level :=
        if A.pteIsBlock w (level + 1) then
          fun i => block A level (w.toNat + i * entrySize level) (A.pteAttrs w (level + 1))
        else fun _ => absent A level
      let (pte, mpool) :=
        self.replace A (table (A.tablePte (level + 1) page) entries) mpool
      (.ok, pte, mpool)

end PageTableEntry

namespace RawPageTable

variable (A : ArchMm)

/-- Whether all entries of a table are absent. -/
def isEmpty {level : Nat} (self : RawPageTable level) : Bool :=
  (finRange 512).all fun i => !(self i).isPresent A

/-- An update loop over the entries of a table. -/
abbrev Update (level : Nat) :=
  Nat → PageTableEntry level → MPool → Outcome × PageTableEntry level × MPool

variable (endAddr : Nat) (attrs : BitVec 64) (flags : Flags)

/-- The entry already is as requested. -/
def skips {level : Nat} (pte : PageTableEntry level) : Bool :=
  (flags.unmap && !pte.isPresent A) ||
    (!flags.unmap && pte.isBlock A && pte.attrs A == attrs)

/-- The entire entry is within the region, and may be set as a whole. -/
def coversEntry (level begin : Nat) : Bool :=
  endAddr - begin ≥ entrySize level && (flags.unmap || A.isBlockAllowed level) &&
    begin % entrySize level == 0

/-- The body of the loop of `map_level`; `descend` is what it does with an
entry that is only partly in the region. -/
def mapPte (level : Nat) (descend : Update level) : Update level := fun begin pte mpool =>
  if skips A attrs flags pte then (.ok, pte, mpool)
  else if coversEntry A endAddr flags level begin then
    if flags.commit then
      let newPte :=
        if flags.unmap then PageTableEntry.absent A level
        else PageTableEntry.block A level begin attrs
      let (pte, mpool) := pte.replace A newPte mpool
      (.ok, pte, mpool)
    else (.ok, pte, mpool)
  else descend begin pte mpool

/-- Populates an entry, recurses into its table by `mapBelow`, and replaces a
table that `unmap` has emptied by an absent entry. -/
def mapSubtable {level : Nat}
    (mapBelow : Nat → RawPageTable level → MPool → Outcome × RawPageTable level × MPool) :
    Update (level + 1) := fun begin pte mpool =>
  match pte.populateTable A mpool with
  | (.err, pte, mpool) => (.err, pte, mpool)
  -- `as_table_mut().unwrap()`: dead, a populated entry is a table
  | (.ok, .leaf w, mpool) => (.err, .leaf w, mpool)
  | (.ok, .table w entries, mpool) =>
    match mapBelow begin entries mpool with
    | (.err, entries, mpool) => (.err, .table w entries, mpool)
    | (.ok, entries, mpool) =>
      if flags.commit && flags.unmap && isEmpty A entries then
        let (pte, mpool) := (PageTableEntry.table w entries).replace A
          (PageTableEntry.absent A (level + 1)) mpool
        (.ok, pte, mpool)
      else (.ok, .table w entries, mpool)

/-- The entries of a table from `begin` on, paired with their addresses. -/
def visits (level begin : Nat) : List (Fin 512 × Nat) :=
  zipBlocks (entrySize level) (min endAddr (levelEnd begin level))
    ((finRange 512).drop (index begin level)) begin

/-- Updates the table at a level so that the region is mapped with `attrs`, or
unmapped.  At level 0 a page-aligned region covers every entry it meets, so the
part of the loop after that check is dead there. -/
def mapLevel : (level : Nat) → Nat → RawPageTable level → MPool →
    Outcome × RawPageTable level × MPool
  | 0, begin, self, mpool =>
    forEach (mapPte A endAddr attrs flags 0 fun _ pte mpool => (.err, pte, mpool))
      (visits endAddr 0 begin) self mpool
  | level + 1, begin, self, mpool =>
    forEach (mapPte A endAddr attrs flags (level + 1) (mapSubtable A flags (mapLevel level)))
      (visits endAddr (level + 1) begin) self mpool

end RawPageTable

/-! ## Reading attributes -/

/-- `ResReduce::res_reduce`: combines the items from the left, failing on the
first item or combination that fails, and on an empty iterator. -/
def resReduce {α : Type} (f : α → α → Option α) : List (Option α) → Option α
  | [] => none
  | x :: xs => x.bind fun acc => xs.foldlM (fun acc val => val.bind (f acc)) acc

/-- Two equal attributes combine to themselves, different ones fail. -/
def sameAttrs (l r : BitVec 64) : Option (BitVec 64) := if l = r then some l else none

namespace PageTableEntry

variable (A : ArchMm)

/-- The attributes of the part of an entry between `begin` and `end`, if they
are the same throughout. -/
def getAttrs (endAddr : Nat) : {level : Nat} → PageTableEntry level → Nat → Option (BitVec 64)
  | level, leaf w, _ => some (A.pteAttrs w level)
  | level + 1, table _ entries, begin =>
    resReduce sameAttrs ((RawPageTable.visits endAddr level begin).map fun p =>
      (entries p.1).getAttrs endAddr p.2)

end PageTableEntry

def RawPageTable.getAttrsLevel (A : ArchMm) (endAddr : Nat) {level : Nat}
    (self : RawPageTable level) (begin : Nat) : Option (BitVec 64) :=
  resReduce sameAttrs ((RawPageTable.visits endAddr level begin).map fun p =>
    (self p.1).getAttrs A endAddr p.2)

/-! ## Defragmentation -/

/-- `Reduce::reduce` on `Result<u64, ()>` items with the closure of `defrag`. -/
def reduceAttrs : List (Option (BitVec 64)) → Option (Option (BitVec 64))
  | [] => none
  | x :: xs => some (xs.foldl (fun l r => if l = r then l else none) x)

namespace PageTableEntry

variable (A : ArchMm)

/-- The second half of `defrag`: replaces a table by a block or an absent entry
if all its entries reported the same attributes. -/
def mergeTable {level : Nat} (w : Pte) : List (Option (BitVec 64)) × RawPageTable level × MPool →
      Option (BitVec 64) × PageTableEntry (level + 1) × MPool
  | (results, entries, mpool) =>
    match (reduceAttrs results).join with
    | none => (none, table w entries, mpool)
    | some childrenAttrs =>
      if !A.pteIsPresent childrenAttrs level then
        let pte := absent A (level + 1)
        (some (pte.attrs A), pte, mpool.free (A.tableFromPte w (level + 1)))
      else if !A.isBlockAllowed (level + 1) then (none, table w entries, mpool)
      else
        let blockAddress := A.blockFromPte (entries 0).inner level
        let combinedAttrs :=
          A.combineTableEntryAttrs (A.pteAttrs w (level + 1)) childrenAttrs
        (some combinedAttrs, block A (level + 1) blockAddress combinedAttrs,
          mpool.free (A.tableFromPte w (level + 1)))

/-- Replaces tables by blocks or absent entries where possible.  Returns the
attributes of the entry if it ends up as a single block or absent entry. -/
def defrag : {level : Nat} → PageTableEntry level → MPool →
    Option (BitVec 64) × PageTableEntry level × MPool
  | level, leaf w, mpool =>
    if A.pteIsBlock w level then (some (A.pteAttrs w level), leaf w, mpool)
    else (none, leaf w, mpool)
  | level + 1, table w entries, mpool =>
    if A.pteIsBlock w (level + 1) then (some (A.pteAttrs w (level + 1)), table w entries, mpool)
    else
      mergeTable A w
        (mapAll (fun pte mpool => pte.defrag mpool) (finRange 512) entries mpool)

end PageTableEntry

/-! ## Whole page tables -/

/-- The hypervisor's own translation or that of a VM. -/
inductive StageKind
  | stage1
  | stage2
  deriving DecidableEq, Repr

/-- A stage of translation with the shape of its page tables. -/
structure Stage where
  kind : StageKind
  maxLevel : Nat
  rootTableCount : Nat
  deriving DecidableEq, Repr

namespace Stage

variable (S : Stage)

def rootLevel : Nat := S.maxLevel + 1

/-- The exclusive end of the address space created by the tables. -/
def ptableAddrSpaceEnd : Nat := S.rootTableCount * entrySize S.rootLevel

def modeToAttrs (A : ArchMm) (mode : Mode) : BitVec 64 :=
  match S.kind with
  | .stage1 => A.modeToStage1Attrs mode
  | .stage2 => A.modeToStage2Attrs mode

/-- Only stage-2 attributes are ever converted back. -/
def attrsToMode (A : ArchMm) (attrs : BitVec 64) : Mode :=
  Mode.fromBitsTruncate (A.stage2AttrsToMode attrs)

/-- The hypervisor's stage (`arch_mm_stage1_max_level`,
`arch_mm_stage1_root_table_count`). -/
def hypervisor : Stage := ⟨.stage1, 2, 1⟩

/-- The shape of stage-2 tables that `arch_mm_init` derives from the number of
physical address bits. -/
def ofPaBits (paBits : Nat) : Stage :=
  let maxLevel := if paBits ≥ 44 then 3 else if paBits ≥ 35 then 2 else 1
  let extendBits := (paBits - pageBits) % pageLevelBits
  let extendBits := if extendBits > 4 then 0 else extendBits
  ⟨.stage2, maxLevel, 1 <<< extendBits⟩

end Stage

/-- A page table: the address of its concatenated root tables and their
contents. -/
structure PageTable (S : Stage) where
  root : Nat
  tables : Fin S.rootTableCount → RawPageTable S.maxLevel

namespace PageTable

variable (A : ArchMm) {S : Stage}

def new (S : Stage) (mpool : MPool) : Option (PageTable S × MPool) :=
  match mpool.allocPages S.rootTableCount S.rootTableCount with
  | none => none
  | some (root, mpool) =>
    some (⟨root, fun _ _ => PageTableEntry.absent A S.maxLevel⟩, mpool)

/-- Frees all memory associated with a page table. -/
def drop (self : PageTable S) (mpool : MPool) : MPool :=
  let mpool := (finRange S.rootTableCount).foldl (fun mpool t =>
    (finRange 512).foldl (fun mpool i => (self.tables t i).drop A mpool) mpool) mpool
  mpool.freePages self.root S.rootTableCount

/-- The root tables from `begin` on, paired with their addresses. -/
def visits (S : Stage) (endAddr begin : Nat) : List (Fin S.rootTableCount × Nat) :=
  zipBlocks (entrySize S.rootLevel) endAddr
    ((finRange S.rootTableCount).drop (index begin S.rootLevel)) begin

/-- Updates the table from the root.  `none` is the panic of slicing the root
tables past their end. -/
def mapRoot (self : PageTable S) (begin endAddr : Nat) (attrs : BitVec 64) (flags : Flags)
    (mpool : MPool) : Option (Outcome × PageTable S × MPool) :=
  if index begin S.rootLevel > S.rootTableCount then none
  else
    let (r, tables, mpool) :=
      forEach (RawPageTable.mapLevel A endAddr attrs flags S.maxLevel)
        (visits S endAddr begin) self.tables mpool
    some (r, { self with tables }, mpool)

/-- Updates the table in two passes: the first splits what has to be split and
may run out of memory, the second commits. -/
def identityUpdate (self : PageTable S) (begin endAddr : Nat) (attrs : BitVec 64)
    (flags : Flags) (mpool : MPool) : Option (Outcome × PageTable S × MPool) :=
  let endAddr := min (roundUpToPage endAddr) S.ptableAddrSpaceEnd
  let begin := A.clearPa begin
  match self.mapRoot A begin endAddr attrs flags mpool with
  | none => none
  | some (.err, self, mpool) => some (.err, self, mpool)
  | some (.ok, self, mpool) =>
    self.mapRoot A begin endAddr attrs { flags with commit := true } mpool

def identityMap (self : PageTable S) (begin endAddr : Nat) (mode : Mode) (mpool : MPool) :
    Option (Outcome × PageTable S × MPool) :=
  self.identityUpdate A begin endAddr (S.modeToAttrs A mode) ⟨false, false⟩ mpool

/-- Removes every connection of the region to the table's owner. -/
def unmap (self : PageTable S) (begin endAddr : Nat) (mpool : MPool) :
    Option (Outcome × PageTable S × MPool) :=
  self.identityUpdate A begin endAddr
    (S.modeToAttrs A (Mode.UNOWNED ||| Mode.INVALID ||| Mode.SHARED)) ⟨false, true⟩ mpool

/-- Converts page table references to blocks wherever possible. -/
@[irreducible] def defrag (self : PageTable S) (mpool : MPool) : PageTable S × MPool :=
  let (_, tables, mpool) :=
    mapAll (fun (table : RawPageTable S.maxLevel) mpool =>
        mapAll (fun pte mpool => pte.defrag A mpool) (finRange 512) table mpool)
      (finRange S.rootTableCount) self.tables mpool
  ({ self with tables }, mpool)

/-- The attributes of a range of addresses, if they are the same throughout. -/
def getAttrs (self : PageTable S) (begin endAddr : Nat) : Option (BitVec 64) :=
  let ptableEnd := S.rootTableCount * entrySize S.rootLevel
  let begin := roundDownToPage begin
  let endAddr := roundUpToPage endAddr
  if ¬(begin ≤ endAddr ∧ endAddr ≤ ptableEnd) then none
  else
    resReduce sameAttrs ((visits S endAddr begin).map fun p =>
      (self.tables p.1).getAttrsLevel A endAddr p.2)

def getMode (self : PageTable S) (begin endAddr : Nat) : Option Mode :=
  (self.getAttrs A begin endAddr).map (Stage.attrsToMode A)

end PageTable

end Hafnium
