import Hafnium.Mm.Conservation

/-!
# Writes to page tables

The writes of `mm.rs` to entries that a CPU can reach, and the invalidations of
the TLB, in their order.  An entry of a new table counts as reachable once the
table is linked.  The events of an operation are defined along its model, with
the same loops and the same states of the page pool.
-/

namespace Hafnium

open Support Aarch64

/-- An entry gets a new value, with all that this refers to, or the TLB is
invalidated for a range of addresses. -/
inductive TableEvent
  | write {level : Nat} (base : Nat) (pte : PageTableEntry level)
  | invalidateTlb (begin endAddr : Nat)

namespace PageTableEntry

variable (A : ArchMm) {level : Nat}

/-- The first address of the entry at a level in which an address lies. -/
def entryBase (level begin : Nat) : Nat := begin / entrySize level * entrySize level

def replaceEvents (self newPte : PageTableEntry level) (begin : Nat) : List TableEvent :=
  (if self.isValid A && newPte.isValid A then
      [.write (entryBase level begin) (absent A level),
        .invalidateTlb begin (begin + entrySize level)]
    else []) ++
  [.write (entryBase level begin) newPte]

def populateTableEvents (self : PageTableEntry (level + 1)) (begin : Nat) (mpool : MPool) :
    List TableEvent :=
  match self with
  | table _ _ => []
  | leaf _ =>
    match self.populateTable A mpool with
    | (.ok, pte, _) => self.replaceEvents A pte begin
    | (.err, _, _) => []

end PageTableEntry

namespace RawPageTable

variable (A : ArchMm) (endAddr : Nat) (attrs : BitVec 64) (flags : Flags)

/-- The events of an update loop over the entries of a table. -/
abbrev UpdateEvents (level : Nat) := Nat → PageTableEntry level → MPool → List TableEvent

def mapPteEvents (level : Nat) (descend : UpdateEvents level) : UpdateEvents level :=
  fun begin pte mpool =>
    if skips A attrs flags pte then []
    else if coversEntry A endAddr flags level begin then
      if flags.commit then pte.replaceEvents A (newEntry A attrs flags level begin) begin else []
    else descend begin pte mpool

def mapSubtableEvents {level : Nat}
    (mapBelow : Nat → RawPageTable level → MPool → Outcome × RawPageTable level × MPool)
    (belowEvents : Nat → RawPageTable level → MPool → List TableEvent) : UpdateEvents (level + 1) :=
  fun begin pte mpool =>
    pte.populateTableEvents A begin mpool ++
      match pte.populateTable A mpool with
      | (.ok, .table w entries, mpool) =>
        belowEvents begin entries mpool ++
          match mapBelow begin entries mpool with
          | (.ok, entries, _) =>
            if flags.commit && flags.unmap && isEmpty A entries then
              (PageTableEntry.table w entries).replaceEvents A
                (PageTableEntry.absent A (level + 1)) begin
            else []
          | (.err, _, _) => []
      | _ => []

def mapLevelEvents : (level : Nat) → Nat → RawPageTable level → MPool → List TableEvent
  | 0, begin, self, mpool =>
    forEachTrace (mapPte A endAddr attrs flags 0 fun _ pte mpool => (.err, pte, mpool))
      (mapPteEvents A endAddr attrs flags 0 fun _ _ _ => []) (visits endAddr 0 begin) self mpool
  | level + 1, begin, self, mpool =>
    forEachTrace
      (mapPte A endAddr attrs flags (level + 1)
        (mapSubtable A flags (mapLevel A endAddr attrs flags level)))
      (mapPteEvents A endAddr attrs flags (level + 1)
        (mapSubtableEvents A flags (mapLevel A endAddr attrs flags level) (mapLevelEvents level)))
      (visits endAddr (level + 1) begin) self mpool

end RawPageTable

/-- The events of `defrag` on the entry at `base`: a merged table is overwritten
without break-before-make. -/
def PageTableEntry.defragEvents (A : ArchMm) :
    {level : Nat} → Nat → PageTableEntry level → MPool → List TableEvent
  | _, _, leaf _, _ => []
  | level + 1, base, table w entries, mpool =>
    if A.pteIsBlock w (level + 1) then []
    else
      mapAllTrace (fun pte mpool => pte.defrag A mpool)
          (fun i pte mpool => pte.defragEvents A (slotBase base (entrySize level) i) mpool)
          (List.finRange 512) entries mpool ++
        match (table w entries).defrag A mpool with
        | (_, leaf w', _) => [.write base (leaf w' : PageTableEntry (level + 1))]
        | (_, table _ _, _) => []

namespace PageTable

variable (A : ArchMm) {S : Stage}

def mapRootEvents (self : PageTable S) (begin endAddr : Nat) (attrs : BitVec 64) (flags : Flags)
    (mpool : MPool) : List TableEvent :=
  if index begin S.rootLevel > S.rootTableCount then []
  else
    forEachTrace (RawPageTable.mapLevel A endAddr attrs flags S.maxLevel)
      (RawPageTable.mapLevelEvents A endAddr attrs flags S.maxLevel) (visits S endAddr begin)
      self.tables mpool

def identityUpdateEvents (self : PageTable S) (begin endAddr : Nat) (attrs : BitVec 64)
    (flags : Flags) (mpool : MPool) : List TableEvent :=
  let endAddr := min (roundUpToPage endAddr) S.ptableAddrSpaceEnd
  let begin := A.clearPa begin
  self.mapRootEvents A begin endAddr attrs flags mpool ++
    match self.mapRoot A begin endAddr attrs flags mpool with
    | some (.ok, self, mpool) =>
      self.mapRootEvents A begin endAddr attrs { flags with commit := true } mpool ++
        match self.mapRoot A begin endAddr attrs { flags with commit := true } mpool with
        | some (.ok, _, _) => [.invalidateTlb begin endAddr]
        | _ => []
    | _ => []

def identityMapEvents (self : PageTable S) (begin endAddr : Nat) (mode : Mode) (mpool : MPool) :
    List TableEvent :=
  self.identityUpdateEvents A begin endAddr (S.modeToAttrs A mode) ⟨false, false⟩ mpool

def unmapEvents (self : PageTable S) (begin endAddr : Nat) (mpool : MPool) : List TableEvent :=
  self.identityUpdateEvents A begin endAddr
    (S.modeToAttrs A (Mode.UNOWNED ||| Mode.INVALID ||| Mode.SHARED)) ⟨false, true⟩ mpool

def defragEvents (self : PageTable S) (mpool : MPool) : List TableEvent :=
  mapAllTrace
    (fun (table : RawPageTable S.maxLevel) mpool =>
      mapAll (fun pte mpool => pte.defrag A mpool) (List.finRange 512) table mpool)
    (fun t table mpool =>
      mapAllTrace (fun pte mpool => pte.defrag A mpool)
        (fun i pte mpool => pte.defragEvents A
          (slotBase (S.rootBase t) (entrySize S.maxLevel) i) mpool)
        (List.finRange 512) table mpool)
    (List.finRange S.rootTableCount) self.tables mpool

end PageTable

/-! ## Break-before-make -/

/-- What a CPU may have cached of an entry: the last valid value, and whether the
entry has been absent since. -/
structure Cached where
  value : Pte
  broken : Bool
  deriving DecidableEq, Repr

/-- The cache right after an entry has got a value, or has become reachable with it. -/
def cached (l : Nat) (word : Option Pte) : Option Cached :=
  word.bind fun w => if archMmPteIsValid w l then some ⟨w, false⟩ else none

/-- The value of the entry of level `l` at address `a`, if it is reachable below an
entry at `base`. -/
def PageTableEntry.wordAt (l a : Nat) : {level : Nat} → Nat → PageTableEntry level → Option Pte
  | level, base, leaf w => if level = l ∧ base = a then some w else none
  | level + 1, base, table w entries =>
    if level + 1 = l ∧ base = a then some w
    else (entries ⟨index a level, index_lt a level⟩).wordAt l a
      (slotBase base (entrySize level) (index a level))

def PageTable.wordAt {S : Stage} (l a : Nat) (pt : PageTable S) : Option Pte :=
  if h : a / entrySize S.rootLevel < S.rootTableCount then
    (pt.tables ⟨_, h⟩ ⟨index a S.maxLevel, S.rootIndex_lt a⟩).wordAt l a
      (slotBase (S.rootBase (a / entrySize S.rootLevel)) (entrySize S.maxLevel)
        (index a S.maxLevel))
  else none

/-- How an event changes what a CPU may have cached of the entry of level `l` at
address `a`; `none` if the entry gets a valid value while another may be cached. -/
def observe (l a : Nat) (c : Option Cached) : TableEvent → Option (Option Cached)
  | @TableEvent.write level base pte =>
    if level = l ∧ base = a then
      if archMmPteIsValid pte.inner l then
        match c with
        | some ⟨v, _⟩ => if v = pte.inner then some (some ⟨v, false⟩) else none
        | none => some (some ⟨pte.inner, false⟩)
      else if pte.inner = archMmAbsentPte l then some (c.map fun c => ⟨c.value, true⟩)
      else some c
    else if l < level ∧ base ≤ a ∧ a < base + entrySize level then
      -- the entry is now the one that the new value leads to, if any
      some (cached l (pte.wordAt l a base))
    else some c
  | .invalidateTlb begin endAddr =>
    match c with
    | some ⟨_, true⟩ => if begin ≤ a ∧ a + entrySize l ≤ endAddr then some none else some c
    | c => some c

/-- No reachable entry of a table gets a valid value while another may be cached. -/
def BreakBeforeMake {S : Stage} (pt : PageTable S) (events : List TableEvent) : Prop :=
  ∀ l a, (events.foldlM (observe l a) (cached l (pt.wordAt l a))).isSome = true

end Hafnium
