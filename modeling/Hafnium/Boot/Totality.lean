import Hafnium.Boot.Walk

/-!
# Reading a malformed device tree

Which bytes can be read as a device tree without a panic, and without reading past the
blocks.  The functions are called on the nodes that operations lead to; in a struct
block that can be scanned these are the nodes of the walk.
-/

namespace Hafnium

open Support Except Option

namespace Walk

theorem Reaches.sibling {w v u : Walk} (h : w.Reaches v) (hsibling : v.Sibling u) :
    w.Reaches u := by
  induction hsibling with
  | refl _ => exact h
  | next hnext _ ih => exact ih (h.nextSibling hnext)

theorem Reaches.findFrom {w v : Walk} {name : List Byte} {fuel : Nat}
    {o : Option (List Byte × Walk)} (ho : ∀ n u, o = some (n, u) → w.Reaches u)
    (h : findFrom name fuel o = some v) : w.Reaches v := by
  induction fuel generalizing o with
  | zero => cases o <;> cases h
  | succ fuel ih =>
    obtain _ | ⟨n, u⟩ := o
    · cases h
    · rw [Walk.findFrom] at h
      split at h
      · obtain rfl := some.inj h
        exact ho n u rfl
      · apply ih _ h
        intro n' u' hnext
        exact (ho n u rfl).nextSibling hnext

theorem Reaches.findChild {w v u : Walk} {name : List Byte} (h : w.Reaches v)
    (hfind : v.findChild name = some u) : w.Reaches u := by
  apply Reaches.findFrom _ hfind
  intro n u hchild
  exact h.firstChild hchild

/-- The size in bytes of something whose number of cells is a property. -/
def cellsSize (strs name : List Byte) (w : Walk) : Nat :=
  match (w.property strs name).bind fdtParseNumber with
  | some cells => cells * 4 % 2 ^ 64
  | none => 4

/-- The entries of a node, if it is a device of a type. -/
def deviceReg (strs deviceType : List Byte) (w : Walk) : Option (List Byte) :=
  if w.property strs (ascii "device_type") = some deviceType then w.property strs (ascii "reg")
  else none

end Walk

namespace FdtBlocks

variable {B : FdtBlocks} {pos : Nat} {w v : Walk}

/-! ## Calls on nodes -/

/-- The nodes that operations lead to. -/
inductive Visited (B : FdtBlocks) : Nat → Prop
  | top : Visited B 0
  | visit {pos pos' : Nat} {op : FdtOp} {r : Option (List Byte)} (h : Visited B pos)
      (hvisit : B.visit pos op = .ok (r, pos')) : Visited B pos'

/-- Every call on every node returns, without a panic and without reading past the
blocks. -/
structure Total (B : FdtBlocks) : Prop where
  visit : ∀ {pos}, B.Visited pos → ∀ op, ∃ r, B.visit pos op = .ok r
  readProperty : ∀ {pos}, B.Visited pos → ∀ name, ∃ r, B.readProperty name pos = .ok r
  findInitrd : ∀ {pos}, B.Visited pos → ∃ r, B.findInitrd pos = .ok r
  findCpus : ∀ {pos}, B.Visited pos → ∃ r, B.findCpus pos = .ok r
  findMemoryRanges : ∀ {pos}, B.Visited pos → ∃ r, B.findMemoryRanges pos = .ok r
  manifestInit : ∀ {pos}, B.Visited pos → ∀ p, B.manifestInit pos ≠ .error (.panic p)

/-- What a walk over the struct block has to fulfil besides. -/
structure Sound (B : FdtBlocks) (w : Walk) : Prop where
  /-- The names of properties are terminated in the strings block. -/
  names : ∀ v, w.Reaches v → ∀ p ∈ v.props, 0 ∈ B.strs.drop p.1
  /-- A node `hypervisor` is compatible with something. -/
  compatible : ∀ v u, w.Reaches v → v.findChild (ascii "hypervisor") = some u →
    u.property B.strs (ascii "compatible") ≠ some []
  /-- Whole memory ranges consist of numbers. -/
  memory : ∀ v name first u data, w.Reaches v → v.firstChild = some (name, first) →
    first.Sibling u → u.deviceReg B.strs (asciz "memory") = some data →
      data.length < (v.cellsSize B.strs (ascii "#address-cells") +
          v.cellsSize B.strs (ascii "#size-cells")) % 2 ^ 64 ∨
        CellsFit (v.cellsSize B.strs (ascii "#address-cells"))
          (v.cellsSize B.strs (ascii "#size-cells"))

variable (hB : B.addr % 4 = 0)
include hB

/-! ## A scan of the block -/

theorem scan_of_skipProperties {p fuel : Nat} (hpos : B.Aligned pos)
    (h : loop .loop B.skipPropertiesRound fuel pos = .ok p) :
    B.Aligned p ∧ pos ≤ p ∧ ∀ d w, Scan B .nodes d p w → ∃ v, Scan B .props d pos v := by
  induction fuel generalizing pos with
  | zero => cases h
  | succ fuel ih =>
    obtain hround | ⟨q, hround, hloop⟩ := loop_eq_ok _ h
    · obtain ⟨⟨x, q⟩, hnext, hret⟩ := bind_eq_ok.mp hround
      obtain ⟨r, hstep, rfl⟩ := (nextProperty_eq_ok_iff hB hpos).mp hnext
      cases r with
      | some r => cases ok.inj hret
      | none =>
        obtain rfl : q = p := Sum.inr.inj (ok.inj hret)
        obtain ⟨hq, hle, -⟩ := hstep.bounds hpos
        exact ⟨hq, hle, fun d w hscan => ⟨w, .noProp hstep hscan⟩⟩
    · obtain ⟨⟨x, q'⟩, hnext, hret⟩ := bind_eq_ok.mp hround
      obtain ⟨r, hstep, rfl⟩ := (nextProperty_eq_ok_iff hB hpos).mp hnext
      cases r with
      | none => cases ok.inj hret
      | some r =>
        obtain rfl : q' = q := Sum.inl.inj (ok.inj hret)
        obtain ⟨hq, hle, -⟩ := hstep.bounds hpos
        obtain ⟨hp, hle', hscan⟩ := ih hq hloop
        refine ⟨hp, hle.trans hle', ?_⟩
        intro d w hnodes
        obtain ⟨v, hv⟩ := hscan d w hnodes
        exact ⟨_, .prop hstep hv⟩

omit hB in
theorem NodeStep.none_token {p : Nat} (h : NodeStep B pos none p) : ∃ t q, TokenAt B p t q := by
  cases h with
  | cut _ _ => exact ⟨none, _, .stop (by omega)⟩
  | miss ht _ => exact ⟨_, _, ht.again⟩

theorem scan_of_skipNode {p k fuel : Nat} {found : Bool} (hpos : B.Aligned pos)
    (h : loop .loop B.skipNodeRound fuel (k, pos) = .ok (found, p)) :
    (found = true → B.Aligned p ∧ pos ≤ p) ∧
      ∀ d, (found = true → ∃ w, Scan B .nodes d p w) → ∃ w, Scan B .nodes (d + k) pos w := by
  induction fuel generalizing pos k with
  | zero => cases h
  | succ fuel ih =>
    cases k with
    | zero =>
      rw [loop] at h
      obtain ⟨rfl, rfl⟩ := Prod.mk.inj (Except.ok.inj h)
      exact ⟨fun _ => ⟨hpos, le_rfl⟩, fun d hscan => hscan rfl⟩
    | succ k =>
      have hnext : ∃ x q, B.nextSubnode pos = .ok (x, q) := by
        obtain hround | ⟨s', hround, -⟩ := loop_eq_ok _ h
        · obtain ⟨⟨x, q⟩, hnext, -⟩ := bind_eq_ok.mp hround
          exact ⟨x, q, hnext⟩
        · obtain ⟨⟨x, q⟩, hnext, -⟩ := bind_eq_ok.mp hround
          exact ⟨x, q, hnext⟩
      obtain ⟨x, q, hnext⟩ := hnext
      obtain ⟨r, hstep, rfl⟩ := (nextSubnode_eq_ok_iff hB hpos).mp hnext
      obtain ⟨hq, hle, -⟩ := hstep.bounds hpos
      cases r with
      | some name =>
        cases hskip : B.skipProperties q with
        | error e =>
          have hround : B.skipNodeRound (k + 1, pos) = .error e := by
            rw [skipNodeRound, hnext]
            simp only [bind, Except.bind, map_some, hskip]
          rw [loop, hround] at h
          cases h
        | ok q' =>
          have hround : B.skipNodeRound (k + 1, pos) = .ok (.inl (k + 2, q')) := by
            rw [skipNodeRound, hnext]
            simp only [bind, Except.bind, map_some, hskip]
            rfl
          rw [loop, hround] at h
          obtain ⟨hq', hle', hprops⟩ := scan_of_skipProperties hB hq hskip
          obtain ⟨hp, hscan⟩ := ih hq' h
          refine ⟨fun hfound => ⟨(hp hfound).1, hle.trans (hle'.trans (hp hfound).2)⟩, ?_⟩
          intro d hd
          obtain ⟨w, hw⟩ := hscan d hd
          obtain ⟨v, hv⟩ := hprops _ w hw
          exact ⟨_, .beginNode hstep hv⟩
      | none =>
        cases htoken : B.token q with
        | error e =>
          have hround : B.skipNodeRound (k + 1, pos) = .error e := by
            rw [skipNodeRound, hnext]
            simp only [bind, Except.bind, map_none, htoken]
          rw [loop, hround] at h
          cases h
        | ok r =>
          obtain ⟨t, q', ht⟩ := tokenAt_of_token hB hq htoken
          by_cases hend : t = some .endNode
          · subst hend
            have hround : B.skipNodeRound (k + 1, pos) = .ok (.inl (k, q' + 4)) := by
              rw [skipNodeRound, hnext]
              simp only [bind, Except.bind, map_none, ht.token_eq hB hq]
              rfl
            rw [loop, hround] at h
            have hle' := ht.le
            have hlt := ht.some_le
            have hq' := ht.aligned hq
            rw [Aligned] at hq'
            obtain ⟨hp, hscan⟩ := ih (.inl (by omega)) h
            refine ⟨fun hfound => ⟨(hp hfound).1, by have := (hp hfound).2; omega⟩, ?_⟩
            intro d hd
            obtain ⟨w, hw⟩ := hscan d hd
            exact ⟨_, .endNode hstep ht hw⟩
          · have hround : ∃ p', B.skipNodeRound (k + 1, pos) = .ok (.inr (false, p')) := by
              rw [skipNodeRound, hnext]
              simp only [bind, Except.bind, map_none, ht.token_eq hB hq]
              cases t with
              | none => exact ⟨_, rfl⟩
              | some t =>
                simp only [if_neg fun heq => hend (congrArg some heq)]
                exact ⟨_, rfl⟩
            obtain ⟨p', hround⟩ := hround
            rw [loop, hround] at h
            obtain ⟨rfl, rfl⟩ := Prod.mk.inj (Except.ok.inj h)
            exact ⟨by simp, fun d _ => ⟨[], .stop hstep ht fun heq => absurd heq hend⟩⟩

/-- If no sibling is read with a panic then the block can be scanned. -/
theorem exists_scan (hvisit : ∀ {pos}, B.Visited pos → ∀ op, ∃ r, B.visit pos op = .ok r) :
    ∃ w, Scan B .props 1 0 w := by
  have hscan : ∀ pos, B.Visited pos → B.Aligned pos → ∃ w, Scan B .props 1 pos w := by
    intro pos
    induction hN : B.data.length - pos using Nat.strong_induction_on generalizing pos with
    | _ N ih =>
      intro hvisited hpos
      obtain ⟨r, hr⟩ := hvisit hvisited .nextSibling
      obtain ⟨sibling, hnext, -⟩ := bind_eq_ok.mp hr
      obtain ⟨⟨found, p⟩, hskip, hrest⟩ := bind_eq_ok.mp hnext
      obtain ⟨q, hprops, hloop⟩ := bind_eq_ok.mp hskip
      obtain ⟨hq, hle, hlift⟩ := scan_of_skipProperties hB hpos hprops
      obtain ⟨hp, hnodes⟩ := scan_of_skipNode hB hq hloop
      have hafter : found = true → ∃ w, Scan B .nodes 0 p w := by
        rintro rfl
        obtain ⟨hp, hle'⟩ := hp rfl
        obtain ⟨⟨x, p'⟩, hsub, hret⟩ := bind_eq_ok.mp hrest
        obtain ⟨r, hstep, rfl⟩ := (nextSubnode_eq_ok_iff hB hp).mp hsub
        cases r with
        | none =>
          obtain ⟨t, q', ht⟩ := hstep.none_token
          exact ⟨[], .stop hstep ht fun _ => rfl⟩
        | some name =>
          obtain ⟨hp', -, hprogress⟩ := hstep.bounds hp
          have hlt := hprogress rfl
          have hvisit' : B.visit pos .nextSibling = .ok (some (name ++ [0]), p') := by
            obtain rfl : some (name ++ [0], p') = sibling := ok.inj hret
            rw [FdtBlocks.visit, hnext]
            rfl
          obtain ⟨w, hw⟩ := ih _ (by omega) p' rfl (hvisited.visit hvisit') hp'
          exact ⟨_, .beginNode hstep hw⟩
      obtain ⟨w, hw⟩ := hnodes 0 hafter
      exact hlift _ w hw
  exact hscan 0 .top (.inl rfl)

/-- Operations lead to the nodes of the walk. -/
theorem Visited.atWalk (hw : B.AtWalk 0 w) (h : B.Visited pos) :
    ∃ v, w.Reaches v ∧ B.AtWalk pos v := by
  induction h with
  | top => exact ⟨w, .refl, hw⟩
  | @visit pos pos' op r _ hvisit ih =>
    obtain ⟨v, hv, hat⟩ := ih
    cases op with
    | findChild name =>
      obtain ⟨found, hfind, hrel⟩ := hat.findChild_eq hB name
      rw [FdtBlocks.visit, hfind] at hvisit
      generalize hchild : v.findChild (cstr name) = child at hrel
      cases hrel with
      | none =>
        obtain ⟨-, rfl⟩ := Prod.mk.inj (ok.inj hvisit)
        exact ⟨v, hv, hat⟩
      | some hfound =>
        obtain ⟨-, rfl⟩ := Prod.mk.inj (ok.inj hvisit)
        exact ⟨_, hv.findChild hchild, hfound⟩
    | firstChild =>
      obtain ⟨found, hfirst, hrel⟩ := hat.firstChild_eq hB
      rw [FdtBlocks.visit, hfirst] at hvisit
      generalize hchild : v.firstChild = child at hrel
      cases hrel with
      | none =>
        obtain ⟨-, rfl⟩ := Prod.mk.inj (ok.inj hvisit)
        exact ⟨v, hv, hat⟩
      | some hfound =>
        obtain ⟨-, rfl⟩ := Prod.mk.inj (ok.inj hvisit)
        exact ⟨_, hv.firstChild hchild, hfound.2⟩
    | nextSibling =>
      obtain ⟨found, hnext, hrel⟩ := hat.nextSibling_eq hB
      rw [FdtBlocks.visit, hnext] at hvisit
      generalize hsibling : v.nextSibling = sibling at hrel
      cases hrel with
      | none =>
        obtain ⟨-, rfl⟩ := Prod.mk.inj (ok.inj hvisit)
        exact ⟨v, hv, hat⟩
      | some hfound =>
        obtain ⟨-, rfl⟩ := Prod.mk.inj (ok.inj hvisit)
        exact ⟨_, hv.nextSibling hsibling, hfound.2⟩

/-- Every node of the walk is led to. -/
theorem exists_visited (hw : B.AtWalk 0 w) (h : w.Reaches v) :
    ∃ pos, B.Visited pos ∧ B.AtWalk pos v := by
  induction h with
  | refl => exact ⟨0, .top, hw⟩
  | @firstChild v u name _ hchild ih =>
    obtain ⟨pos, hpos, hat⟩ := ih
    obtain ⟨found, hfirst, hrel⟩ := hat.firstChild_eq hB
    rw [hchild] at hrel
    cases hrel with
    | @some found _ hfound =>
      have hvisit : B.visit pos .firstChild = .ok (some found.1, found.2) := by
        rw [FdtBlocks.visit, hfirst]
        rfl
      exact ⟨found.2, hpos.visit hvisit, hfound.2⟩
  | @nextSibling v u name _ hsibling ih =>
    obtain ⟨pos, hpos, hat⟩ := ih
    obtain ⟨found, hnext, hrel⟩ := hat.nextSibling_eq hB
    rw [hsibling] at hrel
    cases hrel with
    | @some found _ hfound =>
      have hvisit : B.visit pos .nextSibling = .ok (some found.1, found.2) := by
        rw [FdtBlocks.visit, hnext]
        rfl
      exact ⟨found.2, hpos.visit hvisit, hfound.2⟩

theorem AtWalk.visit_returns (h : B.AtWalk pos w) (op : FdtOp) : ∃ r, B.visit pos op = .ok r := by
  cases op with
  | findChild name =>
    obtain ⟨found, hfind, -⟩ := h.findChild_eq hB name
    rw [FdtBlocks.visit, hfind]
    cases found <;> exact ⟨_, rfl⟩
  | firstChild =>
    obtain ⟨found, hfirst, -⟩ := h.firstChild_eq hB
    rw [FdtBlocks.visit, hfirst]
    cases found <;> exact ⟨_, rfl⟩
  | nextSibling =>
    obtain ⟨found, hnext, -⟩ := h.nextSibling_eq hB
    rw [FdtBlocks.visit, hnext]
    cases found <;> exact ⟨_, rfl⟩

/-! ## Devices -/

section Devices

variable {α : Type} {deviceType : List Byte} {entries : List Byte → α → Except FdtPanic (Option α)}

theorem AtWalk.readNumber_eq (h : B.AtWalk pos w) (hnames : ∀ p ∈ w.props, 0 ∈ B.strs.drop p.1)
    {name : List Byte} (hname : 0 ∉ name) :
    B.readNumber (name ++ [0]) pos = .ok ((w.property B.strs name).bind fdtParseNumber) := by
  rw [readNumber, h.readProperty_eq hB hnames, cstr_append_zero hname []]
  rfl

theorem AtWalk.cellsSize_eq (h : B.AtWalk pos w) (hnames : ∀ p ∈ w.props, 0 ∈ B.strs.drop p.1)
    {name : List Byte} (hname : 0 ∉ name) :
    B.cellsSize (name ++ [0]) pos = .ok (w.cellsSize B.strs name) := by
  rw [FdtBlocks.cellsSize, h.readNumber_eq hB hnames hname, Walk.cellsSize]
  cases (w.property B.strs name).bind fdtParseNumber <;> rfl

theorem AtWalk.deviceReg_eq (h : B.AtWalk pos w) (hnames : ∀ p ∈ w.props, 0 ∈ B.strs.drop p.1)
    (deviceType : List Byte) :
    B.deviceReg deviceType pos = .ok (w.deviceReg B.strs deviceType) := by
  have htype : B.readProperty (asciz "device_type") pos =
      .ok (w.property B.strs (ascii "device_type")) := by
    rw [h.readProperty_eq hB hnames, asciz, cstr_append_zero (by decide) []]
  have hreg : B.readProperty (asciz "reg") pos = .ok (w.property B.strs (ascii "reg")) := by
    rw [h.readProperty_eq hB hnames, asciz, cstr_append_zero (by decide) []]
  rw [FdtBlocks.deviceReg, htype, Walk.deviceReg]
  cases w.property B.strs (ascii "device_type") with
  | none => rfl
  | some data =>
    simp only [bind, Except.bind, some.injEq]
    split
    · exact hreg
    · rfl

/-- What a device adds to what was found. -/
def deviceEntries (entries : List Byte → α → Except FdtPanic (Option α)) :
    Option (List Byte) → α → Except FdtPanic (Option α)
  | none, found => .ok (some found)
  | some data, found => entries data found

/-- A round over a device: its entries are read, and the loop goes on with the next
sibling. -/
theorem AtWalk.devicesRound_eq (h : B.AtWalk pos w)
    (hnames : ∀ p ∈ w.props, 0 ∈ B.strs.drop p.1) {sibling : Option (List Byte × Nat)}
    (hnext : B.nextSibling pos = .ok sibling) (found : α) :
    B.devicesRound deviceType entries (pos, found) =
      deviceEntries entries (w.deviceReg B.strs deviceType) found >>= fun found =>
        match found, sibling with
        | none, _ => .ok (.inr none)
        | some found, none => .ok (.inr (some found))
        | some found, some (_, node) => .ok (.inl (node, found)) := by
  rw [devicesRound, h.deviceReg_eq hB hnames]
  cases w.deviceReg B.strs deviceType with
  | none =>
    simp only [bind, Except.bind, deviceEntries, hnext]
    cases sibling <;> rfl
  | some data =>
    simp only [bind, Except.bind, deviceEntries, hnext]
    cases entries data found with
    | error e => rfl
    | ok r => cases r <;> cases sibling <;> rfl

/-- The loop over siblings returns if the entries of all devices do. -/
theorem AtWalk.devices_returns (h : B.AtWalk pos w)
    (hnames : ∀ u, w.Sibling u → ∀ p ∈ u.props, 0 ∈ B.strs.drop p.1)
    (hentries : ∀ u, w.Sibling u → ∀ found : α,
      ∃ r, deviceEntries entries (u.deviceReg B.strs deviceType) found = .ok r)
    (found : α) {fuel : Nat} (hfuel : w.length < fuel) :
    ∃ r, loop .loop (B.devicesRound deviceType entries) fuel (pos, found) = .ok r := by
  induction fuel generalizing w pos found with
  | zero => omega
  | succ fuel ih =>
    obtain ⟨sibling, hnext, hrel⟩ := h.nextSibling_eq hB
    obtain ⟨r, hr⟩ := hentries w (.refl w) found
    have hround : B.devicesRound deviceType entries (pos, found) = _ :=
      h.devicesRound_eq hB (hnames w (.refl w)) hnext found
    rw [hr] at hround
    rw [loop, hround]
    cases r with
    | none => exact ⟨none, rfl⟩
    | some found =>
      generalize hsibling : w.nextSibling = next at hrel
      cases hrel with
      | none => exact ⟨some found, rfl⟩
      | @some node expected hnode =>
        obtain ⟨name, v⟩ := expected
        have hlt := Walk.length_nextSibling hsibling
        refine ih hnode.2 ?_ ?_ found (by change v.length < fuel; omega)
        · intro u hu
          exact hnames u (.next hsibling hu)
        · intro u hu
          exact hentries u (.next hsibling hu)

/-- If the loop returns, and nothing but its end stops it, then the entries of all
devices were read. -/
theorem AtWalk.entries_of_devices (h : B.AtWalk pos w)
    (hnames : ∀ u, w.Sibling u → ∀ p ∈ u.props, 0 ∈ B.strs.drop p.1)
    (hentries : ∀ data found, entries data found ≠ .ok none) {found : α} {r : Option α} {fuel : Nat}
    (hloop : loop .loop (B.devicesRound deviceType entries) fuel (pos, found) = .ok r)
    {u : Walk} (hu : w.Sibling u) {data : List Byte}
    (hdata : u.deviceReg B.strs deviceType = some data) : ∃ found r, entries data found =
      .ok r := by
  induction fuel generalizing w pos found with
  | zero => cases hloop
  | succ fuel ih =>
    obtain ⟨sibling, hnext, hrel⟩ := h.nextSibling_eq hB
    have hround : B.devicesRound deviceType entries (pos, found) = _ :=
      h.devicesRound_eq hB (hnames w (.refl w)) hnext found
    cases hr : deviceEntries entries (w.deviceReg B.strs deviceType) found with
    | error e =>
      rw [hr] at hround
      rw [loop, hround] at hloop
      cases hloop
    | ok r' =>
      cases hu with
      | refl =>
        rw [hdata] at hr
        exact ⟨found, r', hr⟩
      | @next _ v _ name hsibling hu =>
        rw [hsibling] at hrel
        cases hrel with
        | @some node _ hnode =>
          have hsome : r' ≠ none := by
            rintro rfl
            cases hreg : w.deviceReg B.strs deviceType with
            | none =>
              rw [hreg] at hr
              cases hr
            | some data' =>
              rw [hreg] at hr
              exact hentries data' found hr
          obtain ⟨found', rfl⟩ := ne_none_iff_exists'.mp hsome
          rw [hr] at hround
          rw [loop, hround] at hloop
          exact ih hnode.2 (fun u hu => hnames u (.next hsibling hu)) hloop hu

end Devices

/-! ## The functions -/

variable (hnames : ∀ u, w.Reaches u → ∀ p ∈ u.props, 0 ∈ B.strs.drop p.1)
include hnames

theorem AtWalk.findInitrd_returns (h : B.AtWalk pos v) (hv : w.Reaches v) :
    ∃ r, B.findInitrd pos = .ok r := by
  obtain ⟨node, hfind, hrel⟩ := h.findChild_eq hB (asciz "chosen")
  rw [FdtBlocks.findInitrd, hfind]
  generalize hchild : v.findChild (cstr (asciz "chosen")) = child at hrel
  cases hrel with
  | none => exact ⟨none, rfl⟩
  | @some node u hnode =>
    have hread {name : List Byte} (hname : 0 ∉ name) :=
      hnode.readNumber_eq hB (hnames u (hv.findChild hchild)) hname
    have hstart := hread (show 0 ∉ ascii "linux,initrd-start" by decide)
    have hend := hread (show 0 ∉ ascii "linux,initrd-end" by decide)
    simp only [bind, Except.bind, asciz, hstart, hend]
    cases (u.property B.strs (ascii "linux,initrd-start")).bind fdtParseNumber with
    | none => exact ⟨none, rfl⟩
    | some initrdBegin =>
      cases (u.property B.strs (ascii "linux,initrd-end")).bind fdtParseNumber <;> exact ⟨_, rfl⟩

theorem AtWalk.findCpus_returns (h : B.AtWalk pos v) (hv : w.Reaches v) :
    ∃ r, B.findCpus pos = .ok r := by
  obtain ⟨node, hfind, hrel⟩ := h.findChild_eq hB (asciz "cpus")
  rw [FdtBlocks.findCpus, hfind]
  generalize hchild : v.findChild (cstr (asciz "cpus")) = child at hrel
  cases hrel with
  | none => exact ⟨none, rfl⟩
  | @some node u hnode =>
    have hu := hv.findChild hchild
    have hsize : B.cellsSize (asciz "#address-cells") node = _ :=
      hnode.cellsSize_eq hB (hnames u hu) (by decide)
    obtain ⟨first, hfirst, hrel⟩ := hnode.firstChild_eq hB
    simp only [bind, Except.bind, hsize, hfirst]
    generalize hfirstChild : u.firstChild = firstChild at hrel
    cases hrel with
    | none => exact ⟨none, rfl⟩
    | @some first expected hfirstNode =>
      obtain ⟨name, x⟩ := expected
      have hx := hu.firstChild hfirstChild
      obtain ⟨hpos, d, hscan⟩ := hfirstNode.2
      refine hfirstNode.2.devices_returns hB ?_ ?_ [] (hscan.length_lt_fuel hpos)
      · intro y hy
        exact hnames y (hx.sibling hy)
      · intro y _ found
        cases y.deviceReg B.strs (asciz "cpu") with
        | none => exact ⟨_, rfl⟩
        | some data => exact cpuEntries_returns _ data found

/-- The memory ranges are found iff whole ranges consist of numbers. -/
theorem AtWalk.findMemoryRanges_returns_iff (h : B.AtWalk pos v) (hv : w.Reaches v) :
    (∃ r, B.findMemoryRanges pos = .ok r) ↔
      ∀ name first u data, v.firstChild = some (name, first) → first.Sibling u →
        u.deviceReg B.strs (asciz "memory") = some data →
          data.length < (v.cellsSize B.strs (ascii "#address-cells") +
              v.cellsSize B.strs (ascii "#size-cells")) % 2 ^ 64 ∨
            CellsFit (v.cellsSize B.strs (ascii "#address-cells"))
              (v.cellsSize B.strs (ascii "#size-cells")) := by
  have haddress : B.cellsSize (asciz "#address-cells") pos = _ :=
    h.cellsSize_eq hB (hnames v hv) (by decide)
  have hsize : B.cellsSize (asciz "#size-cells") pos = _ :=
    h.cellsSize_eq hB (hnames v hv) (by decide)
  have hlt : v.cellsSize B.strs (ascii "#size-cells") < 2 ^ 64 := by
    rw [Walk.cellsSize]
    split <;> omega
  obtain ⟨first, hfirst, hrel⟩ := h.firstChild_eq hB
  rw [FdtBlocks.findMemoryRanges, haddress]
  simp only [bind, bind, hsize, hfirst]
  generalize hfirstChild : v.firstChild = firstChild at hrel
  cases hrel with
  | none => exact iff_of_true ⟨none, rfl⟩ nofun
  | @some first expected hfirstNode =>
    obtain ⟨name, x⟩ := expected
    have hx := hv.firstChild hfirstChild
    have hsiblings : ∀ y, x.Sibling y → ∀ p ∈ y.props, 0 ∈ B.strs.drop p.1 := by
      intro y hy
      exact hnames y (hx.sibling hy)
    constructor
    · rintro ⟨r, hr⟩ name' first' u data heq hu hdata
      obtain ⟨rfl, rfl⟩ := Prod.mk.inj (some.inj heq)
      have hnone : ∀ data found, memoryEntries (v.cellsSize B.strs (ascii "#address-cells"))
          (v.cellsSize B.strs (ascii "#size-cells")) data found ≠ .ok none := by
        intro data found hnone
        obtain ⟨ranges, hsome⟩ := memoryEntries_of_fits (fits_of_memoryEntries hlt hnone)
        cases hnone.symm.trans hsome
      obtain ⟨found, r', hr'⟩ := hfirstNode.2.entries_of_devices hB hsiblings hnone hr hu hdata
      exact fits_of_memoryEntries hlt hr'
    · intro hfits
      obtain ⟨hpos, d, hscan⟩ := hfirstNode.2
      refine hfirstNode.2.devices_returns hB hsiblings ?_ [] (hscan.length_lt_fuel hpos)
      intro y hy found
      cases hdata : y.deviceReg B.strs (asciz "memory") with
      | none => exact ⟨_, rfl⟩
      | some data =>
        obtain ⟨ranges, hranges⟩ := memoryEntries_of_fits (hfits name x y data rfl hy hdata)
        exact ⟨_, hranges⟩

end FdtBlocks

/-! ## The manifest -/

/-- Parsing the manifest ends with an error or with a result. -/
def NoPanic {α : Type} (x : Except ManifestStop α) : Prop :=
  Post x (fun e => ∃ m, e = .error m) fun _ => True

namespace NoPanic

variable {α β : Type}

theorem ok (a : α) : NoPanic (.ok a) := trivial

theorem error (m : ManifestError) : NoPanic (.error (.error m) : Except ManifestStop α) := ⟨m, rfl⟩

theorem bind {x : Except ManifestStop α} {f : α → Except ManifestStop β} (hx : NoPanic x)
    (hf : ∀ a, NoPanic (f a)) : NoPanic (x >>= f) :=
  Post.bind hx fun a _ => hf a

theorem bind_iff {x : Except ManifestStop α} {f : α → Except ManifestStop β}
    (hf : ∀ a, NoPanic (f a)) : NoPanic (x >>= f) ↔ NoPanic x := by
  cases x with
  | error e => exact Iff.rfl
  | ok a => exact iff_of_true (hf a) trivial

theorem iff_ne {x : Except ManifestStop α} : NoPanic x ↔ ∀ p, x ≠ .error (.panic p) := by
  cases x with
  | ok a => exact iff_of_true trivial nofun
  | error e =>
    cases e with
    | error m => exact iff_of_true ⟨m, rfl⟩ nofun
    | panic p => exact iff_of_false nofun fun h => h p rfl

end NoPanic

namespace FdtBlocks

variable {B : FdtBlocks} {pos : Nat} {w v : Walk} (hB : B.addr % 4 = 0)
include hB

section Values

variable (h : B.AtWalk pos v) (hnames : ∀ p ∈ v.props, 0 ∈ B.strs.drop p.1) (name : List Byte)
include h hnames

theorem AtWalk.readValue_noPanic : NoPanic (B.readValue name pos) := by
  rw [readValue, h.readProperty_eq hB hnames]
  cases v.property B.strs (cstr name) with
  | none => exact .error _
  | some data => exact .ok data

theorem AtWalk.readString_noPanic : NoPanic (B.readString name pos) := by
  apply (h.readValue_noPanic hB hnames name).bind
  intro data
  dsimp only
  split
  · exact .error _
  split
  · exact .error _
  · exact .ok _

theorem AtWalk.readU64_noPanic : NoPanic (B.readU64 name pos) := by
  apply (h.readValue_noPanic hB hnames name).bind
  intro data
  cases fdtParseNumber data with
  | none => exact .error _
  | some value => exact .ok value

theorem AtWalk.readU16_noPanic : NoPanic (B.readU16 name pos) := by
  apply (h.readU64_noPanic hB hnames name).bind
  intro value
  split
  · exact .ok value
  · exact .error _

omit name in
theorem AtWalk.readStringList_noPanic_iff {name : List Byte} (hname : 0 ∉ name) :
    NoPanic (B.readStringList (name ++ [0]) pos) ↔ v.property B.strs name ≠ some [] := by
  rw [readStringList, readValue, h.readProperty_eq hB hnames, cstr_append_zero hname []]
  cases v.property B.strs name with
  | none => exact iff_of_true (.error _) (by simp)
  | some data =>
    cases hlast : data.getLast? with
    | none =>
      rw [List.getLast?_eq_none_iff.mp hlast]
      exact iff_of_false (by rintro ⟨_, ⟨⟩⟩) (not_not.mpr rfl)
    | some last =>
      have hne : data ≠ [] := by
        rintro rfl
        cases hlast
      apply iff_of_true
      · simp only [liftPanic, Except.mapError, bind, Except.bind, pure, Except.pure, hlast]
        split
        · exact .error _
        · exact .ok _
      · intro heq
        exact hne (some.inj heq)

omit name in
theorem AtWalk.manifestVm_noPanic (vmId : Nat) : NoPanic (B.manifestVm pos vmId) := by
  apply (h.readString_noPanic hB hnames _).bind
  intro debugName
  split
  · apply (h.readString_noPanic hB hnames _).bind
    intro kernelFilename
    apply (h.readU64_noPanic hB hnames _).bind
    intro memSize
    apply (h.readU16_noPanic hB hnames _).bind
    intro vcpuCount
    exact .ok _
  · exact .ok _

end Values

variable (hnames : ∀ u, w.Reaches u → ∀ p ∈ u.props, 0 ∈ B.strs.drop p.1)
include hnames

/-- The primary VM is not found twice: the loop comes to its ID in the first round only. -/
theorem AtWalk.manifestVms_noPanic (h : B.AtWalk pos v) (hv : w.Reaches v) {rounds i : Nat}
    {vms : List ManifestVm} {found : Bool} (hfound : i = 0 → found = false) :
    NoPanic (B.manifestVms pos rounds i vms found) := by
  induction rounds generalizing i vms found with
  | zero => exact .ok _
  | succ rounds ih =>
    obtain ⟨node, hfind, hrel⟩ := h.findChild_eq hB (generateVmNodeName (hfVmIdOffset + i))
    rw [manifestVms, hfind]
    generalize hchild : v.findChild (cstr (generateVmNodeName (hfVmIdOffset + i))) = child at hrel
    cases hrel with
    | none => exact .ok _
    | @some node u hnode =>
      have hprimary : ¬(hfVmIdOffset + i = hfPrimaryVmId ∧ found = true) := by
        rintro ⟨hvmId, htrue⟩
        rw [hfPrimaryVmId, Nat.add_eq_left] at hvmId
        rw [hfound hvmId] at htrue
        cases htrue
      simp only [if_neg hprimary]
      change NoPanic (if i = maxVms then _ else _)
      split
      · exact .error _
      · apply (hnode.manifestVm_noPanic hB (hnames u (hv.findChild hchild)) _).bind
        intro vm
        exact ih (by simp)

/-- What follows once the node of the hypervisor has said what it is compatible with. -/
theorem AtWalk.compatible_noPanic (h : B.AtWalk pos v) (hv : w.Reaches v) (list : List Byte) :
    NoPanic (do
      if !StringList.contains list (asciz "hafnium,hafnium") then throw (.error .notCompatible)
      if (← liftPanic (B.findChild (generateVmNodeName 0) pos)).isSome then
        throw (.error .reservedVmId)
      let (vms, foundPrimaryVm) ← B.manifestVms pos (maxVms + 1) 0 [] false
      if !foundPrimaryVm then throw (.error .noPrimaryVm)
      return vms) := by
  obtain ⟨reserved, hreserved, -⟩ := h.findChild_eq hB (generateVmNodeName 0)
  rw [hreserved]
  cases StringList.contains list (asciz "hafnium,hafnium") with
  | false => exact .error _
  | true =>
    cases reserved with
    | some _ => exact .error _
    | none =>
      apply (h.manifestVms_noPanic hB hnames hv fun _ => rfl).bind
      rintro ⟨vms, foundPrimaryVm⟩
      cases foundPrimaryVm with
      | false => exact .error _
      | true => exact .ok vms

/-- Parsing the manifest panics iff the node of the hypervisor is compatible with
nothing at all. -/
theorem AtWalk.manifestInit_noPanic_iff (h : B.AtWalk pos v) (hv : w.Reaches v) :
    NoPanic (B.manifestInit pos) ↔ ∀ u, v.findChild (ascii "hypervisor") = some u →
      u.property B.strs (ascii "compatible") ≠ some [] := by
  obtain ⟨node, hfind, hrel⟩ := h.findChild_eq hB (asciz "hypervisor")
  have hname : cstr (asciz "hypervisor") = ascii "hypervisor" := cstr_append_zero (by decide) []
  rw [manifestInit, hfind]
  rw [hname] at hrel
  generalize hchild : v.findChild (ascii "hypervisor") = child at hrel
  cases hrel with
  | none => exact iff_of_true (.error _) (by simp)
  | @some node u hnode =>
    have hu := hv.findChild hchild
    have hlist := hnode.readStringList_noPanic_iff hB (hnames u hu)
      (show 0 ∉ ascii "compatible" by decide)
    change NoPanic (B.readStringList (ascii "compatible" ++ [0]) node >>= _) ↔ _
    rw [NoPanic.bind_iff (hnode.compatible_noPanic hB hnames hu), hlist]
    constructor
    · intro hne u' heq
      obtain rfl := some.inj heq
      exact hne
    · intro hne
      exact hne u rfl

omit hnames

/-- A struct block can be read without a panic iff it can be scanned to a sound walk. -/
theorem total_iff_sound : B.Total ↔ ∃ w, B.Scan .props 1 0 w ∧ B.Sound w := by
  constructor
  · intro htotal
    obtain ⟨w, hscan⟩ := exists_scan hB htotal.visit
    have hw : B.AtWalk 0 w := ⟨.inl rfl, 0, hscan⟩
    have hnames : ∀ v, w.Reaches v → ∀ p ∈ v.props, 0 ∈ B.strs.drop p.1 := by
      intro v hv
      obtain ⟨pos, hpos, hat⟩ := exists_visited hB hw hv
      exact hat.names_of_readProperty hB (htotal.readProperty hpos)
    refine ⟨w, hscan, hnames, ?_, ?_⟩
    · intro v u hv
      obtain ⟨pos, hpos, hat⟩ := exists_visited hB hw hv
      have hinit := NoPanic.iff_ne.mpr (htotal.manifestInit hpos)
      exact (hat.manifestInit_noPanic_iff hB hnames hv).mp hinit u
    · intro v name first u data hv
      obtain ⟨pos, hpos, hat⟩ := exists_visited hB hw hv
      have hranges := htotal.findMemoryRanges hpos
      exact (hat.findMemoryRanges_returns_iff hB hnames hv).mp hranges name first u data
  · rintro ⟨w, hscan, hnames, hcompatible, hmemory⟩
    have hw : B.AtWalk 0 w := ⟨.inl rfl, 0, hscan⟩
    constructor
    · intro pos hpos op
      obtain ⟨v, hv, hat⟩ := hpos.atWalk hB hw
      exact hat.visit_returns hB op
    · intro pos hpos name
      obtain ⟨v, hv, hat⟩ := hpos.atWalk hB hw
      exact ⟨_, hat.readProperty_eq hB (hnames v hv) name⟩
    · intro pos hpos
      obtain ⟨v, hv, hat⟩ := hpos.atWalk hB hw
      exact hat.findInitrd_returns hB hnames hv
    · intro pos hpos
      obtain ⟨v, hv, hat⟩ := hpos.atWalk hB hw
      exact hat.findCpus_returns hB hnames hv
    · intro pos hpos
      obtain ⟨v, hv, hat⟩ := hpos.atWalk hB hw
      apply (hat.findMemoryRanges_returns_iff hB hnames hv).mpr
      intro name first u data
      exact hmemory v name first u data hv
    · intro pos hpos
      obtain ⟨v, hv, hat⟩ := hpos.atWalk hB hw
      apply NoPanic.iff_ne.mp
      apply (hat.manifestInit_noPanic_iff hB hnames hv).mpr
      intro u
      exact hcompatible v u hv

end FdtBlocks

/-- The bytes of a flattened device tree can be read without a panic, and without
reading past its blocks, iff they can be scanned to a sound walk. -/
theorem fdt_total_iff {mem : Memory} {hdr : Nat} {B : FdtBlocks} (h : fdtNewRoot mem hdr = some B)
    (haligned : (hdr + fdtOffDtStruct mem hdr) % 4 = 0) :
    B.Total ↔ ∃ w, B.Scan .props 1 0 w ∧ B.Sound w := by
  have haddr : B.addr = hdr + fdtOffDtStruct mem hdr := by
    rw [fdtNewRoot] at h
    split at h
    · cases h
    · dsimp only at h
      split at h
      · cases h
      · obtain rfl := some.inj h
        rfl
  apply FdtBlocks.total_iff_sound
  rw [haddr]
  exact haligned

/-- A struct block of words, and a strings block of one word. -/
def wordFdt (words : List Nat) (strs : Nat) : Memory := fun a =>
  ((([fdtMagic, 44 + 4 * words.length, 40, 40 + 4 * words.length, 0, 17, 16, 0, 4,
    4 * words.length] ++ words ++ [strs]).map toBeBytes).flatten).getD a 0

def wordBlocks (words : List Nat) (strs : Nat) : FdtBlocks :=
  ⟨40, (words.map toBeBytes).flatten, toBeBytes strs⟩

/-- A root with a property and a child. -/
def nodeWords : List Nat := [1, 0, 3, 4, 0, 7, 1, 0x62000000, 2, 2, 9]

abbrev nodeBlocks : FdtBlocks := wordBlocks nodeWords 0x61000000

def nodeWalk : Walk :=
  [.beginNode [], .prop 0 [0, 0, 0, 7], .beginNode (ascii "b"), .endNode, .endNode]

theorem scan_nodeWalk : nodeBlocks.Scan .props 1 0 nodeWalk := by
  have htoken : ∀ pos t, pos + 4 ≤ 44 ∧ FdtToken.tryFrom (nodeBlocks.word pos) = some t ∧
      t ≠ .nop → nodeBlocks.TokenAt pos (some t) pos := fun _ _ h => .token h.1 h.2.1 h.2.2
  have hroot := htoken 0 .beginNode (by decide +kernel)
  have hprop := htoken 8 .prop (by decide +kernel)
  have hchild := htoken 24 .beginNode (by decide +kernel)
  have hend := htoken 32 .endNode (by decide +kernel)
  have hend' := htoken 36 .endNode (by decide +kernel)
  have hstop := htoken 40 .fdtEnd (by decide +kernel)
  refine .noProp (.miss hroot nofun) (.beginNode (.hit hroot rfl (by decide) (by decide)) ?_)
  refine .prop (.hit hprop (by decide) (by decide +kernel) (by decide +kernel) (by decide)) ?_
  have hname : nodeBlocks.NodeStep 24 (some (ascii "b")) 32 :=
    .hit hchild rfl (by decide) (by decide)
  refine .noProp (.miss hchild nofun) (.beginNode hname (.noProp (.miss hend nofun) ?_))
  exact .endNode (.miss hend nofun) hend (.endNode (.miss hend' nofun) hend'
    (.stop (.miss hstop nofun) hstop nofun))

theorem fdt_total_iff_nodeWalk :
    fdtNewRoot (wordFdt nodeWords 0x61000000) 0 = some nodeBlocks ∧ nodeBlocks.Total := by
  have hroot : fdtNewRoot (wordFdt nodeWords 0x61000000) 0 = some nodeBlocks := by
    decide +kernel
  have hclosed : ∀ v : Walk, v ∈ nodeWalk.tails →
      (∀ r ∈ v.firstChild, r.2 ∈ nodeWalk.tails) ∧ ∀ r ∈ v.nextSibling, r.2 ∈ nodeWalk.tails := by
    decide
  have hreaches : ∀ v, nodeWalk.Reaches v → v ∈ nodeWalk.tails := by
    intro v hv
    induction hv with
    | refl => decide
    | firstChild _ hchild ih => exact (hclosed _ ih).1 _ hchild
    | nextSibling _ hnext ih => exact (hclosed _ ih).2 _ hnext
  have hnone : ∀ v : Walk, v ∈ nodeWalk.tails → (∀ p ∈ v.props, 0 ∈ nodeBlocks.strs.drop p.1) ∧
      v.findChild (ascii "hypervisor") = none ∧
      v.deviceReg nodeBlocks.strs (asciz "memory") = none := by
    decide +kernel
  refine ⟨hroot, (fdt_total_iff hroot (by decide +kernel)).mpr ⟨nodeWalk, scan_nodeWalk, ?_⟩⟩
  constructor
  · exact fun v hv => (hnone v (hreaches v hv)).1
  · intro v u hv hfind
    cases (hnone v (hreaches v hv)).2.1.symm.trans hfind
  · intro v name first u data hv hfirst hsibling hdata
    have hu := hreaches u ((hv.firstChild hfirst).sibling hsibling)
    cases (hnone u hu).2.2.symm.trans hdata

/-- An unknown token is not refused: it is unwrapped. -/
theorem unknown_token_panics : fdtNewRoot (wordFdt [5] 0) 0 = some (wordBlocks [5] 0) ∧
    (wordBlocks [5] 0).addr % 4 = 0 ∧ ¬(wordBlocks [5] 0).Total := by
  refine ⟨by decide +kernel, by decide, ?_⟩
  intro htotal
  obtain ⟨r, hr⟩ := htotal.visit .top .firstChild
  have hpanic : (wordBlocks [5] 0).firstChild 0 = .error .token := by decide +kernel
  rw [FdtBlocks.visit, hpanic] at hr
  cases hr

end Hafnium
