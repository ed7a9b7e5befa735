import Hafnium.Isolation

/-!
# What the result of a message depends on

Two runs of `spci_msg_send` whose memories agree on the message: the result only depends
on the message, except for memory messages without constituents, which use whatever
is behind the message in the buffer.
-/

namespace Hafnium

open Support Memory Both SpciMemoryShare

/-! ## Transfers do not look at memory -/

namespace Transfer

variable {S H : Stage}

/-- Everything but memory is the same. -/
def SameTables (t t' : Transfer S H) : Prop := t' = { t with mem := t'.mem }

/-- Two runs have the same result and change everything but memory in the same
way. -/
structure Alike {ρ : Type} (t t' : Transfer S H) (r r' : ρ × Transfer S H) : Prop where
  result : r.1 = r'.1
  tables : r.2.SameTables r'.2
  mem : r.2.mem = t.mem
  mem' : r'.2.mem = t'.mem

namespace SameTables

variable {env : Interference} {begin endAddr : Nat} {t t' : Transfer S H}

theorem mapSender {env : Pool → Pool} {mode : Mode} (h : t.SameTables t') :
    Both (t.mapSender env begin endAddr mode) (t'.mapSender env begin endAddr mode)
      (t.Alike t') := by
  obtain ⟨fromPtable, toPtable, hypervisorPtable, mem, pool⟩ := t'
  cases h
  refine bind (.refl fun _ _ => rfl) fun a b hab => ?_
  subst hab
  exact ⟨rfl, rfl, rfl, rfl⟩

theorem mapRecipient {env : Pool → Pool} {mode : Mode} (h : t.SameTables t') :
    Both (t.mapRecipient env begin endAddr mode) (t'.mapRecipient env begin endAddr mode)
      (t.Alike t') := by
  obtain ⟨fromPtable, toPtable, hypervisorPtable, mem, pool⟩ := t'
  cases h
  refine bind (.refl fun _ _ => rfl) fun a b hab => ?_
  subst hab
  exact ⟨rfl, rfl, rfl, rfl⟩

theorem defragSender (h : t.SameTables t') : t.defragSender.SameTables t'.defragSender := by
  obtain ⟨fromPtable, toPtable, hypervisorPtable, mem, pool⟩ := t'
  cases h
  rfl

theorem restoreSender {env : Pool → Pool} {mode : Mode} (h : t.SameTables t') :
    Both (t.restoreSender env begin endAddr mode) (t'.restoreSender env begin endAddr mode)
      fun u u' => u.SameTables u' ∧ u.mem = t.mem ∧ u'.mem = t'.mem := by
  refine bind h.mapSender ?_
  rintro ⟨o, u⟩ ⟨o', u'⟩ ⟨rfl, htables, hmem, hmem'⟩
  cases o with
  | ok => exact ⟨htables, hmem, hmem'⟩
  | err => rfl

theorem complete {origFromMode toMode : Mode} (h : t.SameTables t') :
    Both (t.complete env begin endAddr origFromMode toMode)
      (t'.complete env begin endAddr origFromMode toMode) (t.Alike t') := by
  refine bind h.mapRecipient ?_
  rintro ⟨o, u⟩ ⟨o', u'⟩ ⟨rfl, htables, hmem, hmem'⟩
  refine ite Iff.rfl (fun _ _ => ?_) fun _ _ => ⟨rfl, htables, hmem, hmem'⟩
  refine bind htables.defragSender.restoreSender fun v v' hv => ?_
  exact ⟨rfl, hv.1, hv.2.1.trans hmem, hv.2.2.trans hmem'⟩

/-- The result of sharing memory by a message does not depend on memory. -/
theorem spciShareMemory {constituent : SpciMemoryRegionConstituent} {attributes : Mode}
    {share : SpciMemoryShare} (h : t.SameTables t') :
    Both (Hafnium.spciShareMemory env constituent attributes share t)
      (Hafnium.spciShareMemory env constituent attributes share t') (t.Alike t') := by
  have hcheck : spciMsgCheckTransition t'.toPtable t'.fromPtable share constituent.range.1
      constituent.range.2 attributes = spciMsgCheckTransition t.toPtable t.fromPtable share
        constituent.range.1 constituent.range.2 attributes := by
    rw [h]
  rw [Hafnium.spciShareMemory, Hafnium.spciShareMemory, hcheck]
  split
  · exact ⟨rfl, h, rfl, rfl⟩
  · refine bind h.mapSender ?_
    rintro ⟨o, u⟩ ⟨o', u'⟩ ⟨rfl, htables, hmem, hmem'⟩
    refine ite Iff.rfl (fun _ _ => ⟨rfl, htables, hmem, hmem'⟩) fun _ _ => ?_
    refine bind htables.complete ?_
    rintro ⟨o₂, v⟩ ⟨o₂', v'⟩ ⟨rfl, htables₂, hmem₂, hmem₂'⟩
    exact ⟨rfl, htables₂, hmem₂.trans hmem, hmem₂'.trans hmem'⟩

end SameTables

end Transfer

/-! ## Two runs -/

namespace Hypervisor

variable {M : Machine} {s s' : Hypervisor M} {i j : M.VmIndex} {msg : SpciMessage} {mem : Memory}

/-- Everything but memory is the same. -/
def SameButMem (s s' : Hypervisor M) : Prop := s' = { s with mem := s'.mem }

namespace SameButMem

theorem primaryVCpu {current : VCpuId M} (h : s.SameButMem s') :
    s'.primaryVCpu current = s.primaryVCpu current := by
  rw [h]
  rfl

theorem switchToPrimary {timer : Timer} {current : VCpuId M} {ret : HfVCpuRunReturn}
    {state : VCpuStatus} (h : s.SameButMem s') :
    Both (s.switchToPrimary timer current ret state) (s'.switchToPrimary timer current ret state)
      fun r r' => r.1 = r'.1 ∧ r.2.SameButMem r'.2 := by
  rw [Hypervisor.switchToPrimary, Hypervisor.switchToPrimary, h.primaryVCpu]
  refine bind (.refl fun _ _ => rfl) fun v v' hv => ?_
  subst hv
  refine ⟨rfl, ?_⟩
  rw [h]
  rfl

theorem setMailbox (h : s.SameButMem s') (state : MailboxState) :
    (s.setMailbox j { s.mailbox j with state }).SameButMem
      (s'.setMailbox j { s'.mailbox j with state }) := by
  rw [h]
  rfl

theorem spciMsgNotify {timer : Timer} {current : VCpuId M} (h : s.SameButMem s') :
    Both (s.spciMsgNotify timer i j current) (s'.spciMsgNotify timer i j current)
      fun r r' => r.1 = r'.1 ∧ r.2.SameButMem r'.2 := by
  refine ite Iff.rfl (fun _ _ => ?_) fun _ _ => ?_
  · refine bind (h.setMailbox _).switchToPrimary fun r r' hr => ?_
    exact ⟨congrArg some hr.1, hr.2⟩
  · refine ite Iff.rfl (fun _ _ => ?_) fun _ _ => ⟨rfl, h.setMailbox _⟩
    refine bind (h.setMailbox _).switchToPrimary fun r r' hr => ?_
    exact ⟨congrArg some hr.1, hr.2⟩

theorem waitFor (h : s.SameButMem s') : Both (s.waitFor i j) (s'.waitFor i j) SameButMem := by
  rw [h, Hypervisor.waitFor, Hypervisor.waitFor]
  split
  · exact ite Iff.rfl (fun _ _ => rfl) fun _ _ => rfl
  · rfl

theorem transfer (h : s.SameButMem s') : (s.transfer i j).SameTables (s'.transfer i j) := by
  rw [h]
  rfl

theorem putTransfer (h : s.SameButMem s') {t t' : Transfer M.stage M.hypervisorStage}
    (ht : t.SameTables t') : (s.putTransfer i j t).SameButMem (s'.putTransfer i j t') := by
  rw [h, ht]
  rfl

end SameButMem

/-! ### Agreement on a message -/

/-- The state with another memory. -/
def withMem (mem : Memory) (s : Hypervisor M) : Hypervisor M := { s with mem }

@[simp] theorem withMem_mem (mem : Memory) (s : Hypervisor M) : (s.withMem mem).mem = mem := rfl

@[simp] theorem withMem_mailbox (mem : Memory) (s : Hypervisor M) :
    (s.withMem mem).mailbox = s.mailbox := rfl

theorem sameButMem_withMem (mem : Memory) (s : Hypervisor M) : s.SameButMem (s.withMem mem) := rfl

/-- Memory holds the same message as the state in the send page of a VM. -/
def SameMessage (i : M.VmIndex) (msg : SpciMessage) (s : Hypervisor M) (mem : Memory) : Prop :=
  ∀ k, k < spciMessageSize + msg.length →
    mem ((s.mailbox i).send + k) = s.mem ((s.mailbox i).send + k)

/-- Memory holds the same bytes behind a message in the buffer, where its first
constituent would be. -/
def SameStale (buffer : Nat) (msg : SpciMessage) (s : Hypervisor M) (mem : Memory) : Prop :=
  ∀ k, k < 12 → mem (buffer + msg.length + k) = s.mem (buffer + msg.length + k)

/-- The VM has memory that a message of the given type can transfer. -/
def Movable (i j : M.VmIndex) (share : SpciMemoryShare) (s : Hypervisor M) : Prop :=
  ∃ c : SpciMemoryRegionConstituent, (c.address < 2 ^ 64 ∧ c.pageCount < 2 ^ 32) ∧
    spciMsgCheckTransition (s.ptable j) (s.ptable i) share c.range.1 c.range.2 0 ≠ none

/-- The message declares no constituent and its length matches, so that the first
constituent is looked for behind it; and there is memory to transfer. -/
def Unbacked (i j : M.VmIndex) (msg : SpciMessage) (s : Hypervisor M) : Prop :=
  ∃ share, s.messageType i = some share ∧ s.described i = [] ∧
    msg.length = share.messageLength 0 ∧ s.Movable i j share

/-- Whether a transition is lawful does not depend on the access that it grants. -/
theorem spciMsgCheckTransition_eq_none {S : Stage} {fromPtable toPtable : PageTable S}
    {share : SpciMemoryShare} {begin endAddr : Nat} (attributes attributes' : Mode) :
    spciMsgCheckTransition toPtable fromPtable share begin endAddr attributes = none ↔
      spciMsgCheckTransition toPtable fromPtable share begin endAddr attributes' = none := by
  rw [spciMsgCheckTransition, spciMsgCheckTransition]
  split
  · exact Iff.rfl
  cases fromPtable.getMode aarch64 begin endAddr with
  | none => exact Iff.rfl
  | some origFrom =>
    cases toPtable.getMode aarch64 begin endAddr with
    | none => exact Iff.rfl
    | some origTo =>
      simp only [Option.bind_some, Option.map_eq_none_iff, spciMsgGetNextState,
        List.findSome?_eq_none_iff, ite_eq_right_iff, reduceCtorEq, imp_false]

/-- Sharing is refused if and only if the transition is not lawful. -/
theorem spciShareMemory_refused {S H : Stage} {env : Interference}
    {c : SpciMemoryRegionConstituent} {attributes : Mode} {share : SpciMemoryShare}
    {t t' : Transfer S H}
    (h : spciShareMemory env c attributes share t = .ok (.invalidParameters, t')) :
    spciMsgCheckTransition t.toPtable t.fromPtable share c.range.1 c.range.2 attributes = none := by
  rw [spciShareMemory] at h
  split at h
  · assumption
  · obtain ⟨⟨o, u⟩, -, h⟩ := bind_eq_ok.mp h
    dsimp only at h
    split at h
    · cases h
    · obtain ⟨⟨o', u'⟩, -, h⟩ := bind_eq_ok.mp h
      dsimp only at h
      split at h <;> cases h

theorem spciShareMemory_of_not_movable {env : Interference} {c : SpciMemoryRegionConstituent}
    {attributes : Mode} {share : SpciMemoryShare} (h : ¬s.Movable i j share)
    (hs' : s.SameButMem s') (hc : c.address < 2 ^ 64 ∧ c.pageCount < 2 ^ 32) :
    spciShareMemory env c attributes share (s'.transfer i j) =
      .ok (.invalidParameters, s'.transfer i j) := by
  have hnone : spciMsgCheckTransition (s'.transfer i j).toPtable (s'.transfer i j).fromPtable share
      c.range.1 c.range.2 attributes = none := by
    rw [hs', spciMsgCheckTransition_eq_none attributes 0]
    by_contra hne
    exact h ⟨c, hc, hne⟩
  rw [spciShareMemory, hnone]

namespace SameMessage

theorem field_eq (hsame : s.SameMessage i msg mem) {off n : Nat} (h : off + n ≤ spciMessageSize) :
    readLe ((s.withMem mem).header i) off n = readLe (s.header i) off n :=
  readLe_congr fun k hk => hsame (off + k) (by omega)

theorem check_alike (hsame : s.SameMessage i msg mem) :
    Both (s.spciMsgSendCheck i) ((s.withMem mem).spciMsgSendCheck i)
      fun o o' => o.map Prod.snd = o'.map Prod.snd := by
  have hsource : ((s.withMem mem).header i).sourceVmId = (s.header i).sourceVmId :=
    hsame.field_eq (by decide)
  have hlength : ((s.withMem mem).header i).length = (s.header i).length :=
    hsame.field_eq (by decide)
  have htarget : ((s.withMem mem).header i).targetVmId = (s.header i).targetVmId :=
    hsame.field_eq (by decide)
  rw [header, header] at hsource hlength htarget
  rw [spciMsgSendCheck, spciMsgSendCheck]
  refine ite Iff.rfl (fun _ _ => rfl) fun _ _ => ?_
  refine ite (by rw [← hsource]) (fun _ _ => rfl) fun _ _ => ?_
  refine ite (by rw [← hlength]) (fun _ _ => rfl) fun _ _ => ?_
  refine ite (by rw [← htarget]) (fun _ _ => rfl) fun _ _ => ?_
  erw [htarget]
  refine bind (.refl fun _ _ => rfl) fun o o' ho => ?_
  subst ho
  cases o <;> rfl

variable (haccepted : s.Accepted i msg j) (hsame : s.SameMessage i msg mem)
include haccepted hsame

theorem length_eq : ((s.withMem mem).header i).length = msg.length := by
  rw [haccepted.header]
  exact hsame.field_eq (by decide)

theorem isImpdef_eq : ((s.withMem mem).header i).isImpdef = msg.isImpdef := by
  rw [SpciMessage.isImpdef, SpciMessage.isImpdef, haccepted.header]
  exact congrArg (fun f => f % 2 == 1) (hsame.field_eq (by decide))

theorem accepted : (s.withMem mem).Accepted i ((s.withMem mem).header i) j where
  send := haccepted.send
  header := rfl
  source := by
    rw [← haccepted.source, haccepted.header]
    exact hsame.field_eq (by decide)
  length := by
    rw [hsame.length_eq haccepted]
    exact haccepted.length
  target := by
    rw [← haccepted.target, haccepted.header]
    exact hsame.field_eq (by decide)
  ne := haccepted.ne

theorem staged_eq (buffer : Nat) {off n : Nat} (h : off + n ≤ msg.length) :
    ((s.withMem mem).staged i buffer ((s.withMem mem).header i)).mem.readLe (buffer + off) n =
      (s.staged i buffer msg).mem.readLe (buffer + off) n := by
  rw [staged_readLe _ _ _ _ (by rwa [hsame.length_eq haccepted]), staged_readLe _ _ _ _ h]
  refine readLe_congr fun k hk => ?_
  have hbyte := hsame (spciMessageSize + (off + k)) (by omega)
  rw [← Nat.add_assoc, ← Nat.add_assoc] at hbyte
  exact hbyte

/-- Behind the message nothing has been staged. -/
theorem stale_eq {buffer : Nat} (hstale : s.SameStale buffer msg mem) {off n : Nat}
    (hlo : msg.length ≤ off) (hhi : off + n ≤ msg.length + 12) :
    ((s.withMem mem).staged i buffer ((s.withMem mem).header i)).mem.readLe (buffer + off) n =
      (s.staged i buffer msg).mem.readLe (buffer + off) n := by
  refine readLe_congr fun k hk => ?_
  have hlength := hsame.length_eq haccepted
  rw [staged_mem, staged_mem, copy, copy, write_of_not_mem (by omega), write_of_not_mem (by omega)]
  have hbyte := hstale (off - msg.length + k) (by omega)
  rw [show buffer + msg.length + (off - msg.length + k) = buffer + off + k by omega] at hbyte
  exact hbyte

variable (buffer : Nat) (share : SpciMemoryShare)

/-- The lengths match the numbers of constituents in both runs or in none. -/
theorem count_iff : msg.length = share.messageLength (((s.withMem mem).staged i buffer
        ((s.withMem mem).header i)).regionAt buffer share).count ↔
      msg.length = share.messageLength ((s.staged i buffer msg).regionAt buffer share).count := by
  by_cases hlength : share.regionOffset + 8 ≤ msg.length
  · have hcount := hsame.staged_eq haccepted buffer
      (show share.regionOffset + 4 + 4 ≤ msg.length by omega)
    rw [← Nat.add_assoc] at hcount
    exact iff_of_eq (congrArg (fun n => msg.length = share.messageLength n) hcount)
  · rw [messageLength, messageLength, spciMemoryRegionSize]
    omega

/-- The access that a message grants is part of it. -/
theorem attributes_eq (hcount : msg.length =
      share.messageLength ((s.staged i buffer msg).regionAt buffer share).count) :
    share.attributes ((s.withMem mem).staged i buffer ((s.withMem mem).header i)).mem buffer =
      share.attributes (s.staged i buffer msg).mem buffer := by
  cases share with
  | lend =>
    have hlength : 8 + 2 + 2 ≤ msg.length := by
      rw [hcount]
      exact Nat.le_trans (by decide) (Nat.le_add_right _ _)
    have hread := hsame.staged_eq haccepted buffer hlength
    rw [← Nat.add_assoc] at hread
    exact congrArg spciMemoryAttrsToMode hread
  | donate | relinquish => rfl

/-- The first constituent is part of the message, or behind it. -/
theorem constituent_eq (hcount : msg.length =
      share.messageLength ((s.staged i buffer msg).regionAt buffer share).count)
    (hstale : ((s.staged i buffer msg).regionAt buffer share).count = 0 →
      s.SameStale buffer msg mem) :
    (((s.withMem mem).staged i buffer ((s.withMem mem).header i)).regionAt buffer
        share).constituent =
      ((s.staged i buffer msg).regionAt buffer share).constituent := by
  have hread : ∀ {off n : Nat}, off + n ≤ 12 →
      ((s.withMem mem).staged i buffer ((s.withMem mem).header i)).mem.readLe
          (buffer + (share.regionOffset + 8 + off)) n =
        (s.staged i buffer msg).mem.readLe (buffer + (share.regionOffset + 8 + off)) n := by
    intro off n h
    generalize ((s.staged i buffer msg).regionAt buffer share).count = count at hcount hstale
    cases count with
    | zero =>
      refine hsame.stale_eq haccepted (hstale rfl) ?_ ?_ <;>
        rw [hcount, messageLength, spciMemoryRegionSize] <;> omega
    | succ count =>
      refine hsame.staged_eq haccepted buffer ?_
      rw [hcount, messageLength, spciMemoryRegionSize,
        spciMemoryRegionConstituentSize]
      omega
  have haddress := hread (show 0 + 8 ≤ 12 by decide)
  have hpages := hread (show 8 + 4 ≤ 12 by decide)
  simp only [← Nat.add_assoc, Nat.add_zero] at haddress hpages
  rw [regionAt, regionAt, SpciMemoryRegion.read, SpciMemoryRegion.read,
    SpciMemoryRegionConstituent.mk.injEq]
  exact ⟨haddress, hpages⟩

theorem spciMsgShareMemory {env : Env} (hmin : spciArchitectedMessageHeaderSize ≤ msg.length)
    (hstale : ((s.staged i buffer msg).regionAt buffer share).count = 0 →
      msg.length = share.messageLength 0 →
      s.SameStale buffer msg mem ∨ ¬s.Movable i j share) :
    Both ((s.staged i buffer msg).spciMsgShareMemory env i j buffer msg.length share)
      (((s.withMem mem).staged i buffer ((s.withMem mem).header i)).spciMsgShareMemory env i j
        buffer ((s.withMem mem).header i).length share)
      fun r r' => r.1 = r'.1 ∧ r.2.SameButMem r'.2 := by
  have hmax : msg.length < 2 ^ 32 := Nat.lt_of_le_of_lt haccepted.length (by decide)
  have hbut : (s.staged i buffer msg).SameButMem
      ((s.withMem mem).staged i buffer ((s.withMem mem).header i)) := rfl
  rw [hsame.length_eq haccepted, spciMsgShareMemory_eq env haccepted.ne buffer hmin hmax,
    spciMsgShareMemory_eq env haccepted.ne buffer hmin hmax]
  refine ite (not_congr (hsame.count_iff haccepted buffer share).symm)
    (fun _ _ => ⟨rfl, hbut⟩) fun hcount _ => ?_
  have hcount := not_not.mp hcount
  have hattributes := hsame.attributes_eq haccepted buffer share hcount
  by_cases hmovable : ((s.staged i buffer msg).regionAt buffer share).count = 0 ∧
      ¬s.Movable i j share
  · -- neither constituent can be transferred
    have hstaged : s.SameButMem (s.staged i buffer msg) := rfl
    have hstaged' : s.SameButMem
      ((s.withMem mem).staged i buffer ((s.withMem mem).header i)) := rfl
    rw [spciShareMemory_of_not_movable hmovable.2 hstaged (regionAt_bounds _ _ _),
      spciShareMemory_of_not_movable hmovable.2 hstaged' (regionAt_bounds _ _ _)]
    exact ⟨rfl, hbut.putTransfer hbut.transfer⟩
  · have hconstituent := hsame.constituent_eq haccepted buffer share hcount fun hzero =>
      (hstale hzero (by rw [hcount, hzero])).resolve_right fun h => hmovable ⟨hzero, h⟩
    rw [hconstituent, hattributes]
    refine bind hbut.transfer.spciShareMemory fun r r' hr => ?_
    exact ⟨hr.result, hbut.putTransfer hr.tables⟩

end SameMessage

/-- The outcome of a delivery only depends on the message, unless the first
constituent is looked for behind it. -/
theorem SameMessage.deliver {env : Env} {current : VCpuId M} (haccepted : s.Accepted i msg j)
    (hsame : s.SameMessage i msg mem)
    (hstale : msg.isImpdef = false → s.Unbacked i j msg → ∀ buffer,
      s.cpuGetBuffer current = .ok buffer → s.SameStale buffer msg mem) :
    Both (s.deliver env i j msg current)
      ((s.withMem mem).deliver env i j ((s.withMem mem).header i) current)
      fun r r' => r.1 = r'.1 ∧ r.2.SameButMem r'.2 := by
  rw [Hypervisor.deliver, Hypervisor.deliver, hsame.isImpdef_eq haccepted]
  refine ite Iff.rfl (fun _ _ => ⟨rfl, rfl⟩) fun harch _ => ?_
  have hstale := hstale (Bool.eq_false_of_not_eq_true harch)
  refine bind (R := fun b b' => b = b' ∧ s.cpuGetBuffer current = .ok b)
    (.refl fun b hb => ⟨rfl, hb⟩) ?_
  rintro buffer _ ⟨rfl, hbuffer⟩
  refine ite (by rw [hsame.length_eq haccepted]) (fun _ _ => ⟨rfl, rfl⟩) fun _ _ => ?_
  refine ite (by rw [hsame.length_eq haccepted]) (fun _ _ => ⟨rfl, rfl⟩) fun hmin _ => ?_
  have hmin := Nat.not_lt.mp hmin
  have htype := hsame.staged_eq haccepted buffer (show 0 + 2 ≤ msg.length from
    Nat.le_trans (by decide) hmin)
  rw [Nat.add_zero] at htype
  refine bind (R := fun share share' => share = share' ∧
    ofCode ((s.staged i buffer msg).mem.readLe buffer 2) = some share) ?_ ?_
  · refine (congrArg (fun code => Both _ (orPanic .undefined (ofCode code)) _)
      htype).mpr ?_
    exact .refl fun share h => ⟨rfl, orPanic_eq_ok.mp h⟩
  rintro share _ ⟨rfl, hshare⟩
  refine bind (hsame.spciMsgShareMemory haccepted buffer share hmin fun hzero hlength => ?_)
    fun r r' hr => ⟨hr.1, ?_⟩
  · by_cases hmovable : s.Movable i j share
    · refine Or.inl (hstale ⟨share, messageType_eq hmin hshare, ?_, hlength, hmovable⟩ buffer
        hbuffer)
      rw [described_eq hmin hshare (by rw [hlength, hzero]), hzero]
      rfl
    · exact Or.inr hmovable
  have hbut := hr.2
  rw [SameButMem] at hbut ⊢
  rw [hbut]

/-- The outcome of sending a message only depends on the message, unless the first
constituent is looked for behind it. -/
theorem SameMessage.spciMsgSend {env : Env} {notify : Bool} {current : VCpuId M}
    (haccepted : s.Accepted current.vm msg j) (hsame : s.SameMessage current.vm msg mem)
    (hstale : (s.mailbox j).isReady = true → msg.isImpdef = false → s.Unbacked current.vm j msg →
      ∀ buffer, s.cpuGetBuffer current = .ok buffer → s.SameStale buffer msg mem) :
    Both (s.spciMsgSend env notify current) ((s.withMem mem).spciMsgSend env notify current)
      fun r r' => r.1 = r'.1 ∧ r.2.SameButMem r'.2 := by
  have hbut := s.sameButMem_withMem mem
  rw [Hypervisor.spciMsgSend, Hypervisor.spciMsgSend, spciMsgSendCheck_eq_some.mpr haccepted,
    spciMsgSendCheck_eq_some.mpr (hsame.accepted haccepted)]
  refine ite Iff.rfl (fun _ _ => ?_) fun hready _ => ?_
  · refine ite Iff.rfl (fun _ _ => ?_) fun _ _ => ⟨rfl, hbut⟩
    exact bind hbut.waitFor fun _ _ h => ⟨rfl, h⟩
  refine bind (hsame.deliver haccepted (hstale (Mailbox.isReady_iff.mpr hready))) ?_
  rintro ⟨ret, s₁⟩ ⟨ret', s₁'⟩ ⟨hret, hbut₁⟩
  dsimp only at hret hbut₁
  subst hret
  refine ite Iff.rfl (fun _ _ => ⟨rfl, hbut₁⟩) fun _ _ => ?_
  exact bind hbut₁.spciMsgNotify fun r r' hr => ⟨by rw [hr.1], hr.2⟩

/-! ### Stale constituents -/

section Stale

variable {env : Env} {notify : Bool} {current : VCpuId M} {buffer : Nat} {share : SpciMemoryShare}

variable {c : SpciMemoryRegionConstituent}

/-- A message without constituents is refused if and only if the constituent that
is found behind it cannot be transferred. -/
theorem refused_iff (haccepted : s.Accepted current.vm msg j)
    (hready : (s.mailbox j).isReady = true) (harch : msg.isImpdef = false)
    (hbuffer : s.cpuGetBuffer current = .ok buffer)
    (hmin : spciArchitectedMessageHeaderSize ≤ msg.length)
    (htype : ofCode ((s.staged current.vm buffer msg).mem.readLe buffer 2) =
      some share)
    (hcount : msg.length =
      share.messageLength ((s.staged current.vm buffer msg).regionAt buffer share).count)
    (hc : ((s.staged current.vm buffer msg).regionAt buffer share).constituent = c) :
    (∃ next s', s.spciMsgSend env notify current = .ok ((.invalidParameters, next), s')) ↔
      spciMsgCheckTransition (s.ptable j) (s.ptable current.vm) share c.range.1 c.range.2 0 =
        none := by
  constructor
  · rintro ⟨next, s', hsend⟩
    cases spciMsgSend_cases hsend with
    | refused check =>
      rw [spciMsgSendCheck_eq_some.mpr haccepted] at check
      cases check
    | failed check _ delivery _ =>
      obtain ⟨rfl, rfl⟩ := haccepted.unique (spciMsgSendCheck_eq_some.mp check)
      cases delivery with
      | short _ length => exact absurd hmin (Nat.not_le.mpr length)
      | mismatch _ _ hbuffer' type count =>
        cases hbuffer.symm.trans hbuffer'
        cases htype.symm.trans type
        exact absurd hcount count
      | shared _ _ hbuffer' type _ call =>
        cases hbuffer.symm.trans hbuffer'
        cases htype.symm.trans type
        rw [hc] at call
        exact (spciMsgCheckTransition_eq_none _ 0).mp (spciShareMemory_refused call)
  · intro hnone
    have hshare : spciShareMemory env.pool c
        (share.attributes (s.staged current.vm buffer msg).mem buffer) share
        ((s.staged current.vm buffer msg).transfer current.vm j) =
          .ok (.invalidParameters, (s.staged current.vm buffer msg).transfer current.vm j) := by
      rw [spciShareMemory]
      erw [(spciMsgCheckTransition_eq_none _ 0).mpr hnone]
    have hcall : (s.staged current.vm buffer msg).spciMsgShareMemory env current.vm j buffer
        msg.length share = .ok (.invalidParameters,
          (s.staged current.vm buffer msg).putTransfer current.vm j
            ((s.staged current.vm buffer msg).transfer current.vm j)) := by
      have hmax : msg.length < 2 ^ 32 := Nat.lt_of_le_of_lt haccepted.length (by decide)
      rw [spciMsgShareMemory_eq env haccepted.ne buffer hmin hmax,
        if_neg (not_not.mpr hcount), hc, hshare]
      rfl
    exact ⟨none, _, spciMsgSend_failed haccepted hready (by simp)
      (deliver_architected harch haccepted.length hmin hbuffer htype hcall)⟩

/-- Memory with a constituent behind a message in the buffer. -/
def planted (buffer : Nat) (msg : SpciMessage) (c : SpciMemoryRegionConstituent)
    (s : Hypervisor M) : Memory :=
  (s.mem.write (buffer + msg.length) 8 (leByte c.address)).write
    (buffer + msg.length + 8) 4 (leByte c.pageCount)

theorem planted_of_not_mem {a : Nat}
    (h : ¬(buffer + msg.length ≤ a ∧ a < buffer + msg.length + 12)) :
    s.planted buffer msg c a = s.mem a := by
  rw [planted, write_of_not_mem (by omega), write_of_not_mem (by omega)]

theorem sameMessage_planted (hlength : msg.length ≤ 24)
    (hpages : (s.mailbox i).send + pageSize ≤ buffer ∨ buffer + pageSize ≤ (s.mailbox i).send) :
    s.SameMessage i msg (s.planted buffer msg c) := by
  intro k hk
  rw [pageSize_eq] at hpages
  rw [spciMessageSize] at hk
  exact planted_of_not_mem (by omega)

/-- The planted constituent is what a message without constituents transfers. -/
theorem planted_constituent (hc : c.address < 2 ^ 64 ∧ c.pageCount < 2 ^ 32) {msg' : SpciMessage}
    (hlength : msg.length = share.messageLength 0) (hmsg : msg'.length = msg.length) :
    (((s.withMem (s.planted buffer msg c)).staged i buffer msg').regionAt buffer
      share).constituent = c := by
  have hstart : buffer + share.regionOffset + 8 = buffer + msg.length := by
    rw [hlength]
    rfl
  have hbehind : ∀ k, ((s.withMem (s.planted buffer msg c)).staged i buffer msg').mem
      (buffer + msg.length + k) = s.planted buffer msg c (buffer + msg.length + k) := by
    intro k
    rw [staged_mem, copy, write_of_not_mem (by omega)]
    rfl
  have haddress : ((s.withMem (s.planted buffer msg c)).staged i buffer msg').mem.readLe
      (buffer + msg.length) 8 = c.address := by
    refine readLe_of_leByte hc.1 fun k hk => ?_
    rw [hbehind, planted, write_of_not_mem (by omega),
      write_of_mem (by omega) (by omega), Nat.add_sub_cancel_left]
  have hpages : ((s.withMem (s.planted buffer msg c)).staged i buffer msg').mem.readLe
      (buffer + msg.length + 8) 4 = c.pageCount := by
    refine readLe_of_leByte hc.2 fun k hk => ?_
    rw [Nat.add_assoc, hbehind, ← Nat.add_assoc, planted,
      write_of_mem (by omega) (by omega), Nat.add_sub_cancel_left]
  rw [← hstart] at haddress hpages
  rw [regionAt, SpciMemoryRegion.read]
  exact congrArg₂ SpciMemoryRegionConstituent.mk haddress hpages

/-- The message in the send page of a VM is an architected one that is delivered
and has its first constituent read from behind it. -/
def Exposed (current : VCpuId M) (s : Hypervisor M) : Prop :=
  ∃ msg j, s.Accepted current.vm msg j ∧ msg.isImpdef = false ∧ (s.mailbox j).isReady = true ∧
    s.Unbacked current.vm j msg ∧ ∃ buffer, s.cpuGetBuffer current = .ok buffer

/-- Whether the planted constituent can be transferred decides over the result. -/
theorem planted_refused_iff (haccepted : s.Accepted current.vm msg j)
    (hready : (s.mailbox j).isReady = true) (harch : msg.isImpdef = false)
    (hbuffer : s.cpuGetBuffer current = .ok buffer)
    (htype : s.messageType current.vm = some share) (hnil : s.described current.vm = [])
    (hlength : msg.length = share.messageLength 0)
    (hpages : (s.mailbox current.vm).send + pageSize ≤ buffer ∨
      buffer + pageSize ≤ (s.mailbox current.vm).send)
    (hc : c.address < 2 ^ 64 ∧ c.pageCount < 2 ^ 32) :
    (∃ next s', (s.withMem (s.planted buffer msg c)).spciMsgSend env notify current =
        .ok ((.invalidParameters, next), s')) ↔
      spciMsgCheckTransition (s.ptable j) (s.ptable current.vm) share c.range.1 c.range.2 0 =
        none := by
  have hshort : 8 ≤ msg.length ∧ msg.length ≤ 24 := by
    rw [hlength]
    cases share <;> decide
  have hsame : s.SameMessage current.vm msg (s.planted buffer msg c) :=
    sameMessage_planted hshort.2 hpages
  have hlength' := hsame.length_eq haccepted
  have htype' := hsame.staged_eq haccepted buffer (show 0 + 2 ≤ msg.length by omega)
  rw [Nat.add_zero] at htype'
  have hcount : msg.length = share.messageLength
      ((s.staged current.vm buffer msg).regionAt buffer share).count := by
    rw [staged_count htype (by rw [hlength, messageLength]; omega), hnil]
    exact hlength
  refine refused_iff (hsame.accepted haccepted) hready ?_ hbuffer ?_ ?_ ?_
    (planted_constituent hc hlength hlength')
  · rw [hsame.isImpdef_eq haccepted, harch]
  · rw [hlength']
    exact hshort.1
  · rw [htype', staged_type hshort.1, htype]
  · rw [hlength']
    exact (hsame.count_iff haccepted buffer share).mpr hcount

/-- The outcome of `spci_msg_send` is a function of the message, of whatever is in
the send page behind it and in the buffer, if and only if the message is not one
that has its first constituent read from behind it. -/
theorem outcome_of_message_iff
    (hpages : ∀ buffer, s.cpuGetBuffer current = .ok buffer →
      (s.mailbox current.vm).send + pageSize ≤ buffer ∨
        buffer + pageSize ≤ (s.mailbox current.vm).send) :
    (∀ mem, s.SameMessage current.vm (s.header current.vm) mem →
        (∀ a, mem a ≠ s.mem a →
          ((s.mailbox current.vm).send ≤ a ∧ a < (s.mailbox current.vm).send + pageSize) ∨
          ∃ buffer, s.cpuGetBuffer current = .ok buffer ∧ buffer ≤ a ∧ a < buffer + pageSize) →
        Both (s.spciMsgSend env notify current) ((s.withMem mem).spciMsgSend env notify current)
          fun r r' => r.1.1 = r'.1.1 ∧ r.2.ptable = r'.2.ptable) ↔
      ¬s.Exposed current := by
  constructor
  · rintro hall ⟨msg, j, haccepted, harch, hready, ⟨share, htype, hnil, hlength, c, hc, hmovable⟩,
      buffer, hbuffer⟩
    obtain rfl := haccepted.header
    have hpage := hpages buffer hbuffer
    have hshort : (s.header current.vm).length ≤ 24 := by
      refine hlength.le.trans ?_
      cases share <;> decide
    have hplanted : ∀ c, Both (s.spciMsgSend env notify current)
        ((s.withMem (s.planted buffer (s.header current.vm) c)).spciMsgSend env notify current)
          fun r r' => r.1.1 = r'.1.1 ∧ r.2.ptable = r'.2.ptable := by
      intro c
      refine hall _ (sameMessage_planted hshort hpage) fun a ha => Or.inr ⟨buffer, hbuffer, ?_⟩
      rw [pageSize_eq]
      have hbehind := not_not.mp (mt planted_of_not_mem ha)
      omega
    -- an unaligned address behind the message is refused
    have hunaligned : spciMsgCheckTransition (s.ptable j) (s.ptable current.vm) share 1 1 0 =
        none := if_pos (by decide)
    obtain ⟨next, s₀, hsend₀⟩ := (planted_refused_iff (c := ⟨1, 0⟩) haccepted hready harch hbuffer
      htype hnil hlength hpage ⟨by decide, by decide⟩).mpr hunaligned
    obtain ⟨⟨⟨ret, next₁⟩, s₁⟩, hsend₁, hret₁, -⟩ := (hplanted ⟨1, 0⟩).of_ok hsend₀
    obtain ⟨⟨⟨ret', next₂⟩, s₂⟩, hsend₂, hret₂, -⟩ := (hplanted c).of_ok_left hsend₁
    dsimp only at hret₁ hret₂
    subst hret₁
    subst hret₂
    exact hmovable ((planted_refused_iff haccepted hready harch hbuffer htype hnil hlength hpage
      hc).mp ⟨next₂, s₂, hsend₂⟩)
  · intro hexposed mem hsame _
    have hcheck := hsame.check_alike
    cases hmsg : s.spciMsgSendCheck current.vm with
    | error p =>
      rw [spciMsgSend, spciMsgSend, hmsg]
      cases hmsg' : (s.withMem mem).spciMsgSendCheck current.vm with
      | error p' =>
        rw [hmsg, hmsg'] at hcheck
        exact hcheck
      | ok o =>
        rw [hmsg, hmsg'] at hcheck
        exact hcheck.elim
    | ok o =>
      cases o with
      | none =>
        obtain ⟨o, hmsg', ho⟩ := hcheck.of_ok_left hmsg
        obtain rfl := Option.map_eq_none_iff.mp ho.symm
        rw [spciMsgSend, spciMsgSend, hmsg, hmsg']
        exact ⟨rfl, rfl⟩
      | some o =>
        obtain ⟨msg, j⟩ := o
        have haccepted := spciMsgSendCheck_eq_some.mp hmsg
        obtain rfl := haccepted.header
        refine Both.mono (hsame.spciMsgSend haccepted fun hready harch hunbacked buffer hbuffer =>
          absurd ⟨_, j, haccepted, harch, hready, hunbacked, buffer, hbuffer⟩ hexposed) ?_
        rintro r r' ⟨hret, hbut⟩
        rw [hret, hbut]
        exact ⟨rfl, rfl⟩

end Stale

end Hypervisor

/-! ## Examples -/

theorem cpuGetBuffer_ownerState (mem : Memory) {buffer : Nat}
    (h : (ownerState mem).cpuGetBuffer (exampleVCpu 1) = .ok buffer) : buffer = 0x80000 := by
  rw [show (ownerState mem).cpuGetBuffer (exampleVCpu 1) = .ok 0x80000 from rfl] at h
  cases h
  rfl

/-- A byte behind the donation of a page does not matter. -/
theorem outcome_of_donation :
    Both ((ownerState (donationMemory 1)).spciMsgSend exampleEnv false (exampleVCpu 1))
      (((ownerState (donationMemory 1)).withMem fun a =>
        if a = 0x13100 then 0x77 else donationMemory 1 a).spciMsgSend exampleEnv false
          (exampleVCpu 1))
      fun r r' => r.1.1 = r'.1.1 ∧ r.2.ptable = r'.2.ptable := by
  have hdescribed : (ownerState (donationMemory 1)).described (exampleVm 1) = [⟨0x1000, 1⟩] := by
    decide +kernel
  have hlength : ((ownerState (donationMemory 1)).header (exampleVm 1)).length = 32 := by
    decide +kernel
  refine (Hypervisor.outcome_of_message_iff fun buffer hbuffer => ?_).mpr ?_ _ (fun k hk => ?_)
    fun a ha => Or.inl ?_
  · obtain rfl := cpuGetBuffer_ownerState _ hbuffer
    exact Or.inl (by decide)
  · rintro ⟨msg, j, -, -, -, ⟨share, -, hnil, -⟩, -⟩
    cases hdescribed.symm.trans hnil
  · change k < spciMessageSize + ((ownerState (donationMemory 1)).header (exampleVm 1)).length at hk
    rw [hlength, spciMessageSize] at hk
    exact if_neg (by change 0x13000 + k ≠ 0x13100; omega)
  · have ha' : a = 0x13100 := by
      by_contra hne
      exact ha (if_neg hne)
    rw [ha']
    decide

/-- What has been left in the buffer decides whether a donation without
constituents succeeds. -/
theorem stale_buffer_decides :
    (ownerState strayMemory).SameMessage (exampleVm 1)
        ((ownerState strayMemory).header (exampleVm 1))
        (fun a => if a < 0x80000 then strayMemory a else 0) ∧
      ((ownerState strayMemory).spciMsgSend exampleEnv false (exampleVCpu 1)).map
        (fun r => r.1.1) = .ok .success ∧
      (((ownerState strayMemory).withMem fun a => if a < 0x80000 then strayMemory a else
        0).spciMsgSend exampleEnv false (exampleVCpu 1)).map (fun r => r.1.1) =
          .ok .invalidParameters := by
  have hlength : ((ownerState strayMemory).header (exampleVm 1)).length = 16 := by decide +kernel
  refine ⟨fun k hk => if_pos ?_, by decide +kernel, by decide +kernel⟩
  rw [hlength, spciMessageSize] at hk
  change 0x13000 + k < 0x80000
  omega

end Hafnium
