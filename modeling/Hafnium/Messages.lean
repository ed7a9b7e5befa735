import Hafnium.Calls
import Hafnium.Ownership

/-!
# Sending messages

What `spci_msg_send` does, by the checks it makes: the request is refused, the
recipient is not ready, or the message is delivered.  The delivery of an
architected message transfers the memory that the message describes.
-/

namespace Hafnium

open Support SpciMemoryShare Memory List SpciMemoryRegion Machine

/-! ## Memory messages -/

/-- The pages of a constituent. -/
def SpciMemoryRegionConstituent.Covers (c : SpciMemoryRegionConstituent) (a : Nat) : Prop :=
  c.address ≤ a ∧ a < c.address + c.pageCount * pageSize

/-- A constituent of a memory region, by its number. -/
def SpciMemoryRegion.constituentAt (mem : Memory) (addr k : Nat) : SpciMemoryRegionConstituent :=
  let constituent := addr + spciMemoryRegionSize + spciMemoryRegionConstituentSize * k
  ⟨mem.readLe constituent 8, mem.readLe (constituent + 8) 4⟩

/-- A range that does not wrap around ends where its pages end. -/
theorem SpciMemoryRegionConstituent.range_eq {c : SpciMemoryRegionConstituent}
    (haddress : c.address < 2 ^ 64) (hcount : c.pageCount < 2 ^ 32) (hlt : c.range.1 < c.range.2) :
    c.range = (c.address, c.address + c.pageCount * pageSize) := by
  rw [range, pageSize_eq] at *
  rw [Prod.mk.injEq]
  dsimp only at hlt
  omega

namespace SpciMemoryShare

/-- Where the memory region starts in a message. -/
def regionOffset : SpciMemoryShare → Nat
  | lend => spciArchitectedMessageHeaderSize + spciMemoryLendSize
  | donate | relinquish => spciArchitectedMessageHeaderSize

/-- The access that a message gives to the recipient. -/
def attributes (mem : Memory) (message : Nat) : SpciMemoryShare → Mode
  | lend => spciMemoryAttrsToMode (mem.readLe (message + spciArchitectedMessageHeaderSize + 2) 2)
  | donate | relinquish => Mode.R ||| Mode.W ||| Mode.X

/-- The length of a message with a number of constituents. -/
def messageLength (share : SpciMemoryShare) (count : Nat) : Nat :=
  share.regionOffset + spciMemoryRegionSize + spciMemoryRegionConstituentSize * count

theorem attributes_stateMask (mem : Memory) (message : Nat) (share : SpciMemoryShare) :
    share.attributes mem message &&& Mode.stateMask = 0 := by
  cases share with
  | lend => exact spciMemoryAttrsToMode_stateMask _
  | donate | relinquish => exact (by decide : (Mode.R ||| Mode.W ||| Mode.X) &&& Mode.stateMask = 0)

end SpciMemoryShare

/-- A message can be delivered. -/
def Mailbox.isReady (self : Mailbox) : Bool := self.isEmpty && self.isConfigured

theorem Mailbox.isReady_iff {self : Mailbox} :
    self.isReady = true ↔ ¬(!self.isEmpty || !self.isConfigured) = true := by
  rw [isReady, ← Bool.not_and, Bool.not_eq_true', Bool.not_eq_false]

namespace Hypervisor

variable {M : Machine} {s s' : Hypervisor M}

/-- The memory region of the message in a buffer. -/
def regionAt (buffer : Nat) (share : SpciMemoryShare) (s : Hypervisor M) : SpciMemoryRegion :=
  .read s.mem (buffer + share.regionOffset)

/-- A message of the length that its number of constituents asks for has its
first constituent transferred. -/
theorem spciMsgShareMemory_eq (env : Env) {i j : M.VmIndex} (hij : i ≠ j) (buffer : Nat)
    {length : Nat} (hmin : spciArchitectedMessageHeaderSize ≤ length) (hmax : length < 2 ^ 32)
    (share : SpciMemoryShare) (s : Hypervisor M) :
    s.spciMsgShareMemory env i j buffer length share =
      if length ≠ share.messageLength (s.regionAt buffer share).count then
        .ok (.invalidParameters, s)
      else do
        let (r, t) ← spciShareMemory env.pool (s.regionAt buffer share).constituent
          (share.attributes s.mem buffer) share (s.transfer i j)
        return (r, s.putTransfer i j t) := by
  have hcount : (s.regionAt buffer share).count < 2 ^ 32 := readLe_lt _ _ 4
  have hvalidate : ∀ size attributes,
      (size = spciMemoryRegionSize + spciMemoryRegionConstituentSize *
          (s.regionAt buffer share).count ↔
        length = share.messageLength (s.regionAt buffer share).count) →
      s.spciValidateCallShareMemory env i j (buffer + share.regionOffset) size attributes share =
        if length ≠ share.messageLength (s.regionAt buffer share).count then
          .ok (.invalidParameters, s)
        else do
          let (r, t) ← spciShareMemory env.pool (s.regionAt buffer share).constituent attributes
            share (s.transfer i j)
          return (r, s.putTransfer i j t) := by
    intro size attributes hsize
    rw [spciValidateCallShareMemory, if_neg hij, ← regionAt]
    dsimp only
    by_cases h : length = share.messageLength (s.regionAt buffer share).count
    · rw [if_neg (not_not.mpr (hsize.mpr h)), if_neg (not_not.mpr h)]
    · rw [if_pos (mt hsize.mp h), if_pos h]
      rfl
  generalize (s.regionAt buffer share).count = count at hcount hvalidate ⊢
  cases share with
  | donate | relinquish =>
    rw [spciMsgShareMemory]
    refine hvalidate _ _ ?_
    simp only [messageLength, regionOffset, spciArchitectedMessageHeaderSize, spciMemoryRegionSize,
      spciMemoryRegionConstituentSize] at hmin ⊢
    omega
  | lend =>
    rw [spciMsgShareMemory]
    dsimp only
    rw [Nat.add_assoc buffer]
    refine hvalidate _ _ ?_
    simp only [messageLength, regionOffset, spciMemoryLendSize,
      spciArchitectedMessageHeaderSize, spciMemoryRegionSize,
      spciMemoryRegionConstituentSize] at hmin ⊢
    omega

/-! ## Delivery -/

/-- The state with the payload of a message in the buffer of the physical CPU. -/
def staged (i : M.VmIndex) (buffer : Nat) (msg : SpciMessage) (s : Hypervisor M) : Hypervisor M :=
  { s with mem := s.mem.copy ((s.mailbox i).send + spciMessageSize) buffer msg.length }

@[simp] theorem staged_mem (i : M.VmIndex) (buffer : Nat) (msg : SpciMessage) (s : Hypervisor M) :
    (s.staged i buffer msg).mem =
      s.mem.copy ((s.mailbox i).send + spciMessageSize) buffer msg.length := rfl

/-- The state with a handled architected message in the page of the recipient. -/
def forwarded (buffer : Nat) (msg : SpciMessage) (toMsg : Nat) (ret : SpciReturn)
    (s : Hypervisor M) : Hypervisor M :=
  let mem := if ret = .success then
    s.mem.copy buffer (toMsg + spciMessageSize) (msg.length * spciArchitectedMessageHeaderSize)
    else s.mem
  { s with mem := mem.write toMsg spciMessageSize msg }

section Forwarded

variable {buffer toMsg k a : Nat} {msg : SpciMessage} {ret : SpciReturn}

theorem forwarded_header (ha : a = toMsg + k) (hk : k < spciMessageSize) :
    (s.forwarded buffer msg toMsg ret).mem a = msg k := by
  rw [forwarded]
  dsimp only
  rw [write_of_mem (by omega) (by omega), ha, Nat.add_sub_cancel_left]

theorem forwarded_payload (ha : a = toMsg + (spciMessageSize + k))
    (hk : k < msg.length * spciArchitectedMessageHeaderSize) :
    (s.forwarded buffer msg toMsg .success).mem a = s.mem (buffer + k) := by
  rw [forwarded, if_pos rfl]
  dsimp only
  rw [write_of_not_mem (by omega), copy, write_of_mem (by omega) (by omega),
    ha, ← Nat.add_assoc, Nat.add_sub_cancel_left]

end Forwarded

theorem regionAt_bounds (buffer : Nat) (share : SpciMemoryShare) (s : Hypervisor M) :
    (s.regionAt buffer share).constituent.address < 2 ^ 64 ∧
      (s.regionAt buffer share).constituent.pageCount < 2 ^ 32 :=
  ⟨readLe_lt _ _ 8, readLe_lt _ _ 4⟩

/-- The staged payload is that in the page of the sender. -/
theorem staged_readLe (i : M.VmIndex) (buffer : Nat) (msg : SpciMessage) (s : Hypervisor M)
    {off n : Nat} (h : off + n ≤ msg.length) :
    (s.staged i buffer msg).mem.readLe (buffer + off) n =
      s.mem.readLe ((s.mailbox i).send + spciMessageSize + off) n := by
  refine readLe_congr fun k hk => ?_
  rw [staged_mem, copy, write_of_mem (by omega) (by omega)]
  congr 1
  omega

/-- The type of the architected message in the send page of a VM. -/
def messageType (i : M.VmIndex) (s : Hypervisor M) : Option SpciMemoryShare :=
  ofCode (s.mem.readLe ((s.mailbox i).send + spciMessageSize) 2)

/-- The constituents of the memory message in the send page of a VM, as many as
it declares. -/
def described (i : M.VmIndex) (s : Hypervisor M) : List SpciMemoryRegionConstituent :=
  match s.messageType i with
  | none => []
  | some share =>
    let region := (s.mailbox i).send + spciMessageSize + share.regionOffset
    (range (s.mem.readLe (region + 4) 4)).map (constituentAt s.mem region)

section Staged

variable {i : M.VmIndex} {buffer : Nat} {msg : SpciMessage} {share : SpciMemoryShare}

theorem staged_type (hmin : spciArchitectedMessageHeaderSize ≤ msg.length) :
    ofCode ((s.staged i buffer msg).mem.readLe buffer 2) = s.messageType i := by
  rw [spciArchitectedMessageHeaderSize] at hmin
  have hread := s.staged_readLe i buffer msg (show 0 + 2 ≤ msg.length by omega)
  rw [Nat.add_zero, Nat.add_zero] at hread
  rw [messageType, ← hread]

/-- The number of constituents in the buffer is what the message declares. -/
theorem staged_count (htype : s.messageType i = some share)
    (hlength : share.regionOffset + spciMemoryRegionSize ≤ msg.length) :
    ((s.staged i buffer msg).regionAt buffer share).count = (s.described i).length := by
  rw [spciMemoryRegionSize] at hlength
  have hread := s.staged_readLe i buffer msg (show share.regionOffset + 4 + 4 ≤ msg.length by omega)
  rw [described, htype]
  simp only [length_map, length_range, Nat.add_assoc _ share.regionOffset]
  rw [← hread, ← Nat.add_assoc]
  rfl

variable (hmin : spciArchitectedMessageHeaderSize ≤ msg.length)
  (htype : ofCode ((s.staged i buffer msg).mem.readLe buffer 2) = some share)
include hmin htype

theorem messageType_eq : s.messageType i = some share := by rw [← staged_type hmin, htype]

variable (hcount : msg.length =
  share.messageLength ((s.staged i buffer msg).regionAt buffer share).count)
include hcount

/-- A message of matching length describes what is found in the buffer. -/
theorem described_eq : s.described i =
    (range ((s.staged i buffer msg).regionAt buffer share).count).map
      (constituentAt (s.staged i buffer msg).mem
        (buffer + share.regionOffset)) := by
  have hread : ∀ {off n : Nat}, off + n ≤ msg.length →
      s.mem.readLe ((s.mailbox i).send + spciMessageSize + off) n =
        (s.staged i buffer msg).mem.readLe (buffer + off) n :=
    fun h => (s.staged_readLe i buffer msg h).symm
  have htype' := messageType_eq hmin htype
  rw [messageLength, spciMemoryRegionConstituentSize] at hcount
  rw [staged_count htype' (by omega)] at hcount ⊢
  rw [described, htype'] at hcount ⊢
  simp only [length_map, length_range, spciMemoryRegionSize] at hcount ⊢
  refine map_congr_left fun k hk => ?_
  have hk' := mem_range.mp hk
  have haddress := hread (show share.regionOffset + 8 + 16 * k + 8 ≤ msg.length by omega)
  have hpages := hread (show share.regionOffset + 8 + 16 * k + 8 + 4 ≤ msg.length by omega)
  simp only [← Nat.add_assoc] at haddress hpages
  simp only [constituentAt, spciMemoryRegionSize, spciMemoryRegionConstituentSize]
  rw [haddress, hpages]

/-- If it describes anything, the first constituent is the one in the buffer. -/
theorem head_described (hne : s.described i ≠ []) : (s.described i).head? =
    some ((s.staged i buffer msg).regionAt buffer share).constituent := by
  rw [described_eq hmin htype hcount] at hne ⊢
  cases hn : ((s.staged i buffer msg).regionAt buffer share).count with
  | zero =>
    rw [hn] at hne
    exact absurd rfl hne
  | succ n =>
    rw [range_succ_eq_map]
    rfl

end Staged

/-- The ways of delivering a message, with the result and the next state. -/
inductive Delivery (env : Env) (i j : M.VmIndex) (msg : SpciMessage) (current : VCpuId M)
    (s : Hypervisor M) : SpciReturn → Hypervisor M → Prop
  | impdef (isImpdef : msg.isImpdef = true) : Delivery env i j msg current s .success
      { s with
        mem := (s.mem.write (s.mailbox j).recv spciMessageSize msg).copy
          ((s.mailbox i).send + spciMessageSize) ((s.mailbox j).recv + spciMessageSize)
          msg.length }
  /-- The message is too short to have a type. -/
  | short (architected : msg.isImpdef = false)
      (length : msg.length < spciArchitectedMessageHeaderSize) :
      Delivery env i j msg current s .invalidParameters s
  /-- The length does not match the number of constituents. -/
  | mismatch (architected : msg.isImpdef = false)
      (length : spciArchitectedMessageHeaderSize ≤ msg.length) {buffer : Nat}
      (hbuffer : s.cpuGetBuffer current = .ok buffer) {share : SpciMemoryShare}
      (type : ofCode ((s.staged i buffer msg).mem.readLe buffer 2) = some share)
      (count : msg.length ≠
        share.messageLength ((s.staged i buffer msg).regionAt buffer share).count) :
      Delivery env i j msg current s .invalidParameters
        ((s.staged i buffer msg).forwarded buffer msg (s.mailbox j).recv .invalidParameters)
  | shared (architected : msg.isImpdef = false)
      (length : spciArchitectedMessageHeaderSize ≤ msg.length) {buffer : Nat}
      (hbuffer : s.cpuGetBuffer current = .ok buffer) {share : SpciMemoryShare}
      (type : ofCode ((s.staged i buffer msg).mem.readLe buffer 2) = some share)
      (count : msg.length =
        share.messageLength ((s.staged i buffer msg).regionAt buffer share).count)
      {ret : SpciReturn} {t : Transfer M.stage M.hypervisorStage}
      (call : spciShareMemory env.pool ((s.staged i buffer msg).regionAt buffer share).constituent
        (share.attributes (s.staged i buffer msg).mem buffer) share
        ((s.staged i buffer msg).transfer i j) = .ok (ret, t)) :
      Delivery env i j msg current s ret
        (((s.staged i buffer msg).putTransfer i j t).forwarded buffer msg (s.mailbox j).recv ret)
variable {i j : M.VmIndex} {current : VCpuId M} {msg : SpciMessage} {ret : SpciReturn}

theorem Delivery.sameVms {env : Env}
    (h : s.Delivery env i j msg current ret s') : s.SameVms s' := by
  cases h <;> exact ⟨rfl, rfl, rfl, rfl⟩

theorem deliver_cases {env : Env} (hij : i ≠ j) (hlength : msg.length ≤ spciMsgPayloadMax)
    (h : s.deliver env i j msg current = .ok (ret, s')) :
    Delivery env i j msg current s ret s' := by
  rw [deliver] at h
  split at h
  · cases h
    exact .impdef ‹_›
  rename_i harch
  obtain ⟨buffer, hbuffer, h⟩ := bind_eq_ok.mp h
  rw [if_neg (Nat.not_lt.mpr (hlength.trans (by decide)))] at h
  split at h
  · cases h
    exact .short (Bool.eq_false_of_not_eq_true harch) ‹_›
  rename_i hmin
  obtain ⟨share, htype, h⟩ := bind_eq_ok.mp h
  obtain ⟨⟨r, s₁⟩, hcall, h⟩ := bind_eq_ok.mp h
  cases h
  have hmax : msg.length < 2 ^ 32 := Nat.lt_of_le_of_lt hlength (by decide)
  rw [spciMsgShareMemory_eq env hij buffer (Nat.not_lt.mp hmin) hmax] at hcall
  split at hcall
  · cases hcall
    exact .mismatch (Bool.eq_false_of_not_eq_true harch) (Nat.not_lt.mp hmin) hbuffer
      (orPanic_eq_ok.mp htype) ‹_›
  · rename_i hcount
    obtain ⟨⟨r', t⟩, hshare, hcall⟩ := bind_eq_ok.mp hcall
    cases hcall
    exact .shared (Bool.eq_false_of_not_eq_true harch) (Nat.not_lt.mp hmin) hbuffer
      (orPanic_eq_ok.mp htype) (not_not.mp hcount) hshare

/-- A handled architected message is forwarded. -/
theorem deliver_architected {env : Env}
    (harch : msg.isImpdef = false) (hmax : msg.length ≤ spciMsgPayloadMax)
    (hmin : spciArchitectedMessageHeaderSize ≤ msg.length) {buffer : Nat}
    (hbuffer : s.cpuGetBuffer current = .ok buffer) {share : SpciMemoryShare}
    (htype : ofCode ((s.staged i buffer msg).mem.readLe buffer 2) = some share)
    (hcall : (s.staged i buffer msg).spciMsgShareMemory env i j buffer msg.length share =
      .ok (ret, s')) :
    s.deliver env i j msg current = .ok (ret, s'.forwarded buffer msg (s.mailbox j).recv ret) := by
  have hpage : ¬msg.length > pageSize := Nat.not_lt.mpr (hmax.trans (by decide))
  rw [deliver, if_neg (by rw [harch]; exact Bool.false_ne_true), hbuffer]
  dsimp only [bind, Except.bind]
  rw [if_neg hpage, if_neg (Nat.not_lt.mpr hmin), spciMsgHandleArchitectedMessage, ← staged, htype]
  dsimp only [orPanic, bind, Except.bind]
  rw [hcall]
  rfl

/-! ## Sending -/

/-- The results of `spci_msg_send`, with the next state. -/
inductive Sending (env : Env) (notify : Bool) (current : VCpuId M) (s : Hypervisor M) :
    SpciReturn → Option (VCpuId M) → Hypervisor M → Prop
  | refused (check : s.spciMsgSendCheck current.vm = .ok none) :
      Sending env notify current s .invalidParameters none s
  | busy {msg : SpciMessage} {j : M.VmIndex} {s' : Hypervisor M}
      (check : s.spciMsgSendCheck current.vm = .ok (some (msg, j)))
      (ready : (s.mailbox j).isReady = false)
      (wait : if notify then s.waitFor current.vm j = .ok s' else s' = s) :
      Sending env notify current s .busy none s'
  | failed {msg : SpciMessage} {j : M.VmIndex} {ret : SpciReturn} {s' : Hypervisor M}
      (check : s.spciMsgSendCheck current.vm = .ok (some (msg, j)))
      (ready : (s.mailbox j).isReady = true)
      (delivery : s.Delivery env current.vm j msg current ret s') (failure : ret ≠ .success) :
      Sending env notify current s ret none s'
  | sent {msg : SpciMessage} {j : M.VmIndex} {next : Option (VCpuId M)} {s₁ s' : Hypervisor M}
      (check : s.spciMsgSendCheck current.vm = .ok (some (msg, j)))
      (ready : (s.mailbox j).isReady = true)
      (delivery : s.Delivery env current.vm j msg current .success s₁)
      (notified : s₁.spciMsgNotify env.timer current.vm j current = .ok (next, s')) :
      Sending env notify current s .success next s'

/-- Waiting for a mailbox only changes links. -/
theorem waitFor_frame (h : s.waitFor i j = .ok s') : ∃ links, s' = { s with links } := by
  rw [waitFor] at h
  split at h
  · dsimp only at h
    split at h <;> cases h
    · exact ⟨s.links, rfl⟩
    · exact ⟨_, rfl⟩
  · cases h

theorem busy_frame {notify : Bool}
    (h : if notify then s.waitFor i j = .ok s' else s' = s) : ∃ links, s' = { s with links } := by
  split at h
  · exact waitFor_frame h
  · exact ⟨s.links, h⟩

/-- The header of the message in the send page of a VM. -/
def header (i : M.VmIndex) (s : Hypervisor M) : SpciMessage := .read s.mem (s.mailbox i).send

/-- A header that the hypervisor accepts. -/
structure Accepted (i : M.VmIndex) (s : Hypervisor M) (msg : SpciMessage) (j : M.VmIndex) :
    Prop where
  send : (s.mailbox i).send ≠ 0
  header : msg = SpciMessage.read s.mem (s.mailbox i).send
  source : msg.sourceVmId = M.vmId i
  length : msg.length ≤ spciMsgPayloadMax
  target : msg.targetVmId = M.vmId j
  ne : i ≠ j

theorem spciMsgSendCheck_eq_some :
    s.spciMsgSendCheck i = .ok (some (msg, j)) ↔ s.Accepted i msg j := by
  rw [spciMsgSendCheck]
  constructor
  · intro h
    split at h
    · cases h
    dsimp only at h
    split at h
    · cases h
    split at h
    · cases h
    split at h
    · cases h
    rename_i hsend hsource hlength htarget
    obtain ⟨o, hget, h⟩ := bind_eq_ok.mp h
    obtain ⟨j', rfl, hj⟩ := Option.map_eq_some_iff.mp (Except.ok.inj h)
    cases hj
    have hj := get_eq_some.mp hget
    refine ⟨hsend, rfl, not_not.mp hsource, Nat.not_lt.mp hlength, hj.symm, ?_⟩
    rintro rfl
    exact htarget hj.symm
  · rintro ⟨hsend, rfl, hsource, hlength, htarget, hne⟩
    have htarget' : ¬M.vmId j = M.vmId i := fun h => hne (vmId_inj.mp h).symm
    rw [if_neg hsend]
    dsimp only
    rw [if_neg (not_not.mpr hsource), if_neg (Nat.not_lt.mpr hlength), htarget, if_neg htarget',
      get_eq_some.mpr rfl]
    rfl

theorem Accepted.unique {i j j' : M.VmIndex} {msg msg' : SpciMessage} (h : s.Accepted i msg j)
    (h' : s.Accepted i msg' j') : msg' = msg ∧ j' = j := by
  have heq := (spciMsgSendCheck_eq_some.mpr h').symm.trans (spciMsgSendCheck_eq_some.mpr h)
  cases heq
  exact ⟨rfl, rfl⟩

theorem spciMsgSend_cases {env : Env} {notify : Bool}
    {next : Option (VCpuId M)} (h : s.spciMsgSend env notify current = .ok ((ret, next), s')) :
    s.Sending env notify current ret next s' := by
  rw [spciMsgSend] at h
  obtain ⟨_ | ⟨msg, j⟩, hcheck, h⟩ := bind_eq_ok.mp h
  · cases h
    exact .refused hcheck
  dsimp only at h
  have hready : (!(s.mailbox j).isEmpty || !(s.mailbox j).isConfigured) =
      !(s.mailbox j).isReady := by
    rw [Mailbox.isReady, Bool.not_and]
  rw [hready] at h
  split at h
  · rename_i hbusy
    rw [Bool.not_eq_true'] at hbusy
    split at h
    · rename_i hnotify
      obtain ⟨s₁, hwait, h⟩ := bind_eq_ok.mp h
      cases h
      exact .busy hcheck hbusy (by rwa [if_pos hnotify])
    · rename_i hnotify
      cases h
      exact .busy hcheck hbusy (by rw [if_neg hnotify])
  rename_i hempty
  rw [Bool.not_eq_true', Bool.not_eq_false] at hempty
  have haccepted := spciMsgSendCheck_eq_some.mp hcheck
  obtain ⟨⟨ret', s₁⟩, hdeliver, h⟩ := bind_eq_ok.mp h
  have hdelivery := deliver_cases haccepted.ne haccepted.length hdeliver
  dsimp only at h
  split at h
  · cases h
    exact .failed hcheck hempty hdelivery ‹_›
  · rename_i hret
    rw [not_not] at hret
    subst hret
    obtain ⟨⟨next', s₂⟩, hnotify, h⟩ := bind_eq_ok.mp h
    cases h
    exact .sent hcheck hempty hdelivery hnotify

theorem spciMsgSend_failed {env : Env} {notify : Bool} {j : M.VmIndex}
    (haccepted : s.Accepted current.vm msg j)
    (hready : (s.mailbox j).isReady = true) (hret : ret ≠ .success)
    (hdeliver : s.deliver env current.vm j msg current = .ok (ret, s')) :
    s.spciMsgSend env notify current = .ok ((ret, none), s') := by
  rw [spciMsgSend, spciMsgSendCheck_eq_some.mpr haccepted]
  dsimp only [bind, Except.bind]
  rw [if_neg (Mailbox.isReady_iff.mp hready), hdeliver]
  dsimp only
  rw [if_pos hret]
  rfl

/-- The state of the mailbox of a VM after a message has been sent to it. -/
def sentState (j : M.VmIndex) : MailboxState := if j = M.primary then .read else .received

/-- Telling the primary VM about a message only marks the mailbox. -/
theorem spciMsgNotify_post (timer : Timer) (i j : M.VmIndex) (current : VCpuId M)
    (s : Hypervisor M) :
    Post (s.spciMsgNotify timer i j current) (· = .primaryVCpu) fun r =>
      (s.setMailbox j { s.mailbox j with state := sentState j }).Quiet r.2 := by
  rw [spciMsgNotify]
  refine Post.ite (fun h => ?_) fun h => ?_
  · rw [sentState, if_pos (vmId_eq_primary.mp h)]
    exact Post.bind (switchToPrimary_post timer current _ _ _) fun r hr => hr.2.1
  · rw [sentState, if_neg (mt vmId_eq_primary.mpr h)]
    refine Post.ite (fun _ => ?_) fun _ => .refl _
    exact Post.bind (switchToPrimary_post timer current _ _ _) fun r hr => hr.2.1

end Hypervisor
end Hafnium
