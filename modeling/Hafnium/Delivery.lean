import Hafnium.Payload

/-!
# What messages carry

The bytes of a message in the page of the recipient: the payload of an architected
message is copied in units of eight bytes, and its header even if nothing was
transferred.
-/

namespace Hafnium

open Support Memory Both

namespace Hypervisor

variable {M : Machine} {s s' : Hypervisor M} {i j : M.VmIndex} {msg : SpciMessage} {mem : Memory}

section Bytes

variable {env : Env} {notify : Bool} {current : VCpuId M} {buffer : Nat} {ret : SpciReturn}
  {next : Option (VCpuId M)}

theorem putTransfer_mem (t : Transfer M.stage M.hypervisorStage) (s : Hypervisor M) :
    (s.putTransfer i j t).mem = t.mem := rfl

theorem spciShareMemory_mem {S H : Stage} {env : Interference} {c : SpciMemoryRegionConstituent}
    {attributes : Mode} {share : SpciMemoryShare} {t t' : Transfer S H}
    (h : spciShareMemory env c attributes share t = .ok (ret, t')) : t'.mem = t.mem := by
  have hrefl : t.SameTables t := rfl
  have halike : Both (spciShareMemory env c attributes share t)
      (spciShareMemory env c attributes share t) (t.Alike t) := hrefl.spciShareMemory
  rw [h] at halike
  exact halike.mem

/-- The memory after a message that the recipient was ready for. -/
theorem spciMsgSend_mem (haccepted : s.Accepted current.vm msg j)
    (hready : (s.mailbox j).isReady = true)
    (hsend : s.spciMsgSend env notify current = .ok ((ret, next), s')) :
    ∃ s₁, s.Delivery env current.vm j msg current ret s₁ ∧ s'.mem = s₁.mem := by
  cases spciMsgSend_cases hsend with
  | refused check =>
    rw [spciMsgSendCheck_eq_some.mpr haccepted] at check
    cases check
  | busy check hbusy =>
    obtain ⟨rfl, rfl⟩ := haccepted.unique (spciMsgSendCheck_eq_some.mp check)
    rw [hready] at hbusy
    contradiction
  | failed check _ delivery _ =>
    obtain ⟨rfl, rfl⟩ := haccepted.unique (spciMsgSendCheck_eq_some.mp check)
    exact ⟨s', delivery, rfl⟩
  | sent check _ delivery notified =>
    obtain ⟨rfl, rfl⟩ := haccepted.unique (spciMsgSendCheck_eq_some.mp check)
    have hquiet := (spciMsgNotify_post env.timer current.vm _ current _).of_ok notified
    exact ⟨_, delivery, hquiet.mem⟩

/-- The memory after an architected message: the buffer is copied in units of the
message header if it was handled, and the header of the message is written in any
case. -/
theorem architected_mem (haccepted : s.Accepted current.vm msg j)
    (hready : (s.mailbox j).isReady = true) (harch : msg.isImpdef = false)
    (hmin : spciArchitectedMessageHeaderSize ≤ msg.length)
    (hsend : s.spciMsgSend env notify current = .ok ((ret, next), s')) :
    ∃ buffer, s.cpuGetBuffer current = .ok buffer ∧
      s'.mem = ((s.staged current.vm buffer msg).forwarded buffer msg (s.mailbox j).recv
        ret).mem := by
  obtain ⟨s₁, hdelivery, hmem⟩ := spciMsgSend_mem haccepted hready hsend
  cases hdelivery with
  | impdef isImpdef => cases harch.symm.trans isImpdef
  | short _ length => exact absurd hmin (Nat.not_le.mpr length)
  | mismatch _ _ hbuffer _ _ => exact ⟨_, hbuffer, hmem⟩
  | shared _ _ hbuffer _ _ call =>
    refine ⟨_, hbuffer, ?_⟩
    rw [hmem, forwarded, forwarded, putTransfer_mem, spciShareMemory_mem call]
    rfl

/-- A message is delivered exactly: the page of the recipient holds its header and
its payload and is otherwise as it was, like the rest of memory but the buffer of
the physical CPU; a message that is not delivered leaves the page as it was. -/
structure Exact (current : VCpuId M) (j : M.VmIndex) (msg : SpciMessage) (s : Hypervisor M)
    (ret : SpciReturn) (s' : Hypervisor M) : Prop where
  header : ret = .success → ∀ k, k < spciMessageSize → s'.mem ((s.mailbox j).recv + k) = msg k
  payload : ret = .success → ∀ k, k < msg.length →
    s'.mem ((s.mailbox j).recv + spciMessageSize + k) =
      s.mem ((s.mailbox current.vm).send + spciMessageSize + k)
  rest : ret = .success → ∀ k, spciMessageSize + msg.length ≤ k → k < pageSize →
    s'.mem ((s.mailbox j).recv + k) = s.mem ((s.mailbox j).recv + k)
  frame : ret = .success → ∀ a, ¬((s.mailbox j).recv ≤ a ∧ a < (s.mailbox j).recv + pageSize) →
    (msg.isImpdef = false → ∀ buffer, s.cpuGetBuffer current = .ok buffer →
      ¬(buffer ≤ a ∧ a < buffer + pageSize)) → s'.mem a = s.mem a
  failure : ret ≠ .success → ∀ k, k < pageSize →
    s'.mem ((s.mailbox j).recv + k) = s.mem ((s.mailbox j).recv + k)

/-- The message is opaque to the hypervisor, or does not get so far as to be
handled. -/
def Contained (j : M.VmIndex) (msg : SpciMessage) (s : Hypervisor M) : Prop :=
  msg.isImpdef = true ∨ (s.mailbox j).isReady = false ∨
    msg.length < spciArchitectedMessageHeaderSize

/-- What is copied for an architected message does not overlap. -/
structure Apart (current : VCpuId M) (j : M.VmIndex) (msg : SpciMessage) (s : Hypervisor M)
    (buffer : Nat) : Prop where
  send_recv : (s.mailbox current.vm).send + pageSize ≤ (s.mailbox j).recv ∨
    (s.mailbox j).recv + spciMessageSize + 8 * msg.length ≤ (s.mailbox current.vm).send
  recv_buffer : (s.mailbox j).recv + spciMessageSize + 8 * msg.length ≤ buffer ∨
    buffer + 8 * msg.length ≤ (s.mailbox j).recv

theorem exact_of_unchanged (hret : ret ≠ .success) (hmem : s'.mem = s.mem) :
    s.Exact current j msg ret s' :=
  ⟨fun h => absurd h hret, fun h => absurd h hret, fun h => absurd h hret,
    fun h => absurd h hret, fun _ _ _ => by rw [hmem]⟩

/-- The payload of an opaque message is copied byte by byte. -/
theorem exact_of_impdef (hlength : msg.length ≤ spciMsgPayloadMax)
    (hpages : (s.mailbox i).send + pageSize ≤ (s.mailbox j).recv ∨
      (s.mailbox j).recv + pageSize ≤ (s.mailbox i).send)
    (hi : current.vm = i)
    (hmem : s'.mem = (s.mem.write (s.mailbox j).recv spciMessageSize msg).copy
      ((s.mailbox i).send + spciMessageSize) ((s.mailbox j).recv + spciMessageSize) msg.length) :
    s.Exact current j msg .success s' := by
  have hsize : pageSize = spciMessageSize + spciMsgPayloadMax := by decide
  refine ⟨fun _ k hk => ?_, fun _ k hk => ?_, fun _ k hlo hhi => ?_, fun _ a ha _ => ?_,
    fun h => absurd rfl h⟩
  · rw [hmem, copy, write_of_not_mem (by omega),
      write_of_mem (by omega) (by omega), Nat.add_sub_cancel_left]
  · rw [hmem, copy, write_of_mem (by omega) (by omega),
      write_of_not_mem (by omega), Nat.add_sub_cancel_left, hi]
  · rw [hmem, copy, write_of_not_mem (by omega), write_of_not_mem (by omega)]
  · rw [hmem, copy, write_of_not_mem (by omega), write_of_not_mem (by omega)]

theorem exact_of_contained (haccepted : s.Accepted current.vm msg j)
    (hpages : (s.mailbox current.vm).send + pageSize ≤ (s.mailbox j).recv ∨
      (s.mailbox j).recv + pageSize ≤ (s.mailbox current.vm).send)
    (hcontained : s.Contained j msg)
    (hsend : s.spciMsgSend env notify current = .ok ((ret, next), s')) :
    s.Exact current j msg ret s' := by
  by_cases hready : (s.mailbox j).isReady = true
  · obtain ⟨s₁, hdelivery, hmem⟩ := spciMsgSend_mem haccepted hready hsend
    have hnot : msg.isImpdef = false → ¬spciArchitectedMessageHeaderSize ≤ msg.length := by
      intro harch hmin
      rcases hcontained with h | h | h
      · cases harch.symm.trans h
      · cases hready.symm.trans h
      · exact absurd hmin (Nat.not_le.mpr h)
    cases hdelivery with
    | impdef => exact exact_of_impdef haccepted.length hpages rfl hmem
    | short _ _ => exact exact_of_unchanged nofun hmem
    | mismatch architected length _ _ _ => exact absurd length (hnot architected)
    | shared architected length _ _ _ _ => exact absurd length (hnot architected)
  · cases spciMsgSend_cases hsend with
    | refused => exact exact_of_unchanged nofun rfl
    | busy _ _ wait =>
      obtain ⟨links, rfl⟩ := busy_frame wait
      exact exact_of_unchanged nofun rfl
    | failed check ready _ _ | sent check ready _ _ =>
      obtain ⟨rfl, rfl⟩ := haccepted.unique (spciMsgSendCheck_eq_some.mp check)
      exact absurd ready hready

/-- One byte of memory has another value. -/
def spoiled (a : Nat) (b : BitVec 8) (s : Hypervisor M) : Memory := s.mem.write a 1 fun _ => b + 1

theorem spoiled_ne (a : Nat) (b : BitVec 8) : s.spoiled a b a ≠ b := by
  rw [spoiled, write_of_mem le_rfl (Nat.lt_succ_self a)]
  bv_omega

theorem spoiled_of_ne {a a' : Nat} (b : BitVec 8) (h : a' ≠ a) : s.spoiled a b a' = s.mem a' :=
  write_of_not_mem (by omega)

/-- A byte that is neither part of the message nor of the buffer does not matter to
the result. -/
theorem spciMsgSend_spoiled (haccepted : s.Accepted current.vm msg j)
    (hready : (s.mailbox j).isReady = true) (harch : msg.isImpdef = false)
    (hmin : spciArchitectedMessageHeaderSize ≤ msg.length)
    (hbuffer : s.cpuGetBuffer current = .ok buffer)
    (hsend : s.spciMsgSend env notify current = .ok ((ret, next), s')) {a : Nat} {b : BitVec 8}
    (hsame : s.SameMessage current.vm msg (s.spoiled a b))
    (ha : ¬(buffer ≤ a ∧ a < buffer + 8 * msg.length)) :
    ∃ next' s₁, (s.withMem (s.spoiled a b)).spciMsgSend env notify current =
        .ok ((ret, next'), s₁) ∧
      s₁.mem = (((s.withMem (s.spoiled a b)).staged current.vm buffer
        ((s.withMem (s.spoiled a b)).header current.vm)).forwarded buffer
          ((s.withMem (s.spoiled a b)).header current.vm) (s.mailbox j).recv ret).mem := by
  rw [spciArchitectedMessageHeaderSize] at hmin
  have hboth : Both (s.spciMsgSend env notify current)
      ((s.withMem (s.spoiled a b)).spciMsgSend env notify current)
      fun r r' => r.1 = r'.1 ∧ r.2.SameButMem r'.2 :=
    hsame.spciMsgSend haccepted fun _ _ _ buffer' hbuffer' k hk => by
      cases hbuffer.symm.trans hbuffer'
      exact spoiled_of_ne b (by omega)
  obtain ⟨⟨⟨ret', next'⟩, s₁⟩, hsend', heq, -⟩ := hboth.of_ok_left hsend
  cases heq
  refine ⟨next, s₁, hsend', ?_⟩
  have hlength := hsame.length_eq haccepted
  obtain ⟨buffer', hbuffer', hmem⟩ := architected_mem (hsame.accepted haccepted) hready
    ((hsame.isImpdef_eq haccepted).trans harch) (by rw [hlength]; exact hmin) hsend'
  cases hbuffer.symm.trans hbuffer'
  exact hmem

/-- The bytes of messages end up in the page of the recipient, and no others, if
and only if the message is opaque or is not handled. -/
theorem exact_delivery_iff (haccepted : s.Accepted current.vm msg j)
    (hpages : (s.mailbox current.vm).send + pageSize ≤ (s.mailbox j).recv ∨
      (s.mailbox j).recv + pageSize ≤ (s.mailbox current.vm).send)
    (hapart : ¬s.Contained j msg → (∃ r, s.spciMsgSend env notify current = .ok r) ∧
      ∀ buffer, s.cpuGetBuffer current = .ok buffer → s.Apart current j msg buffer) :
    (∀ mem, s.SameMessage current.vm msg mem → ∀ ret next s',
        (s.withMem mem).spciMsgSend env notify current = .ok ((ret, next), s') →
        (s.withMem mem).Exact current j ((s.withMem mem).header current.vm) ret s') ↔
      s.Contained j msg := by
  constructor
  · intro hexact
    by_contra hcontained
    obtain ⟨⟨⟨⟨ret, next⟩, s₀⟩, hsend⟩, hapart⟩ := hapart hcontained
    rw [Contained, not_or, not_or, Bool.not_eq_true, Bool.not_eq_false, Nat.not_lt] at hcontained
    obtain ⟨harch, hready, hmin⟩ := hcontained
    obtain ⟨buffer, hbuffer, -⟩ := architected_mem haccepted hready harch hmin hsend
    obtain ⟨hsend_recv, hrecv_buffer⟩ := hapart buffer hbuffer
    have hmax := haccepted.length
    have hsize : pageSize = spciMessageSize + spciMsgPayloadMax := by decide
    rw [spciArchitectedMessageHeaderSize] at hmin
    by_cases hret : ret = .success
    · -- the byte behind the payload is overwritten by that behind the message in the buffer
      subst hret
      obtain ⟨a, ha⟩ : ∃ a, a = (s.mailbox j).recv + (spciMessageSize + msg.length) := ⟨_, rfl⟩
      have hsame : s.SameMessage current.vm msg (s.spoiled a (s.mem (buffer + msg.length))) :=
        fun k hk => spoiled_of_ne _ (by omega)
      have hlength := hsame.length_eq haccepted
      obtain ⟨next', s₁, hsend', hmem⟩ := spciMsgSend_spoiled haccepted hready harch hmin hbuffer
        hsend hsame (by omega)
      have hunchanged : s₁.mem a = s.spoiled a (s.mem (buffer + msg.length)) a := by
        have h := hexact _ hsame _ _ _ hsend'
        by_cases hin : spciMessageSize + msg.length < pageSize
        · have hrest := h.rest rfl (spciMessageSize + msg.length) (by rw [hlength]) hin
          rwa [withMem_mailbox, withMem_mem, ← ha] at hrest
        · refine h.frame rfl a ?_ fun _ buffer' hbuffer' => ?_
          · rw [withMem_mailbox]
            omega
          · cases hbuffer.symm.trans hbuffer'
            omega
      have hoverwritten : s₁.mem a = s.mem (buffer + msg.length) := by
        rw [hmem, forwarded_payload ha (by rw [hlength, spciArchitectedMessageHeaderSize]; omega),
          staged_mem, Memory.copy, hlength, Memory.write_of_not_mem (by omega)]
        exact spoiled_of_ne _ (by omega)
      exact spoiled_ne a _ (hunchanged.symm.trans hoverwritten)
    · -- the header is written although nothing was delivered
      obtain ⟨a, ha⟩ : ∃ a, a = (s.mailbox j).recv + 0 := ⟨_, rfl⟩
      have hsame : s.SameMessage current.vm msg (s.spoiled a (msg 0)) :=
        fun k hk => spoiled_of_ne _ (by omega)
      obtain ⟨next', s₁, hsend', hmem⟩ := spciMsgSend_spoiled haccepted hready harch hmin hbuffer
        hsend hsame (by omega)
      have hunchanged : s₁.mem a = s.spoiled a (msg 0) a := by
        have hpage := (hexact _ hsame _ _ _ hsend').failure hret 0 (by decide)
        rwa [withMem_mailbox, withMem_mem, ← ha] at hpage
      have hwritten : s₁.mem a = msg 0 := by
        rw [hmem, forwarded_header ha (by decide)]
        exact (hsame 0 (by omega)).trans (congrFun haccepted.header 0).symm
      exact spoiled_ne a _ (hunchanged.symm.trans hwritten)
  · intro hcontained mem hsame ret next s' hsend
    have hlength := hsame.length_eq haccepted
    refine exact_of_contained (hsame.accepted haccepted) hpages ?_ hsend
    rw [Contained, hsame.isImpdef_eq haccepted, hlength]
    exact hcontained

end Bytes

end Hypervisor

/-- The send page of the second VM holds an opaque message of two bytes to the third
VM. -/
def opaqueMemory : Memory := fun a =>
  if a = 0x13000 then 1
  else if a = 0x13004 then 2
  else if a = 0x13008 then 3
  else if a = 0x1300a then 2
  else if a = 0x13010 then 0x55
  else if a = 0x13011 then 0x66
  else 0

theorem accepted_opaqueMemory : (ownerState opaqueMemory).Accepted (exampleVm 1)
    ((ownerState opaqueMemory).header (exampleVm 1)) (exampleVm 2) :=
  ⟨by decide, rfl, by decide +kernel, by decide +kernel, by decide +kernel, by decide⟩

/-- An opaque message arrives exactly. -/
theorem exact_delivery_opaque :
    ∃ next s', (ownerState opaqueMemory).spciMsgSend exampleEnv false (exampleVCpu 1) =
        .ok ((.success, next), s') ∧
      s'.mem 0x14010 = 0x55 ∧ (ownerState opaqueMemory).Exact (exampleVCpu 1) (exampleVm 2)
        ((ownerState opaqueMemory).header (exampleVm 1)) .success s' := by
  have hsend : ((ownerState opaqueMemory).spciMsgSend exampleEnv false (exampleVCpu 1)).map
      (fun r => (r.1.1, r.2.mem 0x14010)) = .ok (.success, 0x55) := by
    decide +kernel
  obtain ⟨⟨⟨_, next⟩, s'⟩, hs', hbyte⟩ := map_eq_ok.mp hsend
  cases congrArg Prod.fst hbyte
  have hcontained : (ownerState opaqueMemory).Contained (exampleVm 2)
      ((ownerState opaqueMemory).header (exampleVm 1)) := Or.inl (by decide +kernel)
  refine ⟨next, s', hs', congrArg Prod.snd hbyte, ?_⟩
  exact (Hypervisor.exact_delivery_iff accepted_opaqueMemory (Or.inl (by decide))
    (absurd hcontained)).mpr hcontained opaqueMemory (fun _ _ => rfl) _ _ _ hs'

/-- A byte that was left in the buffer behind a donation arrives behind the payload,
and the header of a refused donation arrives too. -/
theorem stale_byte_delivered :
    ((ownerState fun a => if a = 0x80028 then 0xaa else donationMemory 1 a).spciMsgSend exampleEnv
        false (exampleVCpu 1)).map (fun r => (r.1.1, r.2.mem 0x14038)) = .ok (.success, 0xaa) ∧
      (ownerState fun a => if a = 0x80028 then 0xaa else donationMemory 1 a).mem 0x14038 = 0 ∧
      ((ownerState (donationMemory 1)).header (exampleVm 1)).length = 32 ∧
      ((ownerState (donationMemory 0)).spciMsgSend exampleEnv false (exampleVCpu 1)).map
        (fun r => (r.1.1, r.2.mem 0x14004)) = .ok (.invalidParameters, 16) ∧
      (ownerState (donationMemory 0)).mem 0x14004 = 0 := by
  decide +kernel

end Hafnium
