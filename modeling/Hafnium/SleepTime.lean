import Hafnium.Calls

/-!
# What the scheduler is told about sleeping vCPUs

A vCPU that blocks may be left alone until its virtual timer fires.  The time is
computed from the registers of the timer in 64-bit words, packed into the value that
the primary VM gets, and unpacked there by `hf_vcpu_run_return_decode` of `abi.h`.
-/

namespace Hafnium

open Support BitVec HfVCpuRunReturn

/-- `struct hf_vcpu_run_return`: the code and what comes with it. -/
inductive HfVCpuRunDecoded
  | waitForInterrupt (ns : BitVec 64)
  | waitForMessage (ns : BitVec 64)
  | wakeUp (vmId vcpu : BitVec 16)
  | message (vmId : BitVec 16)
  | code (code : BitVec 64)
  deriving DecidableEq, Repr

def hfVCpuRunReturnDecode (res : BitVec 64) : HfVCpuRunDecoded :=
  let code := res &&& 0xff
  if code = 4 then .wakeUp ((res >>> 32).setWidth 16) (((res >>> 16) &&& 0xffff).setWidth 16)
  else if code = 5 then .message ((res >>> 8).setWidth 16)
  else if code = 2 then .waitForInterrupt (res >>> 8)
  else if code = 3 then .waitForMessage (res >>> 8)
  else .code code

/-! ## Packing -/

/-- A code and a number of nanoseconds share a word, as long as the number fits the
upper bytes. -/
theorem packed_toNat {code ns : BitVec 64} (hcode : code.toNat < 256) (hns : ns.toNat < 2 ^ 56) :
    (code ||| ns <<< 8).toNat = 256 * ns.toNat + code.toNat := by
  have hshift : (ns <<< 8).toNat = ns.toNat <<< 8 := by
    rw [toNat_shiftLeft, Nat.shiftLeft_eq]
    omega
  rw [toNat_or, hshift, Nat.or_comm, ← Nat.shiftLeft_add_eq_or_of_lt hcode, Nat.shiftLeft_eq]
  omega

theorem packed_code {code ns : BitVec 64} (hcode : code.toNat < 256) (hns : ns.toNat < 2 ^ 56) :
    (code ||| ns <<< 8) &&& 0xff = code := by
  refine eq_of_toNat_eq ?_
  rw [toNat_and, packed_toNat hcode hns]
  have hmask := Nat.and_two_pow_sub_one_eq_mod (256 * ns.toNat + code.toNat) 8
  change _ &&& (2 ^ 8 - 1) = _
  omega

theorem packed_ns {code ns : BitVec 64} (hcode : code.toNat < 256) (hns : ns.toNat < 2 ^ 56) :
    (code ||| ns <<< 8) >>> 8 = ns := by
  refine eq_of_toNat_eq ?_
  rw [toNat_ushiftRight, packed_toNat hcode hns, Nat.shiftRight_eq_div_pow]
  omega

theorem decode_waitForInterrupt {ns : BitVec 64} (hns : ns.toNat < 2 ^ 56) :
    hfVCpuRunReturnDecode (waitForInterrupt ns).intoRaw = .waitForInterrupt ns := by
  rw [hfVCpuRunReturnDecode, intoRaw, packed_code (by decide) hns,
    packed_ns (by decide) hns]
  rfl

theorem decode_waitForMessage {ns : BitVec 64} (hns : ns.toNat < 2 ^ 56) :
    hfVCpuRunReturnDecode (waitForMessage ns).intoRaw = .waitForMessage ns := by
  rw [hfVCpuRunReturnDecode, intoRaw, packed_code (by decide) hns,
    packed_ns (by decide) hns]
  rfl

/-! ## Nanoseconds -/

/-- The nanoseconds from a count of the timer to its compare value, at a frequency. -/
def sleepNs (cval cnt freq : Nat) : Nat := (cval - cnt) * 1000000000 / freq

/-- The product of the conversion is reduced to a word; since the frequency is one,
the quotient is right exactly if nothing was lost. -/
theorem mod_div_eq_iff {x f : Nat} (hf : 0 < f) (hf' : f < 2 ^ 64) :
    x % 2 ^ 64 / f = x / f ↔ x < 2 ^ 64 := by
  constructor
  · intro h
    by_contra hx
    have hsplit : x % 2 ^ 64 + 2 ^ 64 ≤ x := by omega
    have hlt : x % 2 ^ 64 / f < x / f := by
      calc x % 2 ^ 64 / f < x % 2 ^ 64 / f + 1 := Nat.lt_succ_self _
        _ = (x % 2 ^ 64 + f) / f := (Nat.add_div_right _ hf).symm
        _ ≤ x / f := Nat.div_le_div_right (by omega)
    omega
  · intro h
    rw [Nat.mod_eq_of_lt h]

theorem ticksToNs_toNat {timer : Timer} {cval : BitVec 64} (h : timer.cntvct ≤ cval) :
    (timer.ticksToNs (timerRemainingTicks cval timer.cntvct)).toNat =
      (cval.toNat - timer.cntvct.toNat) * 1000000000 % 2 ^ 64 / timer.cntfrq.toNat := by
  rw [timerRemainingTicks, if_pos h, Timer.ticksToNs, toNat_udiv, toNat_mul,
    toNat_sub_of_le h]
  rfl

/-- The time until the timer fires, as the hypervisor computes it, is never too long,
and it is exact if the product of ticks and nanoseconds fits a word. -/
theorem ticksToNs_spec {timer : Timer} {cval : BitVec 64} (hcnt : timer.cntvct ≤ cval)
    (hfreq : 0 < timer.cntfrq)
    (hns : sleepNs cval.toNat timer.cntvct.toNat timer.cntfrq.toNat < 2 ^ 56) :
    (timer.ticksToNs (timerRemainingTicks cval timer.cntvct)).toNat < 2 ^ 56 ∧
      (timer.ticksToNs (timerRemainingTicks cval timer.cntvct) =
          .ofNat 64 (sleepNs cval.toNat timer.cntvct.toNat timer.cntfrq.toNat) ↔
        (cval.toNat - timer.cntvct.toNat) * 1000000000 < 2 ^ 64) := by
  have htoNat := ticksToNs_toNat hcnt
  have hle : (cval.toNat - timer.cntvct.toNat) * 1000000000 % 2 ^ 64 / timer.cntfrq.toNat ≤
      sleepNs cval.toNat timer.cntvct.toNat timer.cntfrq.toNat :=
    Nat.div_le_div_right (Nat.mod_le _ _)
  have hpos : 0 < timer.cntfrq.toNat := hfreq
  constructor
  · omega
  · have hfits : sleepNs cval.toNat timer.cntvct.toNat timer.cntfrq.toNat < 2 ^ 64 :=
      hns.trans (by decide)
    rw [← mod_div_eq_iff hpos timer.cntfrq.isLt, ← toNat_inj, htoNat, toNat_ofNat,
      Nat.mod_eq_of_lt hfits]
    exact Iff.rfl

namespace Hypervisor

variable {M : Machine} {s s' : Hypervisor M} {timer : Timer}

/-! ## What the primary VM gets -/

theorem switchToPrimary_retvals {current next : VCpuId M} {ret : HfVCpuRunReturn}
    {state : VCpuStatus} (h : s.switchToPrimary timer current ret state = .ok (next, s')) :
    (s'.vcpu next).regs.retvals.head? = some (ret.sleepUntil timer).intoRaw := by
  obtain ⟨-, -, hretvals⟩ := (switchToPrimary_post timer current s ret state).of_ok h
  rw [hretvals]
  rfl

/-- A vCPU that is not running, in a VM that is not aborting, is only declined if it
is blocked. -/
theorem vcpuPrepareRun_declined {v current : VCpuId M} {runRet ret : HfVCpuRunReturn}
    (hlocked : (s.vcpu v).locked = false) (haborting : s.aborting v.vm = false)
    (hstate : (s.vcpu v).state = .blockedInterrupt ∨ (s.vcpu v).state = .blockedMailbox)
    (h : s.vcpuPrepareRun timer current v runRet = (some ret, s')) :
    ret = declinedRun timer (s.vcpu v) runRet := by
  have hnot : ¬((s.vcpu v).state = .off ∨ (s.vcpu v).state = .aborted) := by
    rcases hstate with hstate | hstate <;> rw [hstate] <;> decide
  rw [vcpuPrepareRun] at h
  dsimp only at h
  rw [hlocked, haborting, if_neg Bool.false_ne_true, if_neg Bool.false_ne_true, if_neg hnot] at h
  split_ifs at h
  · cases h
  · cases h
    rfl
  · cases h

theorem vcpuRun_eq_declinedRun {v current : VCpuId M} {ret : HfVCpuRunReturn}
    (hv : v.vm ≠ M.primary) (hcurrent : current.vm = M.primary)
    (hlocked : (s.vcpu v).locked = false) (haborting : s.aborting v.vm = false)
    (hstate : (s.vcpu v).state = .blockedInterrupt ∨ (s.vcpu v).state = .blockedMailbox)
    (h : s.vcpuRun timer (M.vmId v.vm) v.index current = .ok (.error ret, s')) :
    ret = declinedRun timer (s.vcpu v) (.waitForInterrupt hfSleepIndefinite) := by
  rw [vcpuRun, if_neg (not_not.mpr (Machine.vmId_eq_primary.mpr hcurrent)),
    if_neg (mt Machine.vmId_eq_primary.mp hv), Machine.get_eq_some.mpr rfl] at h
  obtain ⟨o, ho, h⟩ := bind_eq_ok.mp h
  cases ho
  dsimp only at h
  rw [dif_pos v.index.isLt] at h
  rcases hprepare : s.vcpuPrepareRun timer current v (.waitForInterrupt hfSleepIndefinite) with
    ⟨_ | r, s₁⟩
  · rw [hprepare] at h
    obtain ⟨s₂, -, h⟩ := bind_eq_ok.mp h
    cases h
  · rw [hprepare] at h
    cases h
    exact vcpuPrepareRun_declined hlocked haborting hstate hprepare

/-- The packed value of a blocked vCPU with a running timer, by its state. -/
def sleepCode (state : VCpuStatus) (ns : BitVec 64) : HfVCpuRunDecoded :=
  if state = .blockedMailbox then .waitForMessage ns else .waitForInterrupt ns

/-- Whenever a vCPU blocks, or is not run because it is blocked, while its timer
runs, the value that the primary VM gets holds the time until the timer fires
exactly if the product of the ticks and the nanoseconds of a second fits 64 bits. -/
theorem sleep_time_iff (cval cnt freq : BitVec 64) (hcnt : cnt ≤ cval) (hfreq : 0 < freq)
    (hns : sleepNs cval.toNat cnt.toNat freq.toNat < 2 ^ 56) :
    (∀ (M : Machine) (s s' : Hypervisor M) (current next : VCpuId M) (timer : Timer)
      (ret : HfVCpuRunReturn) (state : VCpuStatus),
      timer.cntvCval = cval → timer.cntvct = cnt → timer.cntfrq = freq →
      timer.enabledCurrent = true →
      ((∃ ns, ret = .waitForInterrupt ns) ∧ state = .blockedInterrupt ∨
        (∃ ns, ret = .waitForMessage ns) ∧ state = .blockedMailbox) →
      s.switchToPrimary timer current ret state = .ok (next, s') →
      ((s'.vcpu next).regs.retvals.head?.map hfVCpuRunReturnDecode =
          some (sleepCode state (.ofNat 64 (sleepNs cval.toNat cnt.toNat freq.toNat))) ↔
        (cval.toNat - cnt.toNat) * 1000000000 < 2 ^ 64)) ∧
    (∀ (M : Machine) (s s' : Hypervisor M) (current v : VCpuId M) (timer : Timer)
      (ret : HfVCpuRunReturn),
      (s.vcpu v).regs.cntvCval = cval → timer.cntvct = cnt → timer.cntfrq = freq →
      (s.vcpu v).regs.timerEnabled = true →
      v.vm ≠ M.primary → current.vm = M.primary →
      (s.vcpu v).locked = false → s.aborting v.vm = false →
      ((s.vcpu v).state = .blockedInterrupt ∨ (s.vcpu v).state = .blockedMailbox) →
      s.vcpuRun timer (M.vmId v.vm) v.index current = .ok (.error ret, s') →
      (hfVCpuRunReturnDecode ret.intoRaw = sleepCode (s.vcpu v).state
          (.ofNat 64 (sleepNs cval.toNat cnt.toNat freq.toNat)) ↔
        (cval.toNat - cnt.toNat) * 1000000000 < 2 ^ 64)) := by
  constructor
  · rintro M s s' current next timer ret state rfl rfl rfl henabled hret h
    obtain ⟨hlt, hiff⟩ := ticksToNs_spec hcnt hfreq hns
    have hsleep : sleepUntil.sleepNs timer =
        timer.ticksToNs (timerRemainingTicks timer.cntvCval timer.cntvct) := if_pos henabled
    rw [switchToPrimary_retvals h, Option.map_some, Option.some.injEq, ← hiff]
    rcases hret with ⟨⟨ns, rfl⟩, rfl⟩ | ⟨⟨ns, rfl⟩, rfl⟩
    · rw [sleepUntil, hsleep, decode_waitForInterrupt hlt, sleepCode,
        if_neg nofun, HfVCpuRunDecoded.waitForInterrupt.injEq]
    · rw [sleepUntil, hsleep, decode_waitForMessage hlt, sleepCode, if_pos rfl,
        HfVCpuRunDecoded.waitForMessage.injEq]
  · rintro M s s' current v timer ret rfl rfl rfl henabled hv hcurrent hlocked haborting hstate h
    obtain ⟨hlt, hiff⟩ := ticksToNs_spec hcnt hfreq hns
    obtain rfl := vcpuRun_eq_declinedRun hv hcurrent hlocked haborting hstate h
    rw [← hiff, declinedRun, henabled, if_neg nofun, ArchRegs.timerRemainingNs]
    rcases hstate with hstate | hstate
    · rw [hstate, if_neg nofun, decode_waitForInterrupt hlt, sleepCode, if_neg nofun,
        HfVCpuRunDecoded.waitForInterrupt.injEq]
    · rw [hstate, if_pos rfl, decode_waitForMessage hlt, sleepCode, if_pos rfl,
        HfVCpuRunDecoded.waitForMessage.injEq]

/-- A running timer whose count is 0. -/
def sleepTimer (cval freq : BitVec 64) : Timer := ⟨1, cval, 0, freq⟩

/-- A thousand ticks of a timer at 1 GHz are a microsecond. -/
theorem sleep_time_microsecond :
    ∃ next s', (exampleState fun _ => 0).switchToPrimary (sleepTimer 1000 1000000000)
        (exampleVCpu 1) (.waitForInterrupt hfSleepIndefinite) .blockedInterrupt = .ok (next, s') ∧
      (s'.vcpu next).regs.retvals.head?.map hfVCpuRunReturnDecode =
        some (sleepCode .blockedInterrupt (.ofNat 64 (sleepNs 1000 0 1000000000))) :=
  ⟨_, _, rfl, ((sleep_time_iff 1000 0 1000000000 (by decide) (by decide) (by decide)).1
    exampleMachine (exampleState fun _ => 0) _ (exampleVCpu 1) _ (sleepTimer 1000 1000000000) _ _
    rfl rfl rfl rfl (Or.inl ⟨⟨_, rfl⟩, rfl⟩) rfl).mpr (by decide)⟩

/-- At 62.5 MHz, a vCPU that sleeps for 295 seconds is reported to sleep for 4
nanoseconds. -/
theorem sleep_time_wraps :
    (0 : BitVec 64) ≤ 18446744074 ∧ (0 : BitVec 64) < 62500000 ∧
      sleepNs 18446744074 0 62500000 = 295147905184 ∧ 295147905184 < 2 ^ 56 ∧
      (sleepTimer 18446744074 62500000).enabledCurrent = true ∧
      ∃ next s', (exampleState fun _ => 0).switchToPrimary (sleepTimer 18446744074 62500000)
          (exampleVCpu 1) (.waitForInterrupt hfSleepIndefinite) .blockedInterrupt =
            .ok (next, s') ∧
        (s'.vcpu next).regs.retvals.head?.map hfVCpuRunReturnDecode =
          some (.waitForInterrupt 4) :=
  ⟨by decide, by decide, by decide, by decide, by decide, _, _, rfl, by decide⟩

end Hypervisor
end Hafnium
