import Hafnium.Calls

/-!
# Trapped accesses to debug registers

`handle_system_register_access` of `handler.c` and the emulation of `debug_el1.c`.  The
syndrome of the trap holds the system register, the general register `Rt` and the
direction.  What the hypervisor does to system registers is the list of its own
accesses; what it reads there is given by the hardware.
-/

namespace Hafnium

open Support Function List Option Prod

/-- The saved registers of a vCPU that an access can change. -/
structure GuestRegs where
  r : Fin 31 → BitVec 64
  pc : BitVec 64

/-! ## The syndrome -/

def getEc (esr : BitVec 64) : BitVec 64 := esr >>> 26
def getNextPcInc (esr : BitVec 64) : BitVec 64 := if esr &&& (1#64 <<< 25) ≠ 0 then 4 else 2

def issSysregMask : BitVec 64 := ((1#64 <<< 22) - 1) &&& ~~~(0x1f#64 <<< 5) &&& ~~~1#64
def getIssSysreg (esr : BitVec 64) : BitVec 64 := issSysregMask &&& esr
def getIssOp0 (esr : BitVec 64) : BitVec 64 := (0x300000 &&& esr) >>> 20
def getIssOp1 (esr : BitVec 64) : BitVec 64 := (0x1c000 &&& esr) >>> 14
def issIsRead (esr : BitVec 64) : Bool := 1 &&& esr != 0
def getIssRt (esr : BitVec 64) : BitVec 64 := (0x3e0 &&& esr) >>> 5

theorem getIssRt_le (esr : BitVec 64) : (getIssRt esr).toNat ≤ 31 := by
  rw [getIssRt, BitVec.toNat_ushiftRight, BitVec.toNat_and, Nat.shiftRight_eq_div_pow]
  have h := Nat.and_le_left (n := 0x3e0) (m := esr.toNat)
  change 0x3e0 &&& esr.toNat ≤ 0x3e0 at h
  change (0x3e0 &&& esr.toNat) / 2 ^ 5 ≤ 31
  omega

/-! ## The registers -/

inductive DebugReg
  | mdrar
  | dbgauthstatus
  | oslsr
  | dbgclaimclr
  | dbgclaimset
  | dbgprcr
  | mdccint
  | mdscr
  | osdlr
  | osdtrrx
  | osdtrtx
  | oseccr
  | dbgbcr (n : Fin 16)
  | dbgbvr (n : Fin 16)
  | dbgwcr (n : Fin 16)
  | dbgwvr (n : Fin 16)
  deriving DecidableEq, Repr

/-- Sixteen registers with consecutive signatures. -/
def DebugReg.bank (reg : Fin 16 → DebugReg) (sig : BitVec 64) : List (DebugReg × BitVec 64) :=
  (finRange 16).map fun n => (reg n, sig + 2 * BitVec.ofNat 64 n)

/-- The registers that can only be read, with their signatures. -/
def el1DebugRegistersRead : List (DebugReg × BitVec 64) :=
  [(.mdrar, 0x200400), (.dbgauthstatus, 0x2c1c1c), (.oslsr, 0x280402)]

def el1DebugRegistersReadWrite : List (DebugReg × BitVec 64) :=
  [(.dbgclaimclr, 0x2c1c12), (.dbgclaimset, 0x2c1c10), (.dbgprcr, 0x280408),
    (.mdccint, 0x200004), (.mdscr, 0x240004), (.osdlr, 0x280406), (.osdtrrx, 0x240000),
    (.osdtrtx, 0x240006), (.oseccr, 0x24000c)] ++
  DebugReg.bank .dbgbcr 0x2a0000 ++ DebugReg.bank .dbgbvr 0x280000 ++
  DebugReg.bank .dbgwcr 0x2e0000 ++ DebugReg.bank .dbgwvr 0x2c0000

def el1DebugRegisters : List (DebugReg × BitVec 64) :=
  el1DebugRegistersRead ++ el1DebugRegistersReadWrite

/-- The register that a `switch` over a table selects. -/
def selectReg (table : List (DebugReg × BitVec 64)) (sig : BitVec 64) : Option DebugReg :=
  (table.find? fun x => x.2 = sig).map fst

theorem selectReg_eq_none {table : List (DebugReg × BitVec 64)} {sig : BitVec 64} :
    selectReg table sig = none ↔ ∀ reg, (reg, sig) ∉ table := by
  simp only [selectReg, map_eq_none_iff, find?_eq_none, decide_eq_true_eq]
  constructor
  · intro h reg hmem
    exact h _ hmem rfl
  · rintro h ⟨reg, sig'⟩ hmem rfl
    exact h reg hmem

theorem selectReg_eq_some {table : List (DebugReg × BitVec 64)}
    (hnodup : (table.map snd).Nodup) {sig : BitVec 64} {reg : DebugReg} :
    selectReg table sig = some reg ↔ (reg, sig) ∈ table := by
  rw [selectReg, map_eq_some_iff]
  constructor
  · rintro ⟨⟨reg', sig'⟩, hfind, rfl⟩
    obtain rfl : sig' = sig := by simpa using find?_some hfind
    exact mem_of_find?_eq_some hfind
  · intro hmem
    have hsome : (table.find? fun x => x.2 = sig).isSome := by
      rw [find?_isSome]
      exact ⟨_, hmem, by simp⟩
    obtain ⟨⟨reg', sig'⟩, hfind⟩ := isSome_iff_exists.mp hsome
    obtain rfl : sig' = sig := by simpa using find?_some hfind
    have hmem' := mem_of_find?_eq_some hfind
    exact ⟨_, hfind, congrArg fst
      (inj_on_of_nodup_map hnodup hmem' hmem rfl)⟩

/-- No two cases of the `switch` are the same. -/
theorem el1DebugRegisters_nodup : (el1DebugRegisters.map snd).Nodup := by
  decide +kernel

theorem el1DebugRegistersReadWrite_nodup : (el1DebugRegistersReadWrite.map snd).Nodup := by
  have h := el1DebugRegisters_nodup
  rw [el1DebugRegisters, map_append] at h
  exact h.of_append_right

/-! ## The emulation -/

/-- An access of the hypervisor to a system register. -/
inductive SysAccess
  | mrs (reg : DebugReg)
  | msr (reg : DebugReg) (value : BitVec 64)
  deriving DecidableEq, Repr

def isDebugEl1RegisterAccess (esr : BitVec 64) : Bool :=
  getIssOp0 esr == 2 && getIssOp1 esr != 1

/-- What the emulation does: its accesses, whether the access was allowed, and the
registers afterwards. -/
def debugEl1ProcessAccess (mrs : DebugReg → BitVec 64) (vmId : Nat) (esr : BitVec 64)
    (regs : GuestRegs) : List SysAccess × Except Panic (Bool × GuestRegs) :=
  if vmId ≠ hfPrimaryVmId then ([], .ok (false, regs))
  else
    let sysRegister := getIssSysreg esr
    let rtRegister := (getIssRt esr).toNat
    if h : rtRegister < 31 then
      let rt : Fin 31 := ⟨rtRegister, h⟩
      if issIsRead esr then
        match selectReg el1DebugRegisters sysRegister with
        | some reg =>
          ([.mrs reg], .ok (true, { regs with r := update regs.r rt (mrs reg) }))
        | none =>
          let value := regs.r rt
          ([], .ok (true, { regs with r := update regs.r rt value }))
      else
        let value := regs.r rt
        match selectReg el1DebugRegistersReadWrite sysRegister with
        | some reg => ([.msr reg value], .ok (true, regs))
        | none => ([], .ok (true, regs))
    else ([], .error .check)

namespace Hypervisor

variable {M : Machine}

/-- `api_abort` at the end of a handler. -/
def abortTrap (timer : Timer) (current : VCpuId M) (regs : GuestRegs) (s : Hypervisor M) :
    Except Panic ((Option (VCpuId M) × GuestRegs) × Hypervisor M) := do
  let (next, s) ← s.abort timer current
  return ((some next, regs), s)

def handleSystemRegisterAccess (timer : Timer) (mrs : DebugReg → BitVec 64) (esr : BitVec 64)
    (current : VCpuId M) (regs : GuestRegs) (s : Hypervisor M) :
    List SysAccess × Except Panic ((Option (VCpuId M) × GuestRegs) × Hypervisor M) :=
  if getEc esr ≠ 0x18 then ([], .error .check)
  else if !isDebugEl1RegisterAccess esr then ([], s.abortTrap timer current regs)
  else
    match debugEl1ProcessAccess mrs (M.vmId current.vm) esr regs with
    | (accesses, .error e) => (accesses, .error e)
    | (accesses, .ok (false, regs)) => (accesses, s.abortTrap timer current regs)
    | (accesses, .ok (true, regs)) =>
      (accesses, .ok ((none, { regs with pc := regs.pc + getNextPcInc esr }), s))

end Hypervisor

/-! ## What an access should do -/

/-- The value of a general register as an operand; number 31 is the zero register. -/
def GuestRegs.operand (regs : GuestRegs) (rt : Nat) : BitVec 64 :=
  if h : rt < 31 then regs.r ⟨rt, h⟩ else 0

/-- The registers after a value was loaded into a general register. -/
def GuestRegs.load (regs : GuestRegs) (rt : Nat) (value : BitVec 64) : Fin 31 → BitVec 64 :=
  fun i => if i = rt then value else regs.r i

/-- An access was carried out by `accesses` and left the registers `regs'`. -/
structure Emulated (mrs : DebugReg → BitVec 64) (esr : BitVec 64) (regs : GuestRegs)
    (accesses : List SysAccess) (regs' : GuestRegs) : Prop where
  pc : regs'.pc = regs.pc + getNextPcInc esr
  read : issIsRead esr = true → ∀ reg, (reg, getIssSysreg esr) ∈ el1DebugRegisters →
    accesses = [.mrs reg] ∧ regs'.r = regs.load (getIssRt esr).toNat (mrs reg)
  readUnlisted : issIsRead esr = true → (∀ reg, (reg, getIssSysreg esr) ∉ el1DebugRegisters) →
    accesses = [] ∧ regs'.r = regs.r
  write : issIsRead esr = false → ∀ reg, (reg, getIssSysreg esr) ∈ el1DebugRegistersReadWrite →
    accesses = [.msr reg (regs.operand (getIssRt esr).toNat)] ∧ regs'.r = regs.r
  writeUnlisted : issIsRead esr = false →
    (∀ reg, (reg, getIssSysreg esr) ∉ el1DebugRegistersReadWrite) →
    accesses = [] ∧ regs'.r = regs.r

theorem GuestRegs.load_eq_update (regs : GuestRegs) (rt : Fin 31) (value : BitVec 64) :
    regs.load rt value = update regs.r rt value := by
  funext i
  rw [load, update_apply]
  simp only [Fin.ext_iff]

/-- For a general register that is saved, the emulation does what it should. -/
theorem debugEl1ProcessAccess_primary (mrs : DebugReg → BitVec 64) {esr : BitVec 64}
    (regs : GuestRegs) (hrt : (getIssRt esr).toNat < 31) :
    ∃ accesses regs', debugEl1ProcessAccess mrs hfPrimaryVmId esr regs =
        (accesses, .ok (true, regs')) ∧
      Emulated mrs esr regs accesses { regs' with pc := regs'.pc + getNextPcInc esr } := by
  rw [debugEl1ProcessAccess, if_neg (not_not.mpr rfl)]
  dsimp only
  rw [dif_pos hrt]
  have hload := regs.load_eq_update ⟨_, hrt⟩
  have hoperand : regs.operand (getIssRt esr).toNat = regs.r ⟨_, hrt⟩ := dif_pos hrt
  cases hread : issIsRead esr with
  | true =>
    rw [if_pos rfl]
    cases hselect : selectReg el1DebugRegisters (getIssSysreg esr) with
    | some reg =>
      have hmem := (selectReg_eq_some el1DebugRegisters_nodup).mp hselect
      refine ⟨_, _, rfl, ⟨rfl, fun _ reg' h => ?_, fun _ h => absurd hmem (h reg),
        fun h => absurd (hread.symm.trans h) nofun,
        fun h => absurd (hread.symm.trans h) nofun⟩⟩
      rw [← selectReg_eq_some el1DebugRegisters_nodup, hselect] at h
      obtain rfl := some.inj h
      exact ⟨rfl, (hload _).symm⟩
    | none =>
      have hnone := selectReg_eq_none.mp hselect
      refine ⟨_, _, rfl, ⟨rfl, fun _ reg h => absurd h (hnone reg), fun _ _ => ⟨rfl, ?_⟩,
        fun h => absurd (hread.symm.trans h) nofun,
        fun h => absurd (hread.symm.trans h) nofun⟩⟩
      exact update_eq_self _ _
  | false =>
    rw [if_neg Bool.false_ne_true]
    cases hselect : selectReg el1DebugRegistersReadWrite (getIssSysreg esr) with
    | some reg =>
      have hmem := (selectReg_eq_some el1DebugRegistersReadWrite_nodup).mp hselect
      refine ⟨_, _, rfl, ⟨rfl, fun h => absurd (hread.symm.trans h) nofun,
        fun h => absurd (hread.symm.trans h) nofun, fun _ reg' h => ?_,
        fun _ h => absurd hmem (h reg)⟩⟩
      rw [← selectReg_eq_some el1DebugRegistersReadWrite_nodup, hselect] at h
      obtain rfl := some.inj h
      exact ⟨by rw [hoperand], rfl⟩
    | none =>
      have hnone := selectReg_eq_none.mp hselect
      exact ⟨_, _, rfl, ⟨rfl, fun h => absurd (hread.symm.trans h) nofun,
        fun h => absurd (hread.symm.trans h) nofun,
        fun _ reg h => absurd h (hnone reg), fun _ _ => ⟨rfl, rfl⟩⟩⟩

namespace Hypervisor

variable {M : Machine} {timer : Timer} {mrs : DebugReg → BitVec 64} {esr : BitVec 64}
  {current p : VCpuId M} {regs : GuestRegs} {s : Hypervisor M}

/-- A trapped access is emulated, or the VM aborted, without a failed check. -/
structure AccessHandled (timer : Timer) (mrs : DebugReg → BitVec 64) (esr : BitVec 64)
    (current : VCpuId M) (regs : GuestRegs) (s : Hypervisor M) : Prop where
  /-- Only aborting the primary VM does not return. -/
  returns : ∀ e, (s.handleSystemRegisterAccess timer mrs esr current regs).2 = .error e →
    e = .spin ∧ current.vm = M.primary ∧ isDebugEl1RegisterAccess esr = false
  aborts : current.vm ≠ M.primary ∨ isDebugEl1RegisterAccess esr = false →
    s.handleSystemRegisterAccess timer mrs esr current regs = ([], s.abortTrap timer current regs)
  emulates : current.vm = M.primary → isDebugEl1RegisterAccess esr = true →
    ∃ accesses regs', s.handleSystemRegisterAccess timer mrs esr current regs =
        (accesses, .ok ((none, regs'), s)) ∧
      Emulated mrs esr regs accesses regs'

theorem handleSystemRegisterAccess_aborts (hec : getEc esr = 0x18)
    (h : current.vm ≠ M.primary ∨ isDebugEl1RegisterAccess esr = false) :
    s.handleSystemRegisterAccess timer mrs esr current regs =
      ([], s.abortTrap timer current regs) := by
  rw [handleSystemRegisterAccess, if_neg (not_not.mpr hec)]
  cases hdebug : isDebugEl1RegisterAccess esr with
  | false => rfl
  | true =>
    obtain hvm | hfalse := h
    · rw [if_neg (by simp), debugEl1ProcessAccess, if_pos (mt Machine.vmId_eq_primary.mp hvm)]
    · cases hdebug.symm.trans hfalse

theorem handleSystemRegisterAccess_debug (hec : getEc esr = 0x18)
    (hdebug : isDebugEl1RegisterAccess esr = true) (hvm : current.vm = M.primary) :
    s.handleSystemRegisterAccess timer mrs esr current regs =
      match debugEl1ProcessAccess mrs hfPrimaryVmId esr regs with
      | (accesses, .error e) => (accesses, .error e)
      | (accesses, .ok (false, regs)) => (accesses, s.abortTrap timer current regs)
      | (accesses, .ok (true, regs)) =>
        (accesses, .ok ((none, { regs with pc := regs.pc + getNextPcInc esr }), s)) := by
  rw [handleSystemRegisterAccess, if_neg (not_not.mpr hec), hdebug, if_neg (by simp),
    Machine.vmId_eq_primary.mpr hvm]

theorem abortTrap_error {e : Panic} (hp : s.primaryVCpu current = .ok p)
    (h : s.abortTrap timer current regs = .error e) : e = .spin ∧ current.vm = M.primary := by
  rw [abortTrap, abort] at h
  by_cases hvm : M.vmId current.vm = hfPrimaryVmId
  · rw [if_pos hvm] at h
    exact ⟨(Except.error.inj h).symm, Machine.vmId_eq_primary.mp hvm⟩
  · have hp' : primaryVCpu current
        { s with aborting := update s.aborting current.vm true } = .ok p := hp
    rw [if_neg hvm, switchToPrimary_of_ok hp'] at h
    contradiction

/-- Trapped accesses are handled, but for accesses of the primary VM to debug registers
that name the zero register: these fail a check. -/
theorem accessHandled_iff (timer : Timer) (mrs : DebugReg → BitVec 64) (regs : GuestRegs)
    (hec : getEc esr = 0x18) (hp : s.primaryVCpu current = .ok p) :
    s.AccessHandled timer mrs esr current regs ↔
      ¬ (current.vm = M.primary ∧ isDebugEl1RegisterAccess esr = true ∧ getIssRt esr = 31) := by
  constructor
  · rintro h ⟨hvm, hdebug, hrt⟩
    obtain ⟨accesses, regs', hr, -⟩ := h.emulates hvm hdebug
    rw [handleSystemRegisterAccess_debug hec hdebug hvm, debugEl1ProcessAccess,
      if_neg (not_not.mpr rfl)] at hr
    dsimp only at hr
    rw [hrt, dif_neg (by decide)] at hr
    exact nomatch congrArg snd hr
  · intro hcond
    by_cases habort : current.vm ≠ M.primary ∨ isDebugEl1RegisterAccess esr = false
    · have hr : s.handleSystemRegisterAccess timer mrs esr current regs =
          ([], s.abortTrap timer current regs) := handleSystemRegisterAccess_aborts hec habort
      refine ⟨fun e he => ?_, fun _ => hr, fun hvm hdebug => ?_⟩
      · rw [hr] at he
        obtain ⟨hspin, hvm⟩ := abortTrap_error hp he
        exact ⟨hspin, hvm, habort.resolve_left (not_not.mpr hvm)⟩
      · obtain h | h := habort
        · exact absurd hvm h
        · cases hdebug.symm.trans h
    · obtain ⟨hvm, hdebug⟩ := not_or.mp habort
      have hvm := not_not.mp hvm
      have hdebug := Bool.eq_true_of_not_eq_false hdebug
      have hrt : (getIssRt esr).toNat < 31 := by
        refine Nat.lt_of_le_of_ne (getIssRt_le esr) fun h => hcond ⟨hvm, hdebug, ?_⟩
        exact BitVec.eq_of_toNat_eq h
      obtain ⟨accesses, regs', hprocess, hemulated⟩ :=
        debugEl1ProcessAccess_primary mrs regs hrt
      have hr : s.handleSystemRegisterAccess timer mrs esr current regs = (accesses,
          .ok ((none, { regs' with pc := regs'.pc + getNextPcInc esr }), s)) := by
        rw [handleSystemRegisterAccess_debug hec hdebug hvm, hprocess]
      refine ⟨fun e he => ?_, fun h => absurd h habort, fun _ _ => ⟨_, _, hr, hemulated⟩⟩
      rw [hr] at he
      contradiction

/-- The primary VM reads `MDSCR_EL1` into its first general register. -/
theorem accessHandled_mdscr :
    (exampleState fun _ => 0).AccessHandled exampleEnv.timer (fun _ => 7) 0x62240005
      (exampleVCpu 0) ⟨fun _ => 1, 0⟩ ∧
    (DebugReg.mdscr, getIssSysreg 0x62240005) ∈ el1DebugRegisters := by
  refine ⟨?_, by decide⟩
  refine (accessHandled_iff (p := exampleVCpu 0) _ _ _ (by decide) (by decide)).mpr ?_
  decide

/-- The primary VM writes the zero register to `MDSCR_EL1`, and stops the hypervisor. -/
theorem zero_register_check :
    getEc 0x622403e4 = 0x18 ∧
    (DebugReg.mdscr, getIssSysreg 0x622403e4) ∈ el1DebugRegistersReadWrite ∧
    (exampleState fun _ => 0).handleSystemRegisterAccess exampleEnv.timer (fun _ => 7) 0x622403e4
      (exampleVCpu 0) ⟨fun _ => 1, 0⟩ = ([], .error .check) :=
  ⟨by decide, by decide, rfl⟩

end Hypervisor
end Hafnium
