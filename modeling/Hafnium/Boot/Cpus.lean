import Hafnium.Hypervisor

/-!
# Physical CPUs

`CpuManager` of `cpu.rs`, and the message buffers of the physical CPUs.  The ids of
CPUs come from the device tree and need not be contiguous; the buffers are an array
indexed by id.
-/

namespace Hafnium

/-- A physical CPU: its id, the end of its stack, and whether it is on. -/
structure Cpu where
  id : Nat
  stackBottom : Nat
  isOn : Bool
  deriving DecidableEq, Repr

def stackSize : Nat := pageSize

/-- `CpuManager::new`: the boot CPU comes first.  `none` is the panic if the boot CPU
is not listed exactly once. -/
def CpuManager.new (cpuIds : List Nat) (bootCpuId stackBase : Nat) : Option (List Cpu) :=
  if cpuIds.countP (bootCpuId = ·) ≠ 1 then none
  else
    let others := (cpuIds.filter (bootCpuId ≠ ·)).zip ((List.range maxCpus).drop 1)
    some (⟨bootCpuId, stackBase + stackSize, true⟩ ::
      others.map fun (id, i) => ⟨id, stackBase + i * stackSize + stackSize, false⟩)

/-- `cpu_get_buffer`, where the array of buffers is at an address. -/
def cpuGetBuffer (messageBuffer cpuId : Nat) : Except Panic Nat :=
  if cpuId < maxCpus then .ok (messageBuffer + cpuId * pageSize) else .error .cpuBuffer

/-- A vCPU gets the buffer of the physical CPU that it runs on. -/
theorem Hypervisor.cpuGetBuffer_eq {M : Machine} {s : Hypervisor M} {current : VCpuId M}
    {i id : Nat} (hcpu : (s.vcpu current).cpu = some i) (hid : M.cpuIds[i]? = some id) :
    s.cpuGetBuffer current = Hafnium.cpuGetBuffer M.messageBuffer id := by
  rw [Hypervisor.cpuGetBuffer, hcpu, Option.bind_some, hid, Hafnium.cpuGetBuffer]
  rfl

/-- Each CPU has a buffer, and no two have the same. -/
def OwnBuffers (messageBuffer : Nat) (cpus : List Cpu) : Prop :=
  (∀ cpu ∈ cpus, ∃ buffer, cpuGetBuffer messageBuffer cpu.id = .ok buffer) ∧
    cpus.Pairwise fun cpu other =>
      cpuGetBuffer messageBuffer cpu.id ≠ cpuGetBuffer messageBuffer other.id

theorem cpuGetBuffer_isOk {messageBuffer id : Nat} :
    (∃ buffer, cpuGetBuffer messageBuffer id = .ok buffer) ↔ id < maxCpus := by
  rw [cpuGetBuffer]
  constructor
  · rintro ⟨buffer, h⟩
    by_contra hid
    rw [if_neg hid] at h
    contradiction
  · intro hid
    exact ⟨_, if_pos hid⟩

theorem cpuGetBuffer_inj {messageBuffer id id' : Nat} (hid : id < maxCpus) (hid' : id' < maxCpus)
    (h : cpuGetBuffer messageBuffer id = cpuGetBuffer messageBuffer id') : id = id' := by
  rw [cpuGetBuffer, cpuGetBuffer, if_pos hid, if_pos hid', Except.ok.injEq,
    Nat.add_left_cancel_iff] at h
  exact Nat.eq_of_mul_eq_mul_right (by decide) h

variable {cpuIds : List Nat} {bootCpuId : Nat}

/-- Every listed CPU is created. -/
theorem CpuManager.new_spec (hnodup : cpuIds.Nodup) (hlength : cpuIds.length ≤ maxCpus)
    (hboot : bootCpuId ∈ cpuIds) (stackBase : Nat) :
    ∃ cpus, CpuManager.new cpuIds bootCpuId stackBase = some cpus ∧
      (cpus.map Cpu.id).Perm cpuIds := by
  have hcount : cpuIds.countP (bootCpuId = ·) = 1 := by
    have heq : cpuIds.countP (fun id => decide (bootCpuId = id)) = cpuIds.count bootCpuId := by
      rw [List.count]
      congr 1
      funext id
      simp [beq_eq_decide, eq_comm]
    rw [heq]
    exact List.count_eq_one_of_mem hnodup hboot
  have hfilter : cpuIds.filter (bootCpuId ≠ ·) = cpuIds.erase bootCpuId := by
    rw [hnodup.erase_eq_filter]
    congr 1
    funext id
    simp [bne, beq_eq_decide, eq_comm]
  refine ⟨_, by rw [CpuManager.new, if_neg (not_not.mpr hcount)], ?_⟩
  have hids : ((cpuIds.filter (bootCpuId ≠ ·)).zip ((List.range maxCpus).drop 1)).map Prod.fst =
      cpuIds.erase bootCpuId := by
    rw [List.map_fst_zip, hfilter]
    rw [hfilter, List.length_erase_of_mem hboot, List.length_drop, List.length_range]
    omega
  rw [List.map_cons, List.map_map]
  have hmap : (Cpu.id ∘ fun p : Nat × Nat => Cpu.mk p.1 (stackBase + p.2 * stackSize + stackSize)
      false) =
      Prod.fst := rfl
  rw [hmap, hids]
  exact (List.perm_cons_erase hboot).symm

/-- Each CPU has its own buffer if and only if all ids are below the number of
buffers. -/
theorem cpu_buffers_iff (hnodup : cpuIds.Nodup) (hlength : cpuIds.length ≤ maxCpus)
    (hboot : bootCpuId ∈ cpuIds) (stackBase messageBuffer : Nat) :
    ∃ cpus, CpuManager.new cpuIds bootCpuId stackBase = some cpus ∧
      (cpus.map Cpu.id).Perm cpuIds ∧
      (∀ (M : Machine) (s : Hypervisor M) (current : VCpuId M) (i : Nat) (cpu : Cpu),
        M.cpuIds = cpus.map Cpu.id → M.messageBuffer = messageBuffer →
        (s.vcpu current).cpu = some i → cpus[i]? = some cpu →
          s.cpuGetBuffer current = cpuGetBuffer messageBuffer cpu.id) ∧
      (OwnBuffers messageBuffer cpus ↔ ∀ id ∈ cpuIds, id < maxCpus) := by
  obtain ⟨cpus, hnew, hperm⟩ := CpuManager.new_spec hnodup hlength hboot stackBase
  refine ⟨cpus, hnew, hperm, ?_, ?_⟩
  · intro M s current i cpu hids hbuffer hcpu hi
    rw [← hbuffer]
    apply Hypervisor.cpuGetBuffer_eq hcpu
    rw [hids, List.getElem?_map, hi, Option.map_some]
  · constructor
    · intro h id hid
      obtain ⟨cpu, hcpu, rfl⟩ := List.mem_map.mp (hperm.mem_iff.mpr hid)
      exact cpuGetBuffer_isOk.mp (h.1 cpu hcpu)
    · intro h
      have hlt : ∀ cpu ∈ cpus, cpu.id < maxCpus := fun cpu hcpu =>
        h cpu.id (hperm.mem_iff.mp (List.mem_map_of_mem hcpu))
      constructor
      · intro cpu hcpu
        exact cpuGetBuffer_isOk.mpr (hlt cpu hcpu)
      · have hpairwise : cpus.Pairwise fun cpu other => cpu.id ≠ other.id :=
          List.pairwise_map.mp (hperm.nodup_iff.mpr hnodup)
        apply hpairwise.imp_of_mem
        intro cpu other hcpu hother hne heq
        exact hne (cpuGetBuffer_inj (hlt cpu hcpu) (hlt other hother) heq)

theorem cpu_buffers_two : ∃ cpus, CpuManager.new [1, 0] 0 0x10000 = some cpus ∧
    OwnBuffers 0x80000 cpus := by
  have hnodup : [1, 0].Nodup := by decide
  have hboot : 0 ∈ [1, 0] := by decide
  obtain ⟨cpus, hnew, -, -, hiff⟩ := cpu_buffers_iff hnodup (by decide) hboot 0x10000 0x80000
  exact ⟨cpus, hnew, hiff.mpr (by decide)⟩

/-- A CPU of a second cluster has no buffer. -/
theorem sparse_cpu_has_no_buffer :
    ∃ cpus, CpuManager.new [0, 0x100] 0 0x10000 = some cpus ∧ cpus.map Cpu.id = [0, 0x100] ∧
      cpuGetBuffer 0x80000 0x100 = .error .cpuBuffer ∧ ¬OwnBuffers 0x80000 cpus := by
  refine ⟨_, rfl, rfl, rfl, ?_⟩
  rintro ⟨h, -⟩
  obtain ⟨buffer, hbuffer⟩ := h ⟨0x100, 0x12000, false⟩ (by decide)
  contradiction

end Hafnium
