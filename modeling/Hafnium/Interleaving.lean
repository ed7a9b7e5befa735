import Hafnium.Isolation
import Hafnium.Scheduling

/-!
# Memory across physical CPUs
-/

namespace Hafnium

open Support Hypervisor

def Event.Ok {M : Machine} : Event M → Prop
  | .call _ env _ _ => env.pool.Ok
  | .pool mpool => mpool.Wf
  | _ => True

namespace System

variable {M : Machine} {S S' : System M}

/-- To memory, an event is an action. -/
theorem step_action {e : Event M} (he : e.Ok) (h : S.step e = some S') :
    ∃ act hyp, act.Ok ∧ S.hyp.step act = some hyp ∧ hyp.SameMemory S'.hyp := by
  cases e with
  | call p env saved call =>
    obtain ⟨v, reply, hyp, -, -, hexec, rfl⟩ := step_call_eq_some h
    refine ⟨.call env v call, hyp, he, Hypervisor.step_call_eq_some.mpr ⟨reply, hexec⟩, ?_⟩
    rw [after]
    split <;> exact ⟨rfl, rfl, rfl, rfl⟩
  | guest mem => exact ⟨.guest mem, _, he, rfl, by cases h; exact .refl _⟩
  | pool mpool => exact ⟨.pool mpool, _, he, rfl, by cases h; exact .refl _⟩
  | resetAndStart =>
    refine ⟨.guest S.hyp.mem, S.hyp, trivial, rfl, ?_⟩
    simp only [System.step, vcpuSecondaryResetAndStart] at h
    split at h
    · next hstart =>
        cases h
        split_ifs at hstart <;> cases hstart <;> exact ⟨rfl, rfl, rfl, rfl⟩
    · contradiction
  | start | stop | affinityInfo =>
    refine ⟨.guest S.hyp.mem, S.hyp, trivial, rfl, ?_⟩
    simp only [System.step, cpuMain, affinityInfo_eq] at h
    grind [SameMemory, setVCpu]

/-- Any interleaving of the physical CPUs keeps all pages `Owned`. -/
theorem ownership_interleaved {es : List (Event M)} (hs : S.hyp.Sound)
    (howned : ∀ a, Owned (S.hyp.pageState a)) (hev : ∀ e ∈ es, e.Ok)
    (hrun : run step es S = some S') :
    S'.hyp.Sound ∧ ∀ a, Owned (S'.hyp.pageState a) := by
  refine run_invariant (fun T => T.hyp.Sound ∧ ∀ a, Owned (T.hyp.pageState a))
    (fun T e T' hI he h => ?_) ⟨hs, howned⟩ hev hrun
  obtain ⟨act, hyp, hact, hstep, hsame⟩ := step_action he h
  obtain ⟨hsound, ⟨P, hmove, -⟩, -⟩ := step_move hI.1 hact hstep
  have hpage : T'.hyp.pageState = hyp.pageState :=
    congrArg (fun pt a k => PageState.ofView ((pt k).view a)) hsame.ptable
  rw [hpage]
  exact ⟨hsound.congr hsame.ptable hsame.hypervisorPtable hsame.mpool, hmove.owned hI.2⟩

/-- The second of three VMs owns the first block of memory, and both physical CPUs are off. -/
def pairSystem : System pairMachine where
  hyp := { pairState with ptable := ownerPtable }
  current _ := none
  issuer _ := none

/-- The second VM runs on one physical CPU and the third on the other.  The second gives a
page to the third, which shares it with the second. -/
def pairEvents (p q : Fin 2) : List (Event pairMachine) :=
  [.start p, .start q, .call p exampleEnv exampleEnv.timer (.vcpuRun 2 0),
    .call q exampleEnv exampleEnv.timer (.vcpuRun 3 0),
    .call p exampleEnv exampleEnv.timer (.shareMemory 3 0x1000 0x1000 0),
    .call q exampleEnv exampleEnv.timer (.shareMemory 2 0x1000 0x1000 2)]

theorem ownership_interleaved_run : ∃ S, run step (pairEvents 0 1) pairSystem = some S ∧
    S.hyp.pageState 0x1000 (1 : Fin 3) = .sharee ∧ ∀ a, Owned (S.hyp.pageState a) := by
  have heval : (run step (pairEvents 0 1) pairSystem).map
      (fun S => S.hyp.pageState 0x1000 (1 : Fin 3)) = some .sharee := by
    decide +kernel
  obtain ⟨S, hrun, hstate⟩ := Option.map_eq_some_iff.mp heval
  have hs : pairSystem.hyp.Sound :=
    ⟨rfl, regular_ownerPtable, PageTable.regular_emptyTable false, PageTable.wf_examplePool⟩
  have henv : exampleEnv.pool.Ok := fun _ _ h => h
  refine ⟨S, hrun, hstate, (ownership_interleaved hs owned_ownerPtable (fun e he => ?_) hrun).2⟩
  simp only [pairEvents, List.mem_cons, List.not_mem_nil, or_false] at he
  rcases he with rfl | rfl | rfl | rfl | rfl | rfl
  · trivial
  · trivial
  · exact henv
  · exact henv
  · exact henv
  · exact henv

end System
end Hafnium
