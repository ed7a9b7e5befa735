import Hafnium.LockOrder
import Hafnium.Support.Locks
import Hafnium.Support.Run

/-!
# Physical CPUs that spin

The system of all physical CPUs, each of which runs a vCPU or goes through the locks of
an entry into the hypervisor, one at a time and in any interleaving.  `step_cases` says
what a step can do: it concerns one physical CPU, which keeps to the order of locks, or
it begins a secondary VM's `PSCI_CPU_ON`.  That all the others keep to the order leaves
circles of `PSCI_CPU_ON`s as the only deadlocks.
-/

namespace Hafnium

open Support Relation Function

/-- Which physical CPU holds each lock, which vCPU each runs, and what each still does
in the hypervisor. -/
structure LockState (M : Machine) where
  owner : Lock M → Option (Fin M.cpuIds.length)
  current : Fin M.cpuIds.length → Option (VCpuId M)
  prog : Fin M.cpuIds.length → Option (LockProg M)

inductive LockEvent (M : Machine)
  /-- A physical CPU comes up in `cpu_main`. -/
  | start (p : Fin M.cpuIds.length)
  | enter (p : Fin M.cpuIds.length) (e : HypEntry M)
  /-- A physical CPU takes or releases its next lock, or returns to a VM. -/
  | advance (p : Fin M.cpuIds.length)

namespace LockState

variable {M : Machine}

def setOwner (l : Lock M) (p : Option (Fin M.cpuIds.length)) (S : LockState M) : LockState M :=
  { S with owner := update S.owner l p }

def setCurrent (p : Fin M.cpuIds.length) (v : Option (VCpuId M)) (S : LockState M) : LockState M :=
  { S with current := update S.current p v }

def setProg (p : Fin M.cpuIds.length) (k : Option (LockProg M)) (S : LockState M) : LockState M :=
  { S with prog := update S.prog p k }

/-- `complete_saving_state`, at the end of which the vCPU may run elsewhere. -/
def regsSaved (v : VCpuId M) (S : LockState M) : LockState M :=
  if v.vm = M.primary then S else S.setOwner (.exec v) none

/-- The next step of a physical CPU; a lock that is held makes it spin. -/
def advance (p : Fin M.cpuIds.length) (v : VCpuId M) (S : LockState M) :
    LockProg M → Option (LockState M)
  | .done => some (S.setProg p none)
  | .lock l k =>
    if S.owner l = none then some ((S.setOwner l (some p)).setProg p (some k)) else none
  | .tryLock l k k' =>
    if S.owner l = none then some ((S.setOwner l (some p)).setProg p (some k))
    else some (S.setProg p (some k'))
  | .unlock l k => some ((S.setOwner l none).setProg p (some k))
  | .switchTo next => some (((S.regsSaved v).setCurrent p (some next)).setProg p none)
  | .off => some ((S.setCurrent p none).setProg p none)
  | .halt => none

def step (S : LockState M) : LockEvent M → Option (LockState M)
  | .start p =>
    match S.current p, homeVCpu M p with
    | none, some v => some (S.setCurrent p (some v))
    | _, _ => none
  | .enter p e =>
    match S.current p, S.prog p with
    | some v, none => some (S.setProg p (some (e.prog p v)))
    | _, _ => none
  | .advance p =>
    match S.current p, S.prog p with
    | some v, some k => S.advance p v k
    | _, _ => none

/-- The lock that a physical CPU takes next, for which it spins if it is held. -/
def waits (S : LockState M) (p : Fin M.cpuIds.length) : Option (Lock M) :=
  match S.prog p with
  | some (.lock l _) => some l
  | _ => none

/-- No physical CPU is up. -/
structure Booted (S : LockState M) : Prop where
  owner : ∀ l, S.owner l = none
  current : ∀ p, S.current p = none
  prog : ∀ p, S.prog p = none

end LockState

/-! ## Every step of the system -/

/-- It waits for a secondary vCPU, while it holds only the lock of its own. -/
def LockProg.Awaits {M : Machine} (v : VCpuId M) (k : LockProg M) : Prop :=
  ∃ t k', k = .lock (.exec t) k' ∧ t.vm ≠ M.primary ∧
    (Lock.exec t ∉ runLocks v → k'.Ordered v (insert (.exec t) (runLocks v)))

namespace LockState

open Lock LockProg HypEntry

variable {M : Machine} {S S' S'' : LockState M} {p q : Fin M.cpuIds.length}
  {v t : VCpuId M} {k : LockProg M} {l : Lock M} {H : Set (Lock M)}

/-- The locks that a physical CPU holds. -/
def held (S : LockState M) (p : Fin M.cpuIds.length) : Set (Lock M) :=
  {l | S.owner l = some p}

/-- What a physical CPU holds fits the vCPU it runs and what it still does. -/
def Fits (held : Set (Lock M)) : Option (VCpuId M) → Option (LockProg M) → Prop
  | none, none => held = ∅
  | none, some _ => False
  | some v, none => held = runLocks v
  | some v, some k => k.Ordered v held ∨ (held = runLocks v ∧ k.Awaits v)

def Thread (S : LockState M) (p : Fin M.cpuIds.length) : Prop :=
  Fits (S.held p) (S.current p) (S.prog p)

/-- A physical CPU is in a secondary VM's `PSCI_CPU_ON` of `t`, before it has the lock. -/
def Awaits (S : LockState M) (p : Fin M.cpuIds.length) (t : VCpuId M) : Prop :=
  t.vm ≠ M.primary ∧ ∃ k, S.prog p = some (.lock (.exec t) k)

/-- One physical CPU is in a `PSCI_CPU_ON` of the vCPU that runs on another. -/
def WaitsFor (S : LockState M) (p q : Fin M.cpuIds.length) : Prop :=
  ∃ t, S.Awaits p t ∧ S.current q = some t

/-- Nothing changes for the other physical CPUs. -/
structure Local (p : Fin M.cpuIds.length) (S S' : LockState M) : Prop where
  held : ∀ q ≠ p, S'.held q = S.held q
  current : ∀ q ≠ p, S'.current q = S.current q
  prog : ∀ q ≠ p, S'.prog q = S.prog q

theorem Local.trans (h : Local p S S') (h' : Local p S' S'') : Local p S S'' where
  held q hq := (h'.held q hq).trans (h.held q hq)
  current q hq := (h'.current q hq).trans (h.current q hq)
  prog q hq := (h'.prog q hq).trans (h.prog q hq)

theorem Local.refl : Local p S S := ⟨fun _ _ => rfl, fun _ _ => rfl, fun _ _ => rfl⟩

theorem local_setProg {k : Option (LockProg M)} : Local p S (S.setProg p k) where
  held _ _ := rfl
  current _ _ := rfl
  prog _ hq := update_of_ne hq _ _

theorem local_setCurrent {v : Option (VCpuId M)} : Local p S (S.setCurrent p v) where
  held _ _ := rfl
  current _ hq := update_of_ne hq _ _
  prog _ _ := rfl

@[simp] theorem prog_setProg {k : Option (LockProg M)} : (S.setProg p k).prog p = k :=
  update_self _ _ _

@[simp] theorem current_setCurrent {v : Option (VCpuId M)} : (S.setCurrent p v).current p = v :=
  update_self _ _ _

theorem held_take : (S.setOwner l (some p)).held p = insert l (S.held p) := by
  ext l'
  by_cases h : l' = l
  · simp [held, setOwner, h]
  · simp [held, setOwner, h]

theorem held_setOwner {o : Option (Fin M.cpuIds.length)} (ho : o ≠ some q) :
    (S.setOwner l o).held q = S.held q \ {l} := by
  ext l'
  by_cases h : l' = l
  · simp [held, setOwner, h, ho]
  · simp [held, setOwner, h]

theorem held_release : (S.setOwner l none).held q = S.held q \ {l} :=
  held_setOwner (Option.some_ne_none q).symm

theorem notMem_held (h : S.owner l = none) : l ∉ S.held p := by
  intro hl
  cases h.symm.trans hl

theorem local_take (h : S.owner l = none) : Local p S (S.setOwner l (some p)) where
  held q hq := by
    rw [held_setOwner (fun heq => hq (Option.some_inj.mp heq).symm)]
    exact Set.sdiff_singleton_eq_self (notMem_held h)
  current _ _ := rfl
  prog _ _ := rfl

theorem local_release (h : l ∈ S.held p) : Local p S (S.setOwner l none) where
  held q hq := by
    rw [held_release]
    refine Set.sdiff_singleton_eq_self ?_
    intro hl
    exact hq (Option.some_inj.mp (hl.symm.trans h))
  current _ _ := rfl
  prog _ _ := rfl

theorem held_regsSaved : (S.regsSaved v).held p = S.held p \ runLocks v := by
  unfold regsSaved
  split
  next h => rw [runLocks_of_primary h, Set.sdiff_empty]
  next h => rw [held_release, runLocks_of_ne h]

theorem local_regsSaved (h : runLocks v ⊆ S.held p) : Local p S (S.regsSaved v) := by
  unfold regsSaved
  split
  · exact Local.refl
  next hv =>
    rw [runLocks_of_ne hv, Set.singleton_subset_iff] at h
    exact local_release h

theorem Fits.ordered (h : Fits H (some v) (some k)) (hk : ∀ l k', k ≠ .lock l k') :
    k.Ordered v H := by
  obtain hordered | ⟨-, t, k', heq, -⟩ := h
  · exact hordered
  · exact absurd heq (hk _ _)

/-- A lock that is free may be taken by whoever waits for it. -/
theorem Fits.lock (h : Fits H (some v) (some (.lock l k))) (hl : l ∉ H) :
    k.Ordered v (insert l H) := by
  obtain hordered | ⟨rfl, t, k', heq, -, hk⟩ := h
  · exact hordered.2.2
  · cases heq
    exact hk hl

theorem not_awaits_of_none (h : S.prog p = none) : ¬ S.Awaits p t := by
  rintro ⟨-, k, hk⟩
  rw [h] at hk
  cases hk

theorem not_awaits_of_ordered (h : S.prog p = some k) (hk : k.Ordered v H) : ¬ S.Awaits p t := by
  rintro ⟨ht, k', hk'⟩
  rw [h] at hk'
  cases hk'
  exact hk.2.1 ⟨t, rfl, ht⟩

/-- A step that only concerns `p`, after which `p` does not wait for a secondary vCPU. -/
structure Moves (p : Fin M.cpuIds.length) (S S' : LockState M) : Prop where
  others : Local p S S'
  thread : S'.Thread p
  awaits : ∀ t, ¬ S'.Awaits p t

/-- `p` goes on with a program that keeps to the order. -/
theorem moves_setProg (hlocal : Local p S S') (hcurrent : S'.current p = some v)
    (hk : k.Ordered v (S'.held p)) : Moves p S (S'.setProg p (some k)) where
  others := hlocal.trans local_setProg
  thread := by
    have hprog : (S'.setProg p (some k)).prog p = some k := prog_setProg
    rw [Thread, hprog]
    exact (congrArg (Fits (S'.held p) · (some k)) hcurrent).mpr (Or.inl hk)
  awaits _ := not_awaits_of_ordered prog_setProg hk

theorem moves_leave (hlocal : Local p S S') (hfits : Fits (S'.held p) (S'.current p) none) :
    Moves p S (S'.setProg p none) where
  others := hlocal.trans local_setProg
  thread := by
    have hprog : (S'.setProg p none).prog p = none := prog_setProg
    rw [Thread, hprog]
    exact hfits
  awaits _ := not_awaits_of_none prog_setProg

theorem advance_moves (hcurrent : S.current p = some v)
    (hfits : Fits (S.held p) (some v) (some k)) (h : S.advance p v k = some S') :
    Moves p S S' := by
  cases k with
  | done =>
    cases h
    apply moves_leave Local.refl
    rw [hcurrent]
    exact hfits.ordered nofun
  | lock l k =>
    rw [advance] at h
    split at h
    next hfree =>
      cases h
      refine moves_setProg (local_take hfree) hcurrent ?_
      rw [held_take]
      exact hfits.lock (notMem_held hfree)
    next => cases h
  | tryLock l k k' =>
    have hordered := hfits.ordered nofun
    rw [advance] at h
    split at h
    next hfree =>
      cases h
      refine moves_setProg (local_take hfree) hcurrent ?_
      rw [held_take]
      exact hordered.1 (notMem_held hfree)
    next =>
      cases h
      exact moves_setProg Local.refl hcurrent hordered.2
  | unlock l k =>
    obtain ⟨hmem, hk⟩ := hfits.ordered nofun
    cases h
    refine moves_setProg (local_release hmem) hcurrent ?_
    rw [held_release]
    exact hk
  | switchTo next =>
    obtain ⟨hsub, heq⟩ := hfits.ordered nofun
    cases h
    apply moves_leave ((local_regsSaved hsub).trans local_setCurrent)
    rw [current_setCurrent]
    exact held_regsSaved.trans heq
  | off =>
    cases h
    apply moves_leave local_setCurrent
    rw [current_setCurrent]
    exact hfits.ordered nofun
  | halt => cases h

/-- The `PSCI_CPU_ON` of a secondary VM begins: `p`, which runs `v`, waits for `t` from
now on. -/
structure Begins (p : Fin M.cpuIds.length) (v t : VCpuId M) (S S' : LockState M) : Prop where
  current : S.current p = some v
  prog : S.prog p = none
  others : Local p S S'
  thread : S'.Thread p
  current_eq : S'.current = S.current
  awaits : S'.Awaits p t

theorem enter_begins {x : HypEntry M} (hthread : S.Thread p) (hcurrent : S.current p = some v)
    (hprog : S.prog p = none) (hx : x.awaited v = some t) :
    Begins p v t S (S.setProg p (some (x.prog p v))) := by
  obtain ⟨k, hk, ht, hordered⟩ := prog_of_awaited (p := p) hx
  rw [Thread, hcurrent, hprog] at hthread
  rw [hk]
  exact {
    current := hcurrent
    prog := hprog
    others := local_setProg
    thread := by
      have hprog' : (S.setProg p (some (lock (exec t) k))).prog p = some (lock (exec t) k) :=
        prog_setProg
      have hcurrent' : (S.setProg p (some (lock (exec t) k))).current p = some v := hcurrent
      rw [Thread, hprog', hcurrent']
      exact Or.inr ⟨hthread, t, k, rfl, ht, hordered⟩
    current_eq := rfl
    awaits := ⟨ht, k, prog_setProg⟩ }

/-- Every step is one of a physical CPU that does not wait for a secondary vCPU then, or
the beginning of a `PSCI_CPU_ON`. -/
theorem step_cases {e : LockEvent M} (hS : ∀ p, S.Thread p) (h : S.step e = some S') :
    (∃ p, Moves p S S') ∨ ∃ p x v t, e = .enter p x ∧ x.awaited v = some t ∧ Begins p v t S S' := by
  cases e with
  | start p =>
    rw [step] at h
    split at h
    next v hcurrent hhome =>
      cases h
      have hthread := hS p
      rw [Thread, hcurrent] at hthread
      cases hprog : S.prog p with
      | some k =>
        rw [hprog] at hthread
        exact hthread.elim
      | none =>
        rw [hprog] at hthread
        refine Or.inl ⟨p, local_setCurrent, ?_, fun _ => not_awaits_of_none hprog⟩
        have hprog' : (S.setCurrent p (some v)).prog p = none := hprog
        rw [Thread, current_setCurrent, hprog']
        exact hthread.trans (runLocks_of_primary (homeVCpu_vm hhome)).symm
    next => cases h
  | enter p x =>
    rw [step] at h
    split at h
    next v hcurrent hprog =>
      cases h
      cases hx : x.awaited v with
      | none =>
        have hthread := hS p
        rw [Thread, hcurrent, hprog] at hthread
        refine Or.inl ⟨p, moves_setProg Local.refl hcurrent ?_⟩
        rw [hthread]
        exact prog_ordered hx
      | some t => exact Or.inr ⟨p, x, v, t, rfl, hx, enter_begins (hS p) hcurrent hprog hx⟩
    next => cases h
  | advance p =>
    rw [step] at h
    split at h
    next v k hcurrent hprog =>
      have hthread := hS p
      rw [Thread, hcurrent, hprog] at hthread
      exact Or.inl ⟨p, advance_moves hcurrent hthread h⟩
    next => cases h

/-! ## Circles -/

theorem Local.threads (h : Local p S S') (hp : S'.Thread p) (hS : ∀ q, S.Thread q) :
    ∀ q, S'.Thread q := by
  intro q
  by_cases hq : q = p
  · rw [hq]
    exact hp
  · rw [Thread, h.held q hq, h.current q hq, h.prog q hq]
    exact hS q

theorem Local.awaits_iff (h : Local p S S') (hq : q ≠ p) : S'.Awaits q t ↔ S.Awaits q t := by
  rw [Awaits, Awaits, h.prog q hq]

/-- All threads fit, and no `PSCI_CPU_ON`s wait for each other in a circle. -/
structure Sound (S : LockState M) : Prop where
  threads : ∀ p, S.Thread p
  acyclic : Acyclic S.WaitsFor

theorem Moves.sound (h : Moves p S S') (hS : S.Sound) : S'.Sound where
  threads := h.others.threads h.thread hS.threads
  acyclic := by
    -- what runs on `p` may be new, but `p` itself waits for nobody
    refine hS.acyclic.of_sink (p := p) ?_ (fun y ⟨t, ht, _⟩ => h.awaits t ht)
    rintro x y ⟨t, ht, hy⟩
    by_cases hyp : y = p
    · exact Or.inr hyp
    · have hxp : x ≠ p := by
        rintro rfl
        exact h.awaits t ht
      rw [h.others.current y hyp] at hy
      exact Or.inl ⟨t, (h.others.awaits_iff hxp).mp ht, hy⟩

theorem Awaits.unique {t' : VCpuId M} (h : S.Awaits p t) (h' : S.Awaits p t') : t' = t := by
  obtain ⟨-, k, hk⟩ := h
  obtain ⟨-, k', hk'⟩ := h'
  cases hk.symm.trans hk'
  rfl

theorem Begins.sound (h : Begins p v t S S') (hS : S.Sound)
    (hq : ∀ q, S.current q = some t → ¬ ReflTransGen S.WaitsFor q p) : S'.Sound where
  threads := h.others.threads h.thread hS.threads
  acyclic := by
    refine hS.acyclic.of_arrows (p := p) (N := fun q => S.current q = some t) ?_ hq
    rintro x y ⟨t', ht', hy⟩
    rw [h.current_eq] at hy
    by_cases hxp : x = p
    · subst hxp
      rw [h.awaits.unique ht'] at hy
      exact Or.inr ⟨rfl, hy⟩
    · exact Or.inl ⟨t', (h.others.awaits_iff hxp).mp ht', hy⟩

theorem waits_eq_some : S.waits p = some l ↔ ∃ k, S.prog p = some (.lock l k) := by
  unfold waits
  split
  next l' k hk => simp [hk, eq_comm]
  next hnot =>
    constructor
    · exact nofun
    · rintro ⟨k, hk⟩
      exact absurd hk (hnot l k)

/-- A physical CPU that waits for a secondary vCPU holds only the lock of its own. -/
theorem Thread.held_of_awaits (h : S.Thread p) (hp : S.Awaits p t) :
    ∃ v, S.current p = some v ∧ S.held p = runLocks v := by
  obtain ⟨ht, k, hk⟩ := hp
  rw [Thread, hk] at h
  cases hv : S.current p with
  | none =>
    rw [hv] at h
    exact h.elim
  | some v =>
    rw [hv] at h
    obtain hordered | ⟨hheld, -⟩ := h
    · exact absurd ⟨t, rfl, ht⟩ hordered.2.1
    · exact ⟨v, rfl, hheld⟩

/-- All others keep to the order. -/
theorem Thread.after_of_waits (h : S.Thread p) (hp : ∀ t, ¬ S.Awaits p t)
    (hl : S.waits p = some l) : l.After (S.held p) ∧ ¬ l.IsGuest := by
  obtain ⟨k, hk⟩ := waits_eq_some.mp hl
  rw [Thread, hk] at h
  cases hv : S.current p with
  | none =>
    rw [hv] at h
    exact h.elim
  | some v =>
    rw [hv] at h
    obtain hordered | ⟨-, t, k', heq, ht, -⟩ := h
    · exact ⟨hordered.1, hordered.2.1⟩
    · cases heq
      exact absurd ⟨ht, k, hk⟩ (hp t)

theorem Sound.not_deadlocked (hS : S.Sound) : ¬ Deadlocked S.owner S.waits := by
  refine Support.not_deadlocked Lock.rank (fun p => ∃ t, S.Awaits p t) ?_ ?_ hS.acyclic
  · intro p l q l' hp hl howner hl'
    obtain ⟨-, hguest⟩ := (hS.threads p).after_of_waits (not_exists.mp hp) hl
    -- who holds a lock that is not a secondary vCPU's is no exception
    have hq : ¬ ∃ t, S.Awaits q t := by
      rintro ⟨t, ht⟩
      obtain ⟨w, -, hheld⟩ := (hS.threads q).held_of_awaits ht
      have hmem : l ∈ S.held q := howner
      rw [hheld] at hmem
      exact hguest ⟨w, hmem.2, hmem.1⟩
    exact ⟨hq, ((hS.threads q).after_of_waits (not_exists.mp hq) hl').1 l howner⟩
  · rintro p l q ⟨t, ht⟩ hl howner ⟨t', ht'⟩
    obtain ⟨w, hw, hheld⟩ := (hS.threads q).held_of_awaits ht'
    have hmem : l ∈ S.held q := howner
    rw [hheld] at hmem
    obtain ⟨k, hk⟩ := ht.2
    obtain ⟨k', hk'⟩ := waits_eq_some.mp hl
    cases hk.symm.trans hk'
    refine ⟨t, ht, ?_⟩
    cases hmem.2
    exact hw

/-- A `PSCI_CPU_ON` that closes a circle is a deadlock at once. -/
theorem Begins.deadlocked (h : Begins p v t S S') (hS : S.Sound) (hq : S.current q = some t)
    (hpath : ReflTransGen S.WaitsFor q p) : Deadlocked S'.owner S'.waits := by
  have hthreads := h.others.threads h.thread hS.threads
  have hold : ∀ x y, S.WaitsFor x y → S'.WaitsFor x y := by
    rintro x y ⟨t', ht', hy⟩
    have hxp : x ≠ p := by
      rintro rfl
      exact not_awaits_of_none h.prog ht'
    rw [← h.current_eq] at hy
    exact ⟨t', (h.others.awaits_iff hxp).mpr ht', hy⟩
  rw [← h.current_eq] at hq
  have hfirst : S'.WaitsFor p q := ⟨t, h.awaits, hq⟩
  apply deadlocked_of_circle (TransGen.head' hfirst (ReflTransGen.mono hold _ _ hpath))
  rintro x y z ⟨t₁, ⟨hne, k, hk⟩, hy⟩ ⟨t₂, ht₂, -⟩
  obtain ⟨w, hw, hheld⟩ := (hthreads y).held_of_awaits ht₂
  cases hy.symm.trans hw
  have hmem : exec t₁ ∈ S'.held y := by
    rw [hheld]
    exact ⟨hne, rfl⟩
  exact ⟨exec t₁, waits_eq_some.mpr ⟨k, hk⟩, hmem⟩

/-- If a secondary VM calls `PSCI_CPU_ON`, the vCPU that it addresses runs on no physical
CPU from which `PSCI_CPU_ON`s lead back to the caller's: it is not the caller itself, nor
a vCPU that waits, directly or through others, for the caller. -/
def MayEnter (S : LockState M) : LockEvent M → Prop
  | .enter p x => ∀ v t q, S.current p = some v → S.prog p = none → x.awaited v = some t →
      S.current q = some t → ¬ ReflTransGen S.WaitsFor q p
  | _ => True

theorem step_sound {e : LockEvent M} (hS : S.Sound) (he : S.MayEnter e)
    (h : S.step e = some S') : S'.Sound := by
  obtain ⟨p, hmoves⟩ | ⟨p, x, v, t, rfl, hx, hbegins⟩ := step_cases hS.threads h
  · exact hmoves.sound hS
  · exact hbegins.sound hS fun q hq => he v t q hbegins.current hbegins.prog hx hq

theorem step_not_deadlocked_iff {e : LockEvent M} (hS : S.Sound) :
    (∀ S', S.step e = some S' → ¬ Deadlocked S'.owner S'.waits) ↔ S.MayEnter e := by
  constructor
  · intro h
    cases e with
    | enter p x =>
      intro v t q hcurrent hprog hx hq hpath
      have hstep : S.step (.enter p x) = some (S.setProg p (some (x.prog p v))) := by
        rw [step, hcurrent, hprog]
      have hbegins := enter_begins (hS.threads p) hcurrent hprog hx
      exact h _ hstep (hbegins.deadlocked hS hq hpath)
    | _ => trivial
  · intro he S' h
    exact (step_sound hS he h).not_deadlocked

theorem Booted.sound (h : S.Booted) : S.Sound where
  threads p := by
    have hheld : S.held p = ∅ := by
      ext l
      simp [held, h.owner l]
    rw [Thread, h.current p, h.prog p]
    exact hheld
  acyclic p hp := by
    obtain ⟨q, ⟨t, ht, -⟩, -⟩ := TransGen.head'_iff.mp hp
    exact not_awaits_of_none (h.prog p) ht

/-- In every run of any number of physical CPUs, the state after each step is free of
circles of physical CPUs that spin on each other's locks, or on their own, exactly if no
`PSCI_CPU_ON` closes one. -/
theorem never_deadlocked_iff (hS : S.Booted) (events : List (LockEvent M)) :
    Always step (fun S e => ∀ S', S.step e = some S' → ¬ Deadlocked S'.owner S'.waits)
        events S ↔
      Always step MayEnter events S :=
  always_congr_of_kept Sound (G := fun _ => True)
    (fun _ _ _ hS _ he h => step_sound hS he h)
    (fun _ _ hS _ => step_not_deadlocked_iff hS) hS.sound (fun _ _ => trivial)

/-- The only physical CPU. -/
def exampleCpu : Fin exampleMachine.cpuIds.length := ⟨0, Nat.one_pos⟩

/-- Nothing runs yet. -/
def exampleLocks : LockState exampleMachine := ⟨fun _ => none, fun _ => none, fun _ => none⟩

/-- The primary VM runs the vCPU of another VM, which calls `PSCI_CPU_ON`. -/
def exampleCpuOn (arg0 : BitVec 64) : List (LockEvent exampleMachine) :=
  [.start exampleCpu, .enter exampleCpu (.vcpuRun (exampleVCpu 1) false false true false),
    .advance exampleCpu, .advance exampleCpu, .advance exampleCpu, .advance exampleCpu,
    .enter exampleCpu (.psciCpuOn arg0 false true)]

theorem booted_exampleLocks : exampleLocks.Booted :=
  ⟨fun _ => rfl, fun _ => rfl, fun _ => rfl⟩

/-- The vCPU that a `PSCI_CPU_ON` addresses is on no physical CPU in the hypervisor. -/
def Free (S : LockState M) : LockEvent M → Prop
  | .enter p x => ∀ v ∈ S.current p, ∀ t ∈ x.awaited v, ∀ q, S.current q = some t →
      q ≠ p ∧ (S.prog q).isNone = true
  | _ => True

instance (S : LockState M) : DecidablePred S.Free
  | .enter p x => inferInstanceAs (Decidable (∀ v ∈ S.current p, ∀ t ∈ x.awaited v, ∀ q,
      S.current q = some t → q ≠ p ∧ (S.prog q).isNone = true))
  | .start _ => isTrue trivial
  | .advance _ => isTrue trivial

theorem Free.mayEnter {e : LockEvent M} (h : S.Free e) : S.MayEnter e := by
  cases e with
  | start p => trivial
  | advance p => trivial
  | enter p x =>
    intro v t q hv _ ht hq hpath
    obtain ⟨hne, hprog⟩ := h v hv t ht q hq
    rcases hpath.cases_head with heq | ⟨r, ⟨t, hawaits, -⟩, -⟩
    · exact hne heq
    · exact not_awaits_of_none (Option.isNone_iff_eq_none.mp hprog) hawaits

def pairLocks : LockState pairMachine := ⟨fun _ => none, fun _ => none, fun _ => none⟩

/-- A physical CPU enters the hypervisor and takes some steps there. -/
def pairEnter (p : Fin 2) (x : HypEntry pairMachine) (n : Nat) : List (LockEvent pairMachine) :=
  .enter p x :: List.replicate n (.advance p)

/-- On a physical CPU `p` a vCPU calls `PSCI_CPU_ON` on an id that its VM does not have,
on a vCPU that is off, and on the same vCPU while it runs on `q`. -/
def pairCpuOn (p q : Fin 2) : List (LockEvent pairMachine) :=
  [.start p, .start q] ++
    pairEnter p (.vcpuRun (pairVCpu 1 0) false false true false) 4 ++
    pairEnter p (.psciCpuOn 5 false true) 1 ++ pairEnter p (.psciCpuOn 1 false true) 3 ++
    pairEnter q (.vcpuRun (pairVCpu 1 1) false false true false) 4 ++
    pairEnter p (.vcpuRun (pairVCpu 1 0) false false true false) 4 ++
    pairEnter p (.psciCpuOn 1 false true) 0

/-- The caller ends up waiting for the vCPU that runs, without a deadlock. -/
theorem never_deadlocked_missing :
    pairLocks.Booted ∧
      Always step (fun S e => ∀ S', S.step e = some S' → ¬ Deadlocked S'.owner S'.waits)
        (pairCpuOn 0 1) pairLocks ∧
      ∃ S, run step (pairCpuOn 0 1) pairLocks = some S ∧
        S.waits (0 : Fin 2) = some (.exec (pairVCpu 1 1)) ∧
        S.owner (.exec (pairVCpu 1 1)) = some (1 : Fin 2) := by
  have hbooted : pairLocks.Booted := ⟨fun _ => rfl, fun _ => rfl, fun _ => rfl⟩
  have hfree : Always step Free (pairCpuOn 0 1) pairLocks := by decide +kernel
  refine ⟨hbooted, (never_deadlocked_iff hbooted _).mpr ?_, _, rfl, rfl, rfl⟩
  exact always_imp (fun _ => True) (G := fun _ => True) (fun _ _ _ _ _ _ => trivial)
    (fun _ _ _ _ h => h.mayEnter) trivial (fun _ _ => trivial) hfree

/-- A vCPU that calls `PSCI_CPU_ON` on itself makes its physical CPU spin on a lock that
it holds. -/
theorem cpuOn_self_deadlocks :
    exampleLocks.Booted ∧ ∃ S, run step (exampleCpuOn 0) exampleLocks = some S ∧
      S.waits exampleCpu = some (.exec (exampleVCpu 1)) ∧
      S.owner (.exec (exampleVCpu 1)) = some exampleCpu ∧
      Deadlocked S.owner S.waits := by
  refine ⟨booted_exampleLocks, _, rfl, rfl, rfl, {exampleCpu}, ⟨exampleCpu, rfl⟩, ?_⟩
  rintro _ rfl
  exact ⟨.exec (exampleVCpu 1), rfl, exampleCpu, rfl, rfl⟩

end LockState

end Hafnium
