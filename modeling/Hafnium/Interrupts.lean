import Hafnium.Cpu
import Hafnium.Support.Bitmap
import Hafnium.Support.Run

/-!
# Virtual interrupts as sets

The virtual interrupts of a vCPU are two sets of ids: those that are enabled and
those that are pending.  The bitmaps and the counter of `Interrupts` refine this,
whatever the order in which interrupts are injected, enabled, disabled and taken.
-/

namespace Hafnium

open Support Finset

/-- The calls on the interrupts of a vCPU. -/
inductive InterruptCall
  | inject (intid : Nat)
  | enable (intid : Nat) (enable : Bool)
  | get
  deriving DecidableEq, Repr

/-- What a call returns. -/
inductive InterruptReply
  | outcome (o : Outcome)
  | intid (intid : Nat)
  deriving DecidableEq

/-! ## Sets of interrupts -/

/-- The ids of the interrupts that are enabled, and of those that are pending. -/
structure IntidSets where
  enabled : Finset Nat
  pending : Finset Nat

namespace IntidSets

def empty : IntidSets := ⟨∅, ∅⟩

/-- The interrupts that the vCPU has to take. -/
def deliverable (self : IntidSets) : Finset Nat := self.enabled ∩ self.pending

/-- `ok` if there is an interrupt to take now and was none before. -/
def inject (intid : Nat) (self : IntidSets) : Outcome × IntidSets :=
  if intid < hfNumIntids then
    let self' := { self with pending := insert intid self.pending }
    (if self.deliverable = ∅ ∧ self'.deliverable ≠ ∅ then .ok else .err, self')
  else (.err, self)

def enable (intid : Nat) (enable : Bool) (self : IntidSets) : Outcome × IntidSets :=
  if intid < hfNumIntids then
    (.ok, { self with
      enabled := if enable then insert intid self.enabled else self.enabled.erase intid })
  else (.err, self)

/-- Takes the least interrupt. -/
def get (self : IntidSets) : Nat × IntidSets :=
  if h : self.deliverable.Nonempty then
    (self.deliverable.min' h, { self with pending := self.pending.erase (self.deliverable.min' h) })
  else (hfInvalidIntid, self)

def apply (self : IntidSets) : InterruptCall → InterruptReply × IntidSets
  | .inject intid => (.outcome (self.inject intid).1, (self.inject intid).2)
  | .enable intid enable => (.outcome (self.enable intid enable).1, (self.enable intid enable).2)
  | .get => (.intid self.get.1, self.get.2)

def step (self : IntidSets) (call : InterruptCall) : Option IntidSets := some (self.apply call).2

def reply (self : IntidSets) (call : InterruptCall) : List InterruptReply := [(self.apply call).1]

end IntidSets

/-! ## Bitmaps -/

namespace Interrupts

def apply (self : Interrupts) : InterruptCall → InterruptReply × Interrupts
  | .inject intid => (.outcome (self.inject intid).1, (self.inject intid).2)
  | .enable intid enable => (.outcome (self.enable intid enable).1, (self.enable intid enable).2)
  | .get => (.intid self.get.1, self.get.2)

def step (self : Interrupts) (call : InterruptCall) : Option Interrupts := some (self.apply call).2

def reply (self : Interrupts) (call : InterruptCall) : List InterruptReply := [(self.apply call).1]

/-- No call fails. -/
theorem run_eq_some (calls : List InterruptCall) (self : Interrupts) :
    ∃ self', run step calls self = some self' := by
  induction calls generalizing self with
  | nil => exact ⟨self, rfl⟩
  | cons call calls ih => exact ih (self.apply call).2

/-- The bitmaps stand for two sets, and the counter is the number of interrupts in
both. -/
structure Represents (ints : Interrupts) (sets : IntidSets) : Prop where
  enabled : bits ints.enabled = sets.enabled
  pending : bits ints.pending = sets.pending
  count : ints.enabledAndPendingCount.toNat = sets.deliverable.card

variable {ints : Interrupts} {sets : IntidSets} {intid : Nat}

theorem idToIndex_eq (h : intid < hfNumIntids) :
    ∃ (i : Fin 2) (k : Nat), k < 32 ∧ i * 32 + k = intid ∧
      idToIndex intid = some (i, 1#32 <<< k) := by
  rw [idToIndex, dif_pos h]
  refine ⟨_, intid % interruptRegisterBits, Nat.mod_lt _ (by decide), ?_, rfl⟩
  simp only [interruptRegisterBits]
  omega

theorem idToIndex_eq_none (h : ¬intid < hfNumIntids) : idToIndex intid = none := by
  rw [idToIndex, dif_neg h]

theorem represents_new : new.Represents .empty := by
  constructor
  · exact bits_zero
  · exact bits_zero
  · rfl

namespace Represents

variable (h : ints.Represents sets)
include h

/-- The counter is far from its limit. -/
theorem card_le : sets.deliverable.card ≤ 64 := by
  have hsubset : sets.deliverable ⊆ range hfNumIntids := by
    rw [IntidSets.deliverable, ← h.enabled]
    exact inter_subset_left.trans (bits_subset _)
  have hcard := card_le_card hsubset
  rwa [card_range, hfNumIntids] at hcard

theorem isInterrupted_iff : ints.isInterrupted = true ↔ sets.deliverable.Nonempty := by
  rw [isInterrupted, bne_iff_ne, ← card_pos, ← h.count, Nat.pos_iff_ne_zero, Ne, Ne,
    BitVec.toNat_eq]
  exact Iff.rfl

theorem mem_enabled {i : Fin 2} {k : Nat} (hk : k < 32) :
    i * 32 + k ∈ sets.enabled ↔ (ints.enabled i).getLsbD k = true := by
  rw [← h.enabled, place_mem_bits hk]

theorem mem_pending {i : Fin 2} {k : Nat} (hk : k < 32) :
    i * 32 + k ∈ sets.pending ↔ (ints.pending i).getLsbD k = true := by
  rw [← h.pending, place_mem_bits hk]

/-- The counter goes up by one with the set. -/
theorem count_insert {x : Nat} (hx : x ∉ sets.deliverable) :
    (ints.enabledAndPendingCount + 1).toNat = (insert x sets.deliverable).card := by
  have hcard := h.card_le
  rw [card_insert_of_notMem hx, BitVec.toNat_add, h.count]
  change (sets.deliverable.card + 1) % 2 ^ 32 = _
  omega

/-- The counter goes down by one with the set, and is not 0 then. -/
theorem count_erase {x : Nat} (hx : x ∈ sets.deliverable) :
    (ints.enabledAndPendingCount - 1).toNat = (sets.deliverable.erase x).card := by
  have hcard := h.card_le
  have hpos : 0 < sets.deliverable.card := card_pos.mpr ⟨x, hx⟩
  rw [card_erase_of_mem hx, BitVec.toNat_sub, h.count]
  change (2 ^ 32 - 1 + sets.deliverable.card) % 2 ^ 32 = _
  omega

/-! ## Each call on both -/

theorem inject (intid : Nat) : (ints.inject intid).1 = (sets.inject intid).1 ∧
    (ints.inject intid).2.Represents (sets.inject intid).2 := by
  by_cases hid : intid < hfNumIntids
  · obtain ⟨i, k, hk, rfl, hindex⟩ := idToIndex_eq hid
    have hfresh : ints.enabled i &&& ~~~ints.pending i &&& 1#32 <<< k = 0 ↔
        ¬(i * 32 + k ∈ sets.enabled ∧ i * 32 + k ∉ sets.pending) := by
      rw [← not_iff_not, not_not, ← Ne, and_mask_ne_zero hk, h.mem_enabled hk, h.mem_pending hk]
      simp [hk]
    have hpending : bits (Function.update ints.pending i (ints.pending i ||| 1#32 <<< k)) =
        insert (i * 32 + k) sets.pending := by
      rw [bits_insert hk, h.pending]
    rw [Interrupts.inject, IntidSets.inject, hindex, if_pos hid]
    simp only [hfresh]
    by_cases hnew : i * 32 + k ∈ sets.enabled ∧ i * 32 + k ∉ sets.pending
    · -- an interrupt that was not there to take
      have hnot : i * 32 + k ∉ sets.deliverable := fun hx => hnew.2 (mem_inter.mp hx).2
      have hset : IntidSets.deliverable ⟨sets.enabled, insert (i * 32 + k) sets.pending⟩ =
          insert (i * 32 + k) sets.deliverable := inter_insert_of_mem hnew.1
      have hcount := h.count_insert hnot
      have hone : ints.enabledAndPendingCount + 1 = 1 ↔ sets.deliverable = ∅ := by
        rw [BitVec.toNat_eq, hcount, card_insert_of_notMem hnot, ← card_eq_zero]
        exact Nat.add_eq_right
      rw [if_neg (not_not.mpr hnew)]
      constructor
      · rw [hset]
        by_cases hempty : sets.deliverable = ∅
        · rw [if_neg (not_not.mpr (hone.mpr hempty)), if_pos ⟨hempty, insert_ne_empty _ _⟩]
        · rw [if_pos fun h => hempty (hone.mp h), if_neg fun h => hempty h.1]
      · refine ⟨h.enabled, hpending, ?_⟩
        rw [hset]
        exact hcount
    · have hset : IntidSets.deliverable ⟨sets.enabled, insert (i * 32 + k) sets.pending⟩ =
          sets.deliverable := by
        by_cases he : i * 32 + k ∈ sets.enabled
        · have hp : i * 32 + k ∈ sets.pending := not_not.mp fun hp => hnew ⟨he, hp⟩
          rw [insert_eq_of_mem hp]
        · exact inter_insert_of_notMem he
      rw [if_pos hnew]
      constructor
      · rw [hset, if_neg fun h => h.2 h.1]
      · refine ⟨h.enabled, hpending, ?_⟩
        rw [hset]
        exact h.count
  · rw [Interrupts.inject, IntidSets.inject, idToIndex_eq_none hid, if_neg hid]
    exact ⟨rfl, h⟩

theorem enable (intid : Nat) (enable : Bool) :
    (ints.enable intid enable).1 = (sets.enable intid enable).1 ∧
      (ints.enable intid enable).2.Represents (sets.enable intid enable).2 := by
  by_cases hid : intid < hfNumIntids
  · obtain ⟨i, k, hk, rfl, hindex⟩ := idToIndex_eq hid
    rw [Interrupts.enable, IntidSets.enable, hindex, if_pos hid]
    cases enable with
    | true =>
      have hfresh : ints.pending i &&& ~~~ints.enabled i &&& 1#32 <<< k ≠ 0 ↔
          i * 32 + k ∈ sets.pending ∧ i * 32 + k ∉ sets.enabled := by
        rw [and_mask_ne_zero hk, h.mem_enabled hk, h.mem_pending hk]
        simp [hk]
      refine ⟨rfl, ?_, h.pending, ?_⟩
      · exact (bits_insert hk).trans (congrArg _ h.enabled)
      · simp only [if_true, hfresh]
        split
        · next hnew =>
            have hnot : i * 32 + k ∉ sets.deliverable := fun hx => hnew.2 (mem_inter.mp hx).1
            have hset : IntidSets.deliverable ⟨insert (i * 32 + k) sets.enabled, sets.pending⟩ =
                insert (i * 32 + k) sets.deliverable := insert_inter_of_mem hnew.1
            rw [hset]
            exact h.count_insert hnot
        · next hold =>
            have hset : IntidSets.deliverable ⟨insert (i * 32 + k) sets.enabled, sets.pending⟩ =
                sets.deliverable := by
              by_cases hp : i * 32 + k ∈ sets.pending
              · have he : i * 32 + k ∈ sets.enabled := not_not.mp fun he => hold ⟨hp, he⟩
                rw [insert_eq_of_mem he]
              · exact insert_inter_of_notMem hp
            rw [hset]
            exact h.count
    | false =>
      have hheld : ints.pending i &&& ints.enabled i &&& 1#32 <<< k ≠ 0 ↔
          i * 32 + k ∈ sets.deliverable := by
        rw [and_mask_ne_zero hk, IntidSets.deliverable, mem_inter, h.mem_enabled hk,
          h.mem_pending hk, BitVec.getLsbD_and, Bool.and_eq_true, and_comm]
      refine ⟨rfl, ?_, h.pending, ?_⟩
      · exact (bits_erase hk).trans (congrArg (erase · _) h.enabled)
      · have hset : IntidSets.deliverable ⟨sets.enabled.erase (i * 32 + k), sets.pending⟩ =
            sets.deliverable.erase (i * 32 + k) := erase_inter _ _ _
        simp only [Bool.false_eq_true, if_false, hheld]
        rw [hset]
        split
        · next hmem => exact h.count_erase hmem
        · next hmem =>
            rw [erase_eq_of_notMem hmem]
            exact h.count
  · rw [Interrupts.enable, IntidSets.enable, idToIndex_eq_none hid, if_neg hid]
    exact ⟨rfl, h⟩

theorem get : ints.get.1 = sets.get.1 ∧ ints.get.2.Represents sets.get.2 := by
  have hbits : bits (fun i => ints.enabled i &&& ints.pending i) = sets.deliverable := by
    rw [bits_and, h.enabled, h.pending, IntidSets.deliverable]
  rw [Interrupts.get, IntidSets.get]
  split
  · next hnone =>
      have hempty : ¬sets.deliverable.Nonempty := by
        rw [← hbits]
        rintro ⟨x, hx⟩
        obtain ⟨i, k, hk, hbit, -⟩ := mem_bits.mp hx
        have hzero := List.find?_eq_none.mp hnone i (List.mem_finRange i)
        rw [bne_iff_ne, not_not] at hzero
        rw [hzero] at hbit
        exact absurd (BitVec.getLsbD_zero.symm.trans hbit) Bool.false_ne_true
      rw [dif_neg hempty]
      exact ⟨rfl, h⟩
  · next i hfind =>
      rw [← Fin.find?_eq_find?_finRange] at hfind
      obtain ⟨hi, hfirst⟩ := Fin.find?_eq_some_iff.mp hfind
      have hne : ints.enabled i &&& ints.pending i ≠ 0 := bne_iff_ne.mp hi
      obtain ⟨hk, hmem, hmin⟩ := bits_min (fun i => ints.enabled i &&& ints.pending i) hne
        fun j hj => by simpa using hfirst j hj
      rw [hbits] at hmem hmin
      have hnonempty : sets.deliverable.Nonempty := ⟨_, hmem⟩
      have hleast : i * 32 + (ints.enabled i &&& ints.pending i).ctz.toNat =
          sets.deliverable.min' hnonempty := by
        apply le_antisymm
        · exact hmin _ (min'_mem _ _)
        · exact min'_le _ _ hmem
      rw [dif_pos hnonempty, ← hleast]
      refine ⟨rfl, h.enabled, ?_, ?_⟩
      · exact (bits_erase hk).trans (congrArg (erase · _) h.pending)
      · have hset : IntidSets.deliverable ⟨sets.enabled, sets.pending.erase
            (i * 32 + (ints.enabled i &&& ints.pending i).ctz.toNat)⟩ =
            sets.deliverable.erase (i * 32 + (ints.enabled i &&& ints.pending i).ctz.toNat) :=
          inter_erase _ _ _
        rw [hset]
        exact h.count_erase hmem

theorem apply (call : InterruptCall) : (ints.apply call).1 = (sets.apply call).1 ∧
    (ints.apply call).2.Represents (sets.apply call).2 := by
  cases call with
  | inject intid => exact ⟨congrArg InterruptReply.outcome (h.inject intid).1, (h.inject intid).2⟩
  | enable intid enable =>
    exact ⟨congrArg InterruptReply.outcome (h.enable intid enable).1, (h.enable intid enable).2⟩
  | get => exact ⟨congrArg InterruptReply.intid h.get.1, h.get.2⟩

end Represents

/-- After any calls the bitmaps stand for the sets that the same calls lead to, the
counter is the number of interrupts to take, and the replies are those of the
sets. -/
theorem interrupts_refine_sets (calls : List InterruptCall) :
    ∃ ints sets, run step calls new = some ints ∧ run IntidSets.step calls .empty = some sets ∧
      trace step reply calls new = trace IntidSets.step IntidSets.reply calls .empty ∧
      ints.Represents sets ∧
      sets.enabled ⊆ Finset.range hfNumIntids ∧ sets.pending ⊆ Finset.range hfNumIntids ∧
      (ints.isInterrupted = true ↔ sets.deliverable.Nonempty) := by
  obtain ⟨ints, hints⟩ := run_eq_some calls new
  have hstep : ∀ (s : Interrupts) (t : IntidSets) (call : InterruptCall) (s' : Interrupts),
      s.Represents t → s.step call = some s' →
        s.reply call = t.reply call ∧ ∃ t', t.step call = some t' ∧ s'.Represents t' := by
    intro s t call s' hR hs'
    cases hs'
    exact ⟨congrArg (fun r => [r]) (hR.apply call).1, _, rfl, (hR.apply call).2⟩
  obtain ⟨htrace, sets, hsets, hR⟩ := run_simulation Represents hstep represents_new hints
  refine ⟨ints, sets, hints, hsets, htrace, hR, ?_, ?_, hR.isInterrupted_iff⟩
  · rw [← hR.enabled]
    exact bits_subset _
  · rw [← hR.pending]
    exact bits_subset _

end Interrupts
end Hafnium
