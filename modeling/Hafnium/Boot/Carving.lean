import Hafnium.Boot.Load

/-!
# Memory for the secondary VMs

Memory is carved from the ends of the ranges that the device tree offers, and what has
been carved is reported as reserved.  Sizes are differences in 64 bits: a range whose end
lies before its start, once it is rounded down to a page, looks almost as large as the
address space.
-/

namespace Hafnium

open List Loader

namespace MemRange

/-- An address lies in a range. -/
def Has (r : MemRange) (a : Nat) : Prop := r.begin ≤ a ∧ a < r.endAddr

def Disjoint (r q : MemRange) : Prop := ∀ a, ¬(r.Has a ∧ q.Has a)

end MemRange

/-- The regions that requests of some sizes get, each with its size, and the ranges
afterwards.  A request that cannot be met is passed over. -/
def carveAll : List MemRange → List Nat → List (Nat × MemRange) × List MemRange
  | ranges, [] => ([], ranges)
  | ranges, size :: sizes =>
    match carveOutMemRange ranges size with
    | none => carveAll ranges sizes
    | some (begin, endAddr, ranges) =>
      let (regions, ranges) := carveAll ranges sizes
      ((size, ⟨begin, endAddr⟩) :: regions, ranges)

theorem carveAll_cons_of_some {ranges ranges' : List MemRange} {size begin endAddr : Nat}
    (sizes : List Nat) (h : carveOutMemRange ranges size = some (begin, endAddr, ranges')) :
    carveAll ranges (size :: sizes) =
      ((size, ⟨begin, endAddr⟩) :: (carveAll ranges' sizes).1, (carveAll ranges' sizes).2) := by
  rw [carveAll, h]

theorem carveAll_cons_of_none {ranges : List MemRange} {size : Nat} (sizes : List Nat)
    (h : carveOutMemRange ranges size = none) :
    carveAll ranges (size :: sizes) = carveAll ranges sizes := by
  rw [carveAll, h]

theorem carveOutMemRange_eq_some {ranges ranges' : List MemRange} {size begin endAddr : Nat}
    (h : carveOutMemRange ranges size = some (begin, endAddr, ranges')) :
    ∃ k r, ranges[k]? = some r ∧ size ≤ paDifference r.begin r.endAddr ∧ endAddr = r.endAddr ∧
      begin = paDifference size endAddr ∧ ranges' = ranges.set k { r with endAddr := begin } := by
  induction ranges generalizing ranges' with
  | nil => contradiction
  | cons range ranges ih =>
    rw [carveOutMemRange] at h
    split at h
    · rename_i hsize
      cases h
      exact ⟨0, range, rfl, hsize, rfl, rfl, rfl⟩
    · obtain ⟨⟨b, e, ranges₁⟩, hcarve, heq⟩ := Option.map_eq_some_iff.mp h
      cases heq
      obtain ⟨k, r, hk, hsize, hend, hbegin, rfl⟩ := ih hcarve
      exact ⟨k + 1, r, hk, hsize, hend, hbegin, rfl⟩

/-! ## What a request does to the ranges -/

/-- The two lists of ranges are related one by one. -/
structure Matched (P : MemRange → MemRange → Prop) (ranges ranges' : List MemRange) : Prop where
  length_eq : ranges'.length = ranges.length
  rel : ∀ (k : Nat) r r', ranges[k]? = some r → ranges'[k]? = some r' → P r r'

namespace Matched

variable {P Q R : MemRange → MemRange → Prop} {ranges ranges₁ ranges' : List MemRange}

theorem mono (hPQ : ∀ r r', P r r' → Q r r') (h : Matched P ranges ranges') :
    Matched Q ranges ranges' :=
  ⟨h.length_eq, fun k r r' hr hr' => hPQ r r' (h.rel k r r' hr hr')⟩

theorem exists_right (h : Matched P ranges ranges') {k : Nat} {r : MemRange}
    (hr : ranges[k]? = some r) : ∃ r', ranges'[k]? = some r' ∧ P r r' := by
  have hk : k < ranges'.length := by
    rw [h.length_eq]
    exact (List.getElem?_eq_some_iff.mp hr).1
  have hr' : ranges'[k]? = some ranges'[k] := List.getElem?_eq_getElem hk
  exact ⟨ranges'[k], hr', h.rel k r ranges'[k] hr hr'⟩

theorem exists_left (h : Matched P ranges ranges') {k : Nat} {r' : MemRange}
    (hr' : ranges'[k]? = some r') : ∃ r, ranges[k]? = some r ∧ P r r' := by
  have hk : k < ranges.length := by
    rw [← h.length_eq]
    exact (List.getElem?_eq_some_iff.mp hr').1
  have hr : ranges[k]? = some ranges[k] := List.getElem?_eq_getElem hk
  exact ⟨ranges[k], hr, h.rel k ranges[k] r' hr hr'⟩

theorem trans (hPQ : ∀ r r₁ r', P r r₁ → Q r₁ r' → R r r') (h : Matched P ranges ranges₁)
    (h' : Matched Q ranges₁ ranges') : Matched R ranges ranges' := by
  constructor
  · rw [h'.length_eq, h.length_eq]
  · intro k r r' hr hr'
    obtain ⟨r₁, hr₁, hP⟩ := h.exists_right hr
    exact hPQ r r₁ r' hP (h'.rel k r₁ r' hr₁ hr')

theorem set (hP : ∀ r, r ∈ ranges → P r r) {k : Nat} {r q : MemRange} (hr : ranges[k]? = some r)
    (hq : P r q) : Matched P ranges (ranges.set k q) := by
  constructor
  · exact List.length_set
  · intro j r₁ r' hr₁ hr'
    by_cases hj : k = j
    · subst hj
      cases hr.symm.trans hr₁
      rw [List.getElem?_set_self (List.getElem?_eq_some_iff.mp hr).1] at hr'
      cases hr'
      exact hq
    · rw [List.getElem?_set_ne hj] at hr'
      cases hr₁.symm.trans hr'
      exact hP r₁ (List.mem_of_getElem? hr₁)

end Matched

/-- A range is moved only at its end, and ends at a page. -/
def EndMoves (r r' : MemRange) : Prop := r'.begin = r.begin ∧ r'.endAddr % 4096 = 0

/-- A range is cut at its end, at a page. -/
def Cut (r r' : MemRange) : Prop :=
  r'.begin = r.begin ∧ r.begin ≤ r'.endAddr ∧ r'.endAddr ≤ r.endAddr ∧ r'.endAddr % 4096 = 0

theorem Cut.trans {r r₁ r' : MemRange} (h : Cut r r₁) (h' : Cut r₁ r') : Cut r r' := by
  obtain ⟨hbegin, -, hle, -⟩ := h
  obtain ⟨hbegin', hge', hle', hmod'⟩ := h'
  exact ⟨hbegin'.trans hbegin, hbegin ▸ hge', hle'.trans hle, hmod'⟩

theorem Cut.has {r r' : MemRange} (h : Cut r r') {a : Nat} (ha : r'.Has a) : r.Has a :=
  ⟨h.1 ▸ ha.1, Nat.lt_of_lt_of_le ha.2 h.2.2.1⟩

theorem paDifference_mod {size endAddr : Nat} (hsize : size % 4096 = 0)
    (hend : endAddr % 4096 = 0) : paDifference size endAddr % 4096 = 0 := by
  rw [paDifference]
  omega

theorem paDifference_of_le {start endAddr : Nat} (hle : start ≤ endAddr) (hend : endAddr < 2 ^ 64) :
    paDifference start endAddr = endAddr - start := by
  rw [paDifference]
  omega

section

variable {ranges ranges' : List MemRange} {size begin endAddr : Nat}

theorem endMoves_of_carveOut (hends : ∀ r ∈ ranges, r.endAddr % 4096 = 0) (hsize : size % 4096 = 0)
    (h : carveOutMemRange ranges size = some (begin, endAddr, ranges')) :
    Matched EndMoves ranges ranges' := by
  obtain ⟨k, r, hk, -, rfl, rfl, rfl⟩ := carveOutMemRange_eq_some h
  apply Matched.set
  · intro q hq
    exact ⟨rfl, hends q hq⟩
  · exact hk
  · exact ⟨rfl, paDifference_mod hsize (hends r (mem_of_getElem? hk))⟩

theorem cut_of_carveOut
    (hranges : ∀ r ∈ ranges, r.begin ≤ r.endAddr ∧ r.endAddr < 2 ^ 64 ∧ r.endAddr % 4096 = 0)
    (hsize : size % 4096 = 0)
    (h : carveOutMemRange ranges size = some (begin, endAddr, ranges')) :
    Matched Cut ranges ranges' ∧ endAddr = begin + size ∧
      ∃ (k : Nat) (r r' : MemRange), ranges[k]? = some r ∧ ranges'[k]? = some r' ∧
        r'.endAddr = begin ∧ r.endAddr = endAddr := by
  obtain ⟨k, r, hk, hle, rfl, rfl, rfl⟩ := carveOutMemRange_eq_some h
  obtain ⟨hr, hend, hmod⟩ := hranges r (List.mem_of_getElem? hk)
  rw [paDifference_of_le hr hend] at hle
  have hbegin : paDifference size r.endAddr = r.endAddr - size :=
    paDifference_of_le (by omega) hend
  have hcut : Cut r { r with endAddr := paDifference size r.endAddr } := by
    rw [hbegin]
    exact ⟨rfl, by dsimp only; omega, by dsimp only; omega, by dsimp only; omega⟩
  constructor
  · apply Matched.set _ hk hcut
    intro q hq
    obtain ⟨hq₁, -, hq₃⟩ := hranges q hq
    exact ⟨rfl, hq₁, Nat.le_refl _, hq₃⟩
  · constructor
    · rw [hbegin]
      omega
    · exact ⟨k, r, _, hk, List.getElem?_set_self (List.getElem?_eq_some_iff.mp hk).1, rfl, rfl⟩

end

/-! ## What all the requests do -/

theorem endMoves_of_carveAll {ranges : List MemRange} {sizes : List Nat}
    (hends : ∀ r ∈ ranges, r.endAddr % 4096 = 0) (hsizes : ∀ size ∈ sizes, size % 4096 = 0) :
    Matched EndMoves ranges (carveAll ranges sizes).2 := by
  induction sizes generalizing ranges with
  | nil =>
    constructor
    · rfl
    · intro k r r' hr hr'
      cases hr.symm.trans hr'
      exact ⟨rfl, hends r (mem_of_getElem? hr)⟩
  | cons size sizes ih =>
    have hsizes' := fun s hs => hsizes s (mem_cons_of_mem _ hs)
    rcases hcarve : carveOutMemRange ranges size with - | ⟨begin, endAddr, ranges₁⟩
    · rw [carveAll_cons_of_none sizes hcarve]
      exact ih hends hsizes'
    · rw [carveAll_cons_of_some sizes hcarve]
      have h₁ := endMoves_of_carveOut hends (hsizes size (mem_cons_self ..)) hcarve
      have hends₁ : ∀ r ∈ ranges₁, r.endAddr % 4096 = 0 := by
        intro r hr
        obtain ⟨k, hk⟩ := mem_iff_getElem?.mp hr
        obtain ⟨-, -, -, hmod⟩ := h₁.exists_left hk
        exact hmod
      exact h₁.trans (fun _ _ _ h h' => ⟨h'.1.trans h.1, h'.2⟩) (ih hends₁ hsizes')

/-- The regions that were carved: at pages, of the size asked for, apart, and each from
what has been cut from one range. -/
structure Carved (ranges ranges' : List MemRange) (regions : List (Nat × MemRange)) : Prop where
  cut : Matched Cut ranges ranges'
  aligned : ∀ p ∈ regions, p.2.begin % 4096 = 0
  size : ∀ p ∈ regions, p.1 % 4096 = 0 ∧ p.2.endAddr = p.2.begin + p.1
  inside : ∀ p ∈ regions, ∃ (k : Nat) (r r' : MemRange), ranges[k]? = some r ∧
    ranges'[k]? = some r' ∧ r'.endAddr ≤ p.2.begin ∧ p.2.endAddr ≤ r.endAddr
  disjoint : regions.Pairwise fun p q => p.2.Disjoint q.2

/-- No two of disjoint ranges have an address in common. -/
theorem index_eq_of_has {ranges : List MemRange} (hdisj : ranges.Pairwise MemRange.Disjoint)
    {j k : Nat} {r q : MemRange} {a : Nat} (hr : ranges[j]? = some r) (hq : ranges[k]? = some q)
    (har : r.Has a) (haq : q.Has a) : j = k := by
  obtain ⟨hj, rfl⟩ := List.getElem?_eq_some_iff.mp hr
  obtain ⟨hk, rfl⟩ := List.getElem?_eq_some_iff.mp hq
  have h := List.pairwise_iff_getElem.mp hdisj
  rcases Nat.lt_trichotomy j k with hlt | heq | hgt
  · exact absurd ⟨har, haq⟩ (h j k hj hk hlt a)
  · exact heq
  · exact absurd ⟨haq, har⟩ (h k j hk hj hgt a)

theorem Matched.pairwise_disjoint {ranges ranges' : List MemRange}
    (hcut : Matched Cut ranges ranges') (hdisj : ranges.Pairwise MemRange.Disjoint) :
    ranges'.Pairwise MemRange.Disjoint := by
  rw [pairwise_iff_getElem]
  intro i j hi hj hij a ⟨hai, haj⟩
  obtain ⟨q, hq, hqi⟩ := hcut.exists_left (getElem?_eq_getElem hi)
  obtain ⟨q', hq', hqj⟩ := hcut.exists_left (getElem?_eq_getElem hj)
  have := index_eq_of_has hdisj hq hq' (hqi.has hai) (hqj.has haj)
  omega

section

variable {ranges : List MemRange} {sizes : List Nat}

theorem carved_of_carveAll (hdisj : ranges.Pairwise MemRange.Disjoint)
    (hranges : ∀ r ∈ ranges, r.begin ≤ r.endAddr ∧ r.endAddr < 2 ^ 64 ∧ r.endAddr % 4096 = 0)
    (hsizes : ∀ size ∈ sizes, size % 4096 = 0) :
    Carved ranges (carveAll ranges sizes).2 (carveAll ranges sizes).1 := by
  induction sizes generalizing ranges with
  | nil =>
    rw [carveAll]
    refine ⟨⟨rfl, ?_⟩, nofun, nofun, nofun, List.Pairwise.nil⟩
    intro k r r' hr hr'
    cases hr.symm.trans hr'
    obtain ⟨hr₁, -, hr₃⟩ := hranges r (mem_of_getElem? hr)
    exact ⟨rfl, hr₁, Nat.le_refl _, hr₃⟩
  | cons size sizes ih =>
    have hsizes' := fun s hs => hsizes s (mem_cons_of_mem _ hs)
    rcases hcarve : carveOutMemRange ranges size with - | ⟨begin, endAddr, ranges₁⟩
    · rw [carveAll_cons_of_none sizes hcarve]
      exact ih hdisj hranges hsizes'
    rw [carveAll_cons_of_some sizes hcarve]
    have hsize := hsizes size (mem_cons_self ..)
    obtain ⟨hcut, hend, k, r, r₁, hr, hr₁, hbegin, hrend⟩ :=
      cut_of_carveOut hranges hsize hcarve
    have hranges₁ : ∀ q ∈ ranges₁, q.begin ≤ q.endAddr ∧ q.endAddr < 2 ^ 64 ∧
        q.endAddr % 4096 = 0 := by
      intro q hq
      obtain ⟨j, hj⟩ := mem_iff_getElem?.mp hq
      obtain ⟨q₀, hq₀, hq⟩ := hcut.exists_left hj
      have := hranges q₀ (mem_of_getElem? hq₀)
      exact ⟨hq.1 ▸ hq.2.1, by have := hq.2.2.1; omega, hq.2.2.2⟩
    have hrest := ih (hcut.pairwise_disjoint hdisj) hranges₁ hsizes'
    have htrans : Matched Cut ranges (carveAll ranges₁ sizes).2 :=
      hcut.trans (fun r r₁ r' (h : Cut r r₁) (h' : Cut r₁ r') => h.trans h') hrest.cut
    refine ⟨htrans, ?_, ?_, ?_, ?_⟩
    · intro p hp
      rcases mem_cons.mp hp with rfl | hp
      · have := (hcut.rel k r r₁ hr hr₁).2.2.2
        rwa [hbegin] at this
      · exact hrest.aligned p hp
    · intro p hp
      rcases mem_cons.mp hp with rfl | hp
      · exact ⟨hsize, hend⟩
      · exact hrest.size p hp
    · intro p hp
      rcases mem_cons.mp hp with rfl | hp
      · obtain ⟨r', hr', hle⟩ := hrest.cut.exists_right hr₁
        exact ⟨k, r, r', hr, hr', hbegin ▸ hle.2.2.1, hrend.ge⟩
      · obtain ⟨j, q₁, q', hq₁, hq', hle, hle'⟩ := hrest.inside p hp
        obtain ⟨q, hq, hqq₁⟩ := hcut.exists_left hq₁
        exact ⟨j, q, q', hq, hq', hle, hle'.trans hqq₁.2.2.1⟩
    · apply List.Pairwise.cons _ hrest.disjoint
      intro p hp a ⟨⟨ha, ha'⟩, hap, hap'⟩
      obtain ⟨j, q₁, q', hq₁, hq', hle, hle'⟩ := hrest.inside p hp
      obtain ⟨q, hq, hqq₁⟩ := hcut.exists_left hq₁
      have hq₁q' := hrest.cut.rel j q₁ q' hq₁ hq'
      -- what is carved later lies in the ranges that are left
      have haq₁ : q₁.Has a := ⟨hq₁q'.2.1.trans (hle.trans hap), by omega⟩
      have har : r.Has a := by
        have := (hcut.rel k r r₁ hr hr₁).2.1
        exact ⟨by dsimp only at ha; omega, by dsimp only at ha'; omega⟩
      have hjk := index_eq_of_has hdisj hq hr (hqq₁.has haq₁) har
      subst hjk
      cases hq₁.symm.trans hr₁
      have := haq₁.2
      dsimp only at ha
      omega

end

/-! ## What is reserved -/

/-- What is missing from the ends of the ranges. -/
def missing (befores afters : List MemRange) : List MemRange :=
  (befores.zip afters).filterMap fun (before, after) =>
    if after.endAddr < before.endAddr then some ⟨after.endAddr, before.endAddr⟩ else none

theorem missing_cons (before after : MemRange) (befores afters : List MemRange) :
    missing (before :: befores) (after :: afters) =
      (if after.endAddr < before.endAddr then [⟨after.endAddr, before.endAddr⟩] else []) ++
        missing befores afters := by
  rw [missing, zip_cons_cons, filterMap_cons]
  by_cases h : after.endAddr < before.endAddr
  · simp only [if_pos h]
    rfl
  · simp only [if_neg h]
    rfl

theorem updateReservedRanges_eq {update befores afters : List MemRange}
    (h : Matched (fun r r' => r'.begin = r.begin) befores afters)
    (hlen : update.length + befores.length ≤ maxMemRanges) :
    updateReservedRanges update befores afters = (.ok, update ++ missing befores afters) := by
  induction befores generalizing update afters with
  | nil =>
    cases afters with
    | nil =>
      show (Support.Outcome.ok, update) = (.ok, update ++ [])
      rw [append_nil]
    | cons after afters => exact absurd h.length_eq (by simp)
  | cons before befores ih =>
    cases afters with
    | nil => exact absurd h.length_eq (by simp)
    | cons after afters =>
      have hbegin : after.begin = before.begin := h.rel 0 before after rfl rfl
      have htail : Matched (fun r r' => r'.begin = r.begin) befores afters :=
        ⟨Nat.succ.inj h.length_eq, fun k r r' hr hr' => h.rel (k + 1) r r' hr hr'⟩
      rw [length_cons] at hlen
      rw [updateReservedRanges, if_neg (by omega)]
      dsimp only
      by_cases hend : after.endAddr < before.endAddr
      · rw [if_pos hend, reserve, if_neg (by omega)]
        dsimp only
        rw [ih htail (by rw [length_append, length_singleton]; omega), missing_cons,
          if_pos hend, append_assoc]
      · rw [if_neg hend]
        dsimp only
        rw [ih htail (by omega), missing_cons, if_neg hend, nil_append]

theorem mem_missing {befores afters : List MemRange} {p : MemRange} :
    p ∈ missing befores afters ↔ ∃ (k : Nat) (r r' : MemRange), befores[k]? = some r ∧
      afters[k]? = some r' ∧ r'.endAddr < r.endAddr ∧ p = ⟨r'.endAddr, r.endAddr⟩ := by
  rw [missing, mem_filterMap]
  constructor
  · rintro ⟨⟨r, r'⟩, hmem, heq⟩
    obtain ⟨k, hk⟩ := mem_iff_getElem?.mp hmem
    rw [getElem?_zip_eq_some] at hk
    dsimp only at heq
    split at heq
    · rename_i hlt
      cases heq
      exact ⟨k, r, r', hk.1, hk.2, hlt, rfl⟩
    · contradiction
  · rintro ⟨k, r, r', hr, hr', hlt, rfl⟩
    refine ⟨(r, r'), mem_of_getElem? (getElem?_zip_eq_some.mpr ⟨hr, hr'⟩), ?_⟩
    exact if_pos hlt

/-- No two of disjoint missing parts have an address in common. -/
theorem index_eq_of_missing {befores afters : List MemRange}
    (hdisj : (missing befores afters).Pairwise MemRange.Disjoint) {j k : Nat}
    {r r' q q' : MemRange} {a : Nat} (hr : befores[j]? = some r) (hr' : afters[j]? = some r')
    (hq : befores[k]? = some q) (hq' : afters[k]? = some q')
    (har : MemRange.Has ⟨r'.endAddr, r.endAddr⟩ a) (haq : MemRange.Has ⟨q'.endAddr, q.endAddr⟩ a) :
    j = k := by
  rw [missing, List.pairwise_filterMap] at hdisj
  have hzip : (befores.zip afters)[j]? = some (r, r') := List.getElem?_zip_eq_some.mpr ⟨hr, hr'⟩
  have hzip' : (befores.zip afters)[k]? = some (q, q') := List.getElem?_zip_eq_some.mpr ⟨hq, hq'⟩
  obtain ⟨hj, hj'⟩ := List.getElem?_eq_some_iff.mp hzip
  obtain ⟨hk, hk'⟩ := List.getElem?_eq_some_iff.mp hzip'
  have hall := List.pairwise_iff_getElem.mp hdisj
  have hrlt : r'.endAddr < r.endAddr := Nat.lt_of_le_of_lt har.1 har.2
  have hqlt : q'.endAddr < q.endAddr := Nat.lt_of_le_of_lt haq.1 haq.2
  rcases Nat.lt_trichotomy j k with hlt | heq | hgt
  · have h := hall j k hj hk hlt
    rw [hj', hk'] at h
    exact absurd ⟨har, haq⟩ (h _ (if_pos hrlt) _ (if_pos hqlt) a)
  · exact heq
  · have h := hall k j hk hj hgt
    rw [hj', hk'] at h
    exact absurd ⟨haq, har⟩ (h _ (if_pos hqlt) _ (if_pos hrlt) a)

/-! ## Accounting for every byte -/

/-- Carving from some ranges accounts for every byte: the regions are at pages, of the
size asked for, apart, and each inside a range; and if the reserved ranges can be
written down, they cover the regions, and with what is left they are the ranges, with no
overlap. -/
structure Accounts (params : List MemRange) (regions : List (Nat × MemRange))
    (available : List MemRange) : Prop where
  aligned : ∀ p ∈ regions, p.2.begin % pageSize = 0 ∧ p.2.endAddr % pageSize = 0
  size : ∀ p ∈ regions, p.2.endAddr = p.2.begin + p.1
  disjoint : regions.Pairwise fun p q => p.2.Disjoint q.2
  inside : ∀ p ∈ regions, ∃ r ∈ params, r.begin ≤ p.2.begin ∧ p.2.endAddr ≤ r.endAddr
  covered : ∀ update, updateReservedRanges [] params available = (.ok, update) →
    ∀ p ∈ regions, ∀ a, p.2.Has a → ∃ q ∈ update, q.Has a
  whole : ∀ update, updateReservedRanges [] params available = (.ok, update) →
    ∀ a, (∃ q ∈ update ++ available, q.Has a) ↔ ∃ r ∈ params, r.Has a
  apart : ∀ update, updateReservedRanges [] params available = (.ok, update) →
    (update ++ available).Pairwise MemRange.Disjoint

section

variable {params available : List MemRange} {regions : List (Nat × MemRange)}

theorem EndMoves.covers {r r' : MemRange} (h : EndMoves r r') {a : Nat} (ha : r.Has a) :
    MemRange.Has ⟨r'.endAddr, r.endAddr⟩ a ∨ r'.Has a := by
  by_cases hend : r'.endAddr ≤ a
  · exact .inl ⟨hend, ha.2⟩
  · exact .inr ⟨h.1 ▸ ha.1, Nat.lt_of_not_le hend⟩

theorem roundDown_page (a : Nat) : roundDownToPage a = a / 4096 * 4096 := by
  rw [roundDownToPage, pageSize_eq]

/-- A range that ends before it starts, once it is rounded, takes in memory of others. -/
theorem le_roundDown_of_pieces (hlen : params.length ≤ maxMemRanges)
    (hmoves : Matched EndMoves params available) (hbounds : ∀ r ∈ params, r.begin ≤ r.endAddr)
    (h : Accounts params regions available) {r : MemRange} (hr : r ∈ params) :
    r.begin ≤ roundDownToPage r.endAddr := by
  have hupdate : updateReservedRanges [] params available = (.ok, missing params available) :=
    updateReservedRanges_eq (hmoves.mono fun _ _ h => h.1) (by rwa [length_nil, Nat.zero_add])
  have hwhole := h.whole _ hupdate
  obtain ⟨hmissing, havailable, hcross⟩ := pairwise_append.mp (h.apart _ hupdate)
  obtain ⟨k, hk⟩ := mem_iff_getElem?.mp hr
  obtain ⟨r', hk', hr'⟩ := hmoves.exists_right hk
  have hle := hbounds r hr
  apply Nat.le_of_not_lt
  intro hlt
  rw [roundDown_page] at hlt
  have hmod := hr'.2
  by_cases hend : r'.endAddr ≤ r.endAddr / 4096 * 4096
  · -- the byte before the range is reserved with it
    have har : MemRange.Has ⟨r'.endAddr, r.endAddr⟩ (r.begin - 1) :=
      ⟨by dsimp only; omega, by dsimp only; omega⟩
    have hmem : ⟨r'.endAddr, r.endAddr⟩ ∈ missing params available :=
      mem_missing.mpr ⟨k, r, r', hk, hk', Nat.lt_of_le_of_lt har.1 har.2, rfl⟩
    obtain ⟨q, hq, haq⟩ := (hwhole _).mp ⟨_, mem_append_left _ hmem, har⟩
    obtain ⟨j, hj⟩ := mem_iff_getElem?.mp hq
    obtain ⟨q', hj', hq'⟩ := hmoves.exists_right hj
    rcases hq'.covers haq with hpiece | hpiece
    · have hjk := index_eq_of_missing hmissing hj hj' hk hk' hpiece har
      subst hjk
      cases hj.symm.trans hk
      have := haq.1
      omega
    · exact hcross _ hmem q' (mem_of_getElem? hj') _ ⟨har, hpiece⟩
  · -- the byte after the range is available with it
    have har : r'.Has r.endAddr := ⟨by rw [hr'.1]; exact hle, by omega⟩
    have hmem := mem_of_getElem? hk'
    obtain ⟨q, hq, haq⟩ := (hwhole _).mp ⟨_, mem_append_right _ hmem, har⟩
    obtain ⟨j, hj⟩ := mem_iff_getElem?.mp hq
    obtain ⟨q', hj', hq'⟩ := hmoves.exists_right hj
    rcases hq'.covers haq with hpiece | hpiece
    · have hmem' : ⟨q'.endAddr, q.endAddr⟩ ∈ missing params available :=
        mem_missing.mpr ⟨j, q, q', hj, hj', Nat.lt_of_le_of_lt hpiece.1 hpiece.2, rfl⟩
      exact hcross _ hmem' r' hmem _ ⟨hpiece, har⟩
    · have hjk := index_eq_of_has havailable hj' hk' hpiece har
      subst hjk
      cases hj.symm.trans hk
      exact Nat.lt_irrefl _ haq.2

/-- What is cut from disjoint ranges and what is left of them. -/
theorem apart_of_cut (hdisj : params.Pairwise MemRange.Disjoint)
    (hcut : Matched Cut params available) :
    (missing params available ++ available).Pairwise MemRange.Disjoint := by
  have hpart : ∀ (k : Nat) r r' a, params[k]? = some r → available[k]? = some r' →
      MemRange.Has ⟨r'.endAddr, r.endAddr⟩ a → r.Has a := by
    intro k r r' a hr hr' ha
    exact ⟨(hcut.rel k r r' hr hr').2.1.trans ha.1, ha.2⟩
  rw [pairwise_append]
  refine ⟨?_, ?_, ?_⟩
  · rw [missing, pairwise_filterMap, pairwise_iff_getElem]
    intro i j hi hj hij p hp q hq a ⟨hap, haq⟩
    rw [getElem_zip] at hp hq
    dsimp only at hp hq
    split at hp
    · split at hq
      · cases hp
        cases hq
        rw [length_zip] at hi hj
        have hgetj := getElem?_eq_getElem (show j < params.length by omega)
        have hgeti := getElem?_eq_getElem (show i < params.length by omega)
        have heq := index_eq_of_has hdisj hgeti hgetj
          (hpart i _ _ a hgeti (getElem?_eq_getElem (show i < available.length by omega)) hap)
          (hpart j _ _ a hgetj (getElem?_eq_getElem (show j < available.length by omega)) haq)
        omega
      · contradiction
    · contradiction
  · exact hcut.pairwise_disjoint hdisj
  · intro p hp q' hq' a ⟨hap, haq⟩
    obtain ⟨k, r, r', hr, hr', hlt, rfl⟩ := mem_missing.mp hp
    obtain ⟨j, hj⟩ := mem_iff_getElem?.mp hq'
    obtain ⟨q, hq, hcutq⟩ := hcut.exists_left hj
    have hjk := index_eq_of_has hdisj hr hq (hpart k r r' a hr hr' hap) (hcutq.has haq)
    subst hjk
    cases hr'.symm.trans hj
    exact absurd haq.2 (Nat.not_lt.mpr hap.1)

theorem accounts_of_carved (hlen : params.length ≤ maxMemRanges)
    (hdisj : params.Pairwise MemRange.Disjoint) {rounded : List MemRange}
    (hrounded : Matched Cut params rounded) (h : Carved rounded available regions) :
    Accounts params regions available := by
  have hcut : Matched Cut params available :=
    hrounded.trans (fun r r₁ r' (h : Cut r r₁) (h' : Cut r₁ r') => h.trans h') h.cut
  have hupdate : updateReservedRanges [] params available = (.ok, missing params available) :=
    updateReservedRanges_eq (hcut.mono fun _ _ h => h.1) (by rwa [length_nil, Nat.zero_add])
  have hinside : ∀ p ∈ regions, ∃ (k : Nat) (r r' : MemRange), params[k]? = some r ∧
      available[k]? = some r' ∧ r'.endAddr ≤ p.2.begin ∧ p.2.endAddr ≤ r.endAddr := by
    intro p hp
    obtain ⟨k, r₁, r', hr₁, hr', hle, hle'⟩ := h.inside p hp
    obtain ⟨r, hr, hrr₁⟩ := hrounded.exists_left hr₁
    exact ⟨k, r, r', hr, hr', hle, hle'.trans hrr₁.2.2.1⟩
  refine ⟨?_, fun p hp => (h.size p hp).2, h.disjoint, ?_, ?_, ?_, ?_⟩
  · intro p hp
    have haligned := h.aligned p hp
    obtain ⟨hsize, hend⟩ := h.size p hp
    rw [pageSize_eq]
    exact ⟨haligned, by omega⟩
  · intro p hp
    obtain ⟨k, r, r', hr, hr', hle, hle'⟩ := hinside p hp
    exact ⟨r, mem_of_getElem? hr, (hcut.rel k r r' hr hr').2.1.trans hle, hle'⟩
  · intro update hok p hp a ha
    cases hupdate.symm.trans hok
    obtain ⟨k, r, r', hr, hr', hle, hle'⟩ := hinside p hp
    have hpiece : MemRange.Has ⟨r'.endAddr, r.endAddr⟩ a :=
      ⟨hle.trans ha.1, Nat.lt_of_lt_of_le ha.2 hle'⟩
    have hlt := Nat.lt_of_le_of_lt hpiece.1 hpiece.2
    exact ⟨_, mem_missing.mpr ⟨k, r, r', hr, hr', hlt, rfl⟩, hpiece⟩
  · intro update hok a
    cases hupdate.symm.trans hok
    constructor
    · rintro ⟨q, hq, ha⟩
      rcases mem_append.mp hq with hq | hq
      · obtain ⟨k, r, r', hr, hr', -, rfl⟩ := mem_missing.mp hq
        exact ⟨r, mem_of_getElem? hr, (hcut.rel k r r' hr hr').2.1.trans ha.1, ha.2⟩
      · obtain ⟨k, hk⟩ := mem_iff_getElem?.mp hq
        obtain ⟨r, hr, hrq⟩ := hcut.exists_left hk
        exact ⟨r, mem_of_getElem? hr, hrq.has ha⟩
    · rintro ⟨r, hr, ha⟩
      obtain ⟨k, hk⟩ := mem_iff_getElem?.mp hr
      obtain ⟨r', hk', hrr'⟩ := hcut.exists_right hk
      have hmoves : EndMoves r r' := ⟨hrr'.1, hrr'.2.2.2⟩
      rcases hmoves.covers ha with hpiece | hpiece
      · have hlt := Nat.lt_of_le_of_lt hpiece.1 hpiece.2
        exact ⟨_, mem_append_left _ (mem_missing.mpr ⟨k, r, r', hk, hk', hlt, rfl⟩), hpiece⟩
      · exact ⟨r', mem_append_right _ (mem_of_getElem? hk'), hpiece⟩
  · intro update hok
    cases hupdate.symm.trans hok
    exact apart_of_cut hdisj hcut

end

theorem matched_availableRanges {P : MemRange → MemRange → Prop} {params : List MemRange}
    (h : ∀ r ∈ params, P r { r with endAddr := roundDownToPage r.endAddr }) :
    Matched P params (availableRanges params) := by
  constructor
  · exact length_map ..
  · intro k r r' hr hr'
    rw [availableRanges, getElem?_map, hr] at hr'
    cases hr'
    exact h r (mem_of_getElem? hr)

/-- Carving accounts for every byte, whatever sizes are asked for, if and only if no range
starts after the last page boundary before its end. -/
theorem carving_accounts_iff (params : List MemRange) (memSizes : List Nat)
    (hlen : params.length ≤ maxMemRanges) (hdisj : params.Pairwise MemRange.Disjoint)
    (hbounds : ∀ r ∈ params, r.begin ≤ r.endAddr ∧ r.endAddr < 2 ^ 64) :
    Accounts params
        (carveAll (availableRanges params) (memSizes.map roundUpToPage)).1
        (carveAll (availableRanges params) (memSizes.map roundUpToPage)).2 ↔
      ∀ r ∈ params, r.begin ≤ roundDownToPage r.endAddr := by
  have hsizes : ∀ size ∈ memSizes.map roundUpToPage, size % 4096 = 0 := by
    intro size hsize
    obtain ⟨memSize, -, rfl⟩ := List.mem_map.mp hsize
    exact roundUpToPage_mod memSize
  have hends : ∀ r ∈ availableRanges params, r.endAddr % 4096 = 0 := by
    intro r hr
    obtain ⟨q, -, rfl⟩ := List.mem_map.mp hr
    exact roundDownToPage_mod q.endAddr
  constructor
  · intro h r hr
    have hround : Matched EndMoves params (availableRanges params) :=
      matched_availableRanges fun r _ => ⟨rfl, roundDownToPage_mod r.endAddr⟩
    have hmoves := hround.trans
      (fun r r₁ r' (h : EndMoves r r₁) (h' : EndMoves r₁ r') =>
        (⟨h'.1.trans h.1, h'.2⟩ : EndMoves r r'))
      (endMoves_of_carveAll hends hsizes)
    exact le_roundDown_of_pieces hlen hmoves (fun r hr => (hbounds r hr).1) h hr
  · intro h
    have hround : Matched Cut params (availableRanges params) :=
      matched_availableRanges fun r hr =>
        ⟨rfl, h r hr, roundDownToPage_le r.endAddr, roundDownToPage_mod r.endAddr⟩
    apply accounts_of_carved hlen hdisj hround
    apply carved_of_carveAll _ _ hsizes
    · exact hround.pairwise_disjoint hdisj
    · intro r hr
      obtain ⟨q, hq, rfl⟩ := List.mem_map.mp hr
      have hle := roundDownToPage_le q.endAddr
      have hlt := (hbounds q hq).2
      exact ⟨h q hq, by dsimp only; omega, roundDownToPage_mod q.endAddr⟩

theorem carving_accounts_two_ranges :
    Accounts [⟨0x1000, 0x3800⟩, ⟨0x4800, 0x9000⟩]
      (carveAll (availableRanges [⟨0x1000, 0x3800⟩, ⟨0x4800, 0x9000⟩])
        ([0x1001, 1].map roundUpToPage)).1
      (carveAll (availableRanges [⟨0x1000, 0x3800⟩, ⟨0x4800, 0x9000⟩])
        ([0x1001, 1].map roundUpToPage)).2 := by
  apply (carving_accounts_iff [⟨0x1000, 0x3800⟩, ⟨0x4800, 0x9000⟩] [0x1001, 1] (by decide) _ _).mpr
  · decide
  · apply List.Pairwise.cons
    · rintro q hq a ⟨⟨-, ha⟩, ⟨hqa, -⟩⟩
      cases List.mem_singleton.mp hq
      dsimp only at ha hqa
      omega
    · exact List.pairwise_singleton _ _
  · decide

/-- A range inside one page: the page that a VM gets is none of its memory. -/
theorem small_range_carves_outside :
    (carveAll (availableRanges [⟨0x1800, 0x1900⟩]) ([1].map roundUpToPage)).1 =
        [(0x1000, ⟨0, 0x1000⟩)] ∧
      ¬Accounts [⟨0x1800, 0x1900⟩]
        (carveAll (availableRanges [⟨0x1800, 0x1900⟩]) ([1].map roundUpToPage)).1
        (carveAll (availableRanges [⟨0x1800, 0x1900⟩]) ([1].map roundUpToPage)).2 := by
  have hcarve : (carveAll (availableRanges [⟨0x1800, 0x1900⟩]) ([1].map roundUpToPage)).1 =
      [(0x1000, ⟨0, 0x1000⟩)] := by decide
  constructor
  · exact hcarve
  · intro h
    obtain ⟨r, hr, hle, -⟩ :=
      h.inside (0x1000, ⟨0, 0x1000⟩) (hcarve ▸ List.mem_singleton.mpr rfl)
    cases List.mem_singleton.mp hr
    exact absurd hle (by decide)

end Hafnium
