import Limitr.FluidLevel
import Mathlib.Tactic.Tauto

/-!
# Pouring into a leaking vessel

A list of pours `(time, amount)` fills a leaking vessel: before each pour the
level drains, then the amount is added.  `Within` says that no level so reached
is above the capacity.

What a vessel holds after a pour is the most that any stretch of pours up to it
brought in beyond what leaked while it lasted, so the levels stay within the
capacity exactly when every stretch brings in at most the capacity and what
leaks from its first pour to its last (`within_iff`, `fits_iff`).  This holds
for amounts of either sign.  For amounts at or above zero, fewer pours never
reach a higher level (`Within.sublist`).
-/

namespace FluidLevel

variable {K : Type*} [Field K] [LinearOrder K] (rate capacity : K)

/-- The reading after one pour. -/
def Reading.pour (r : Reading K) (step : K × K) : Reading K :=
  ⟨step.1, drain rate r.level (step.1 - r.time) + step.2⟩

/-- No level reached by the pours is above the capacity. -/
def Within : Reading K → List (K × K) → Prop
  | _, [] => True
  | r, step :: steps => (r.pour rate step).level ≤ capacity ∧ Within (r.pour rate step) steps

instance Within.decidable : (r : Reading K) → (steps : List (K × K)) →
    Decidable (Within rate capacity r steps)
  | _, [] => .isTrue trivial
  | r, step :: steps =>
    have := Within.decidable (r.pour rate step) steps
    inferInstanceAs (Decidable ((r.pour rate step).level ≤ capacity ∧ _))

/-- The pours from a reading on bring in at most the capacity and what leaks
since then, at every one of them. -/
def FitsFrom : Reading K → List (K × K) → Prop
  | _, [] => True
  | r, step :: steps => r.level + step.2 ≤ capacity + rate * (step.1 - r.time) ∧
      FitsFrom ⟨r.time, r.level + step.2⟩ steps

/-- Every stretch of the pours fits. -/
def Fits : List (K × K) → Prop
  | [] => True
  | step :: steps => FitsFrom rate capacity ⟨step.1, 0⟩ (step :: steps) ∧ Fits steps

variable {rate capacity} {r r' : Reading K} {steps : List (K × K)}

variable [IsStrictOrderedRing K]

/-- Two readings that stand for the same level at any later time. -/
theorem fitsFrom_shift (t l t' : K) (steps : List (K × K)) :
    FitsFrom rate capacity ⟨t, l⟩ steps ↔
      FitsFrom rate capacity ⟨t', l - rate * (t' - t)⟩ steps := by
  induction steps generalizing l with
  | nil => exact Iff.rfl
  | cons step steps ih =>
      have hsame : l + step.2 - rate * (t' - t) = l - rate * (t' - t) + step.2 := by ring
      have hleak : rate * (step.1 - t) = rate * (step.1 - t') + rate * (t' - t) := by ring
      simp only [FitsFrom]
      rw [ih (l + step.2), hsame, hleak]
      apply and_congr_left
      intro _
      constructor
      · intro h
        linarith
      · intro h
        linarith

/-- The greater of two levels fits when both do. -/
theorem fitsFrom_max (t l l' : K) (steps : List (K × K)) :
    FitsFrom rate capacity ⟨t, max l l'⟩ steps ↔
      FitsFrom rate capacity ⟨t, l⟩ steps ∧ FitsFrom rate capacity ⟨t, l'⟩ steps := by
  induction steps generalizing l l' with
  | nil => simp [FitsFrom]
  | cons step steps ih =>
      simp only [FitsFrom]
      rw [max_add, ih, max_le_iff]
      exact ⟨fun h => ⟨⟨h.1.1, h.2.1⟩, ⟨h.1.2, h.2.2⟩⟩, fun h => ⟨⟨h.1.1, h.2.1⟩, ⟨h.1.2, h.2.2⟩⟩⟩

/-- **The level is the heaviest stretch.**  The levels reached from a reading
stay within the capacity exactly when the pours fit from it, and every stretch
of them fits. -/
theorem within_iff (r : Reading K) (steps : List (K × K)) :
    Within rate capacity r steps ↔ FitsFrom rate capacity r steps ∧ Fits rate capacity steps := by
  induction steps generalizing r with
  | nil => simp [Within, FitsFrom, Fits]
  | cons step steps ih =>
      have hlevel : (r.pour rate step).level =
          max (0 + step.2) (r.level + step.2 - rate * (step.1 - r.time)) := by
        have hsum : r.level + step.2 - rate * (step.1 - r.time) =
            r.level - rate * (step.1 - r.time) + step.2 := by ring
        rw [hsum, ← max_add]
        rfl
      have htime : (r.pour rate step).time = step.1 := rfl
      have hfirst : 0 + step.2 ≤ capacity + rate * (step.1 - step.1) ↔ 0 + step.2 ≤ capacity := by
        rw [sub_self, mul_zero, add_zero]
      have hstart : r.level + step.2 - rate * (step.1 - r.time) ≤ capacity ↔
          r.level + step.2 ≤ capacity + rate * (step.1 - r.time) := sub_le_iff_le_add
      rw [Within, ih, show r.pour rate step = ⟨step.1, (r.pour rate step).level⟩ from rfl, hlevel,
        fitsFrom_max, max_le_iff, hstart]
      rw [Fits, FitsFrom, FitsFrom, hfirst, fitsFrom_shift r.time (r.level + step.2) step.1]
      tauto

/-- From an empty vessel only the stretches count. -/
theorem within_empty_iff (hrate : 0 ≤ rate) {t : K} (hstart : ∀ step ∈ steps.head?, t ≤ step.1) :
    Within rate capacity ⟨t, 0⟩ steps ↔ Fits rate capacity steps := by
  rw [within_iff]
  apply and_iff_right_of_imp
  intro hfits
  cases steps with
  | nil => trivial
  | cons step steps =>
      have helapsed : 0 ≤ step.1 - t := sub_nonneg.mpr (hstart step rfl)
      have hempty : max 0 (0 - rate * (step.1 - t)) = 0 :=
        max_eq_left (by linarith [mul_nonneg hrate helapsed])
      have hboth := hfits.1
      rw [← hempty, fitsFrom_max] at hboth
      exact (fitsFrom_shift t 0 step.1 _).mpr hboth.2

/-! ## Stretches -/

/-- The total of a list of pours. -/
def poured (steps : List (K × K)) : K := (steps.map Prod.snd).sum

omit [IsStrictOrderedRing K] in
theorem fitsFrom_iff (r : Reading K) (steps : List (K × K)) :
    FitsFrom rate capacity r steps ↔ ∀ stretch after last, steps = stretch ++ after →
      stretch.getLast? = some last →
        r.level + poured stretch ≤ capacity + rate * (last.1 - r.time) := by
  induction steps generalizing r with
  | nil =>
      refine iff_of_true trivial ?_
      intro stretch after last hsplit hlast
      rw [(List.append_eq_nil_iff.mp hsplit.symm).1] at hlast
      cases hlast
  | cons step steps ih =>
      rw [FitsFrom, ih]
      constructor
      · intro h stretch after last hsplit hlast
        obtain ⟨hfirst, hrest⟩ := h
        rcases stretch with _ | ⟨step', stretch⟩
        · cases hlast
        · obtain ⟨rfl, htail⟩ := List.cons.inj hsplit
          rcases stretch with _ | ⟨step', stretch⟩
          · obtain rfl := Option.some.inj hlast
            simpa [poured] using hfirst
          · have hbound := hrest (step' :: stretch) after last htail (by simpa using hlast)
            rw [add_assoc] at hbound
            exact hbound
      · intro h
        constructor
        · simpa [poured] using h [step] steps step rfl rfl
        · intro stretch after last hsplit hlast
          have hbound := h (step :: stretch) after last (by rw [hsplit]; rfl)
            (by rw [List.getLast?_cons, hlast]; rfl)
          rw [poured, List.map_cons, List.sum_cons, ← add_assoc] at hbound
          exact hbound

omit [IsStrictOrderedRing K] in
/-- **What fits, stretch by stretch.** -/
theorem fits_iff (steps : List (K × K)) :
    Fits rate capacity steps ↔ ∀ before stretch after first last,
      steps = before ++ stretch ++ after → stretch.head? = some first →
        stretch.getLast? = some last →
          poured stretch ≤ capacity + rate * (last.1 - first.1) := by
  induction steps with
  | nil =>
      refine iff_of_true trivial ?_
      intro before stretch after first last hsplit hfirst _
      obtain ⟨hempty, _⟩ := List.append_eq_nil_iff.mp hsplit.symm
      rw [(List.append_eq_nil_iff.mp hempty).2] at hfirst
      cases hfirst
  | cons step steps ih =>
      rw [Fits, ih, fitsFrom_iff]
      constructor
      · intro h before stretch after first last hsplit hfirst hlast
        obtain ⟨hhere, hrest⟩ := h
        rcases before with _ | ⟨step', before⟩
        · have hbound := hhere stretch after last hsplit hlast
          have hsame : first = step := by
            rw [List.nil_append] at hsplit
            rcases stretch with _ | ⟨step', stretch⟩
            · cases hfirst
            · rw [List.cons_append] at hsplit
              rw [(List.cons.inj hsplit).1]
              exact (Option.some.inj hfirst).symm
          rw [zero_add] at hbound
          rw [hsame]
          exact hbound
        · exact hrest before stretch after first last (List.cons.inj hsplit).2 hfirst hlast
      · intro h
        constructor
        · intro stretch after last hsplit hlast
          rcases stretch with _ | ⟨step', stretch⟩
          · cases hlast
          · obtain ⟨rfl, _⟩ := List.cons.inj hsplit
            rw [zero_add]
            exact h [] (step :: stretch) after step last hsplit rfl hlast
        · intro before stretch after first last hsplit hfirst hlast
          exact h (step :: before) stretch after first last (by rw [hsplit]; rfl) hfirst hlast

/-! ## Fewer pours -/

/-- A lower level stays within the capacity for longer. -/
theorem Within.anti {l l' t : K} (h : Within rate capacity ⟨t, l'⟩ steps) (hle : l ≤ l') :
    Within rate capacity ⟨t, l⟩ steps := by
  rw [within_iff] at h ⊢
  refine ⟨?_, h.2⟩
  have hboth := h.1
  rw [← max_eq_right hle, fitsFrom_max] at hboth
  exact hboth.1

/-- A reading may be taken at any time before the first pour. -/
theorem within_drain_iff (r : Reading K) (hrate : 0 ≤ rate) {t : K}
    (hstart : ∀ step ∈ steps.head?, t ≤ step.1) :
    Within rate capacity ⟨t, drain rate r.level (t - r.time)⟩ steps ↔
      Within rate capacity r steps := by
  cases steps with
  | nil => exact Iff.rfl
  | cons step steps =>
      have helapsed : 0 ≤ step.1 - t := sub_nonneg.mpr (hstart step rfl)
      have hpour : Reading.pour rate ⟨t, drain rate r.level (t - r.time)⟩ step =
          r.pour rate step := by
        rw [Reading.pour, Reading.pour, drain_drain hrate helapsed, add_comm (t - r.time),
          sub_add_sub_cancel]
      rw [Within, Within, hpour]

/-- A level below empty counts as empty. -/
theorem within_clip_iff (hrate : 0 ≤ rate) {t l : K} (hstart : ∀ step ∈ steps.head?, t ≤ step.1) :
    Within rate capacity ⟨t, max 0 l⟩ steps ↔ Within rate capacity ⟨t, l⟩ steps := by
  have hdrain : drain rate l (t - t) = max 0 l := by rw [sub_self, drain_zero_elapsed]
  have hread : Within rate capacity ⟨t, drain rate l (t - t)⟩ steps ↔
      Within rate capacity ⟨t, l⟩ steps := within_drain_iff ⟨t, l⟩ hrate hstart
  rwa [hdrain] at hread

/-- **Fewer pours, lower levels.**  Amounts at or above zero may be left out, and
the levels stay within the capacity. -/
theorem Within.sublist {steps' : List (K × K)} (hrate : 0 ≤ rate)
    (h : Within rate capacity r steps) (hsub : List.Sublist steps' steps)
    (hamounts : ∀ step ∈ steps, 0 ≤ step.2)
    (hclock : steps.Pairwise (fun step step' => step.1 ≤ step'.1)) :
    Within rate capacity r steps' := by
  induction hsub generalizing r with
  | slnil => exact h
  | @cons steps' steps step hsub ih =>
      obtain ⟨hamount, hamounts⟩ := List.forall_mem_cons.mp hamounts
      obtain ⟨hlater, hrest⟩ := List.pairwise_cons.mp hclock
      have hstart : ∀ step' ∈ steps'.head?, step.1 ≤ step'.1 :=
        fun step' hmem => hlater step' (hsub.subset (List.mem_of_mem_head? hmem))
      apply (within_drain_iff r hrate hstart).mp
      exact (ih h.2 hamounts hrest).anti (le_add_of_nonneg_right hamount)
  | @cons_cons steps' steps step hsub ih =>
      obtain ⟨_, hamounts⟩ := List.forall_mem_cons.mp hamounts
      exact ⟨h.1, ih h.2 hamounts (List.pairwise_cons.mp hclock).2⟩

end FluidLevel
