import Mathlib.Algebra.Order.Field.Basic
import Mathlib.Tactic.Linarith
import Mathlib.Tactic.Ring

/-!
# Leaking levels and metered inflow

A vessel leaks at a constant rate and never below empty: after a time `d`
the level `l` has become `drain rate l d = max 0 (l - rate * d)`.  The first
section collects how draining composes, over any linearly ordered field.

The second section bounds inflow.  A *metered* step takes a reading
`(time, level)` to a later one while admitting some amount.  Nothing is asked
of the step but three inequalities: the level falls no faster than the leak
allows once the admitted amount is added, it holds at least what was just
admitted, and it stays within the capacity.  Whatever else happens between
two readings, the amount admitted in any stretch of steps is then at most the
capacity plus what leaks while the stretch lasts (`MeteredRun.admitted_le`).
-/

namespace FluidLevel

variable {K : Type*} [Field K] [LinearOrder K]

/-- The level after leaking for a time `elapsed`. -/
def drain (rate level elapsed : K) : K := max 0 (level - rate * elapsed)

section Drain

variable {rate level level' elapsed elapsed' bound : K}

theorem drain_nonneg : 0 ≤ drain rate level elapsed := le_max_left _ _

@[simp] theorem drain_zero_elapsed : drain rate level 0 = max 0 level := by
  simp [drain]

theorem sub_le_drain : level - rate * elapsed ≤ drain rate level elapsed :=
  le_max_right _ _

variable [IsStrictOrderedRing K]

theorem drain_zero_level (hrate : 0 ≤ rate) (helapsed : 0 ≤ elapsed) :
    drain rate 0 elapsed = 0 := by
  have hleak : 0 ≤ rate * elapsed := mul_nonneg hrate helapsed
  exact max_eq_left (by linarith)

/-- A level that has had time to leak away is gone. -/
theorem drain_eq_zero (h : level ≤ rate * elapsed) : drain rate level elapsed = 0 :=
  max_eq_left (by linarith)

/-- A level that is not above empty stays empty. -/
theorem drain_of_nonpos (hrate : 0 ≤ rate) (helapsed : 0 ≤ elapsed) (hlevel : level ≤ 0) :
    drain rate level elapsed = 0 :=
  drain_eq_zero (le_trans hlevel (mul_nonneg hrate helapsed))

/-- Draining keeps a level within any nonnegative bound it was within. -/
theorem drain_le (hrate : 0 ≤ rate) (helapsed : 0 ≤ elapsed) (hbound : 0 ≤ bound)
    (hlevel : level ≤ bound) : drain rate level elapsed ≤ bound := by
  have hleak : 0 ≤ rate * elapsed := mul_nonneg hrate helapsed
  exact max_le hbound (by linarith)

/-- Draining a clipped level is draining the level. -/
theorem drain_clip (hrate : 0 ≤ rate) (helapsed : 0 ≤ elapsed) :
    drain rate (max 0 level) elapsed = drain rate level elapsed := by
  have hleak : 0 ≤ rate * elapsed := mul_nonneg hrate helapsed
  rcases le_total 0 level with h | h
  · rw [max_eq_right h]
  · rw [max_eq_left h, drain_zero_level hrate helapsed, drain_of_nonpos hrate helapsed h]

/-- Draining in two stretches is draining once. -/
theorem drain_drain (hrate : 0 ≤ rate) (helapsed' : 0 ≤ elapsed') :
    drain rate (drain rate level elapsed) elapsed' =
      drain rate level (elapsed + elapsed') := by
  have hsplit : level - rate * (elapsed + elapsed') =
      level - rate * elapsed - rate * elapsed' := by ring
  calc drain rate (drain rate level elapsed) elapsed'
      = drain rate (level - rate * elapsed) elapsed' := drain_clip hrate helapsed'
    _ = drain rate level (elapsed + elapsed') := by rw [drain, drain, hsplit]

/-- A positive level loses something in any positive time. -/
theorem drain_lt (hrate : 0 < rate) (helapsed : 0 < elapsed) (hlevel : 0 < level) :
    drain rate level elapsed < level := by
  have hleak : 0 < rate * elapsed := mul_pos hrate helapsed
  exact max_lt hlevel (by linarith)

/-- There is room for an amount above a draining level once what is too much has
leaked away, and only where the amount alone has room. -/
theorem drain_add_le_iff {amount : K} (hrate : 0 < rate) :
    drain rate level elapsed + amount ≤ bound ↔
      amount ≤ bound ∧ (level + amount - bound) / rate ≤ elapsed := by
  have hempty : 0 ≤ bound - amount ↔ amount ≤ bound := sub_nonneg
  have hleaked : level - rate * elapsed ≤ bound - amount ↔
      (level + amount - bound) / rate ≤ elapsed := by
    rw [div_le_iff₀ hrate]
    constructor <;> intro h <;> linarith
  rw [drain, ← le_sub_iff_add_le, max_le_iff, hempty, hleaked]

/-- A level, clipped at zero, is kept when no time passes or nothing is there to
leak, and only then. -/
theorem clip_eq_drain_iff (hrate : 0 < rate) (helapsed : 0 ≤ elapsed) :
    max 0 level = drain rate level elapsed ↔ elapsed = 0 ∨ level ≤ 0 := by
  constructor
  · intro h
    by_contra hno
    rw [not_or, not_le] at hno
    have hlt := drain_lt hrate (lt_of_le_of_ne helapsed (Ne.symm hno.1)) hno.2
    rw [← h, max_eq_right (le_of_lt hno.2)] at hlt
    exact lt_irrefl level hlt
  · intro h
    rcases h with hzero | hlevel
    · rw [hzero]
      exact drain_zero_elapsed.symm
    · rw [max_eq_left hlevel, drain_of_nonpos (le_of_lt hrate) helapsed hlevel]

end Drain

/-- A reading of the level at a time. -/
structure Reading (K : Type*) where
  time : K
  level : K

/-- One metered step from reading `r` to reading `r'`, admitting `a`. -/
structure Metered (rate capacity : K) (r : Reading K) (a : K) (r' : Reading K) : Prop where
  time_le : r.time ≤ r'.time
  kept : r.level - rate * (r'.time - r.time) + a ≤ r'.level
  poured : a ≤ r'.level
  bounded : r'.level ≤ capacity

/-- A run of metered steps, as the list of admitted amounts and readings. -/
inductive MeteredRun (rate capacity : K) : Reading K → List (K × Reading K) → Prop
  | nil (r : Reading K) : MeteredRun rate capacity r []
  | cons {r r' : Reading K} {a : K} {steps : List (K × Reading K)}
      (step : Metered rate capacity r a r')
      (tail : MeteredRun rate capacity r' steps) :
      MeteredRun rate capacity r ((a, r') :: steps)

/-- The reading a run ends with. -/
def lastReading (r : Reading K) : List (K × Reading K) → Reading K
  | [] => r
  | (_, r') :: steps => lastReading r' steps

omit [Field K] [LinearOrder K] in
/-- It is the last reading listed. -/
theorem lastReading_eq_of_getLast? {r : Reading K} {steps : List (K × Reading K)}
    {last : K × Reading K} (h : steps.getLast? = some last) : lastReading r steps = last.2 := by
  induction steps generalizing r with
  | nil => cases h
  | cons step steps ih =>
      cases steps with
      | nil =>
          cases h
          rfl
      | cons step' steps => exact ih (r := step.2) (by simpa using h)

/-- The total a run admits. -/
def admitted (steps : List (K × Reading K)) : K := (steps.map Prod.fst).sum

variable {rate capacity : K}

/-- A run from within the capacity ends within it. -/
theorem MeteredRun.lastReading_le {r : Reading K} {steps : List (K × Reading K)}
    (h : MeteredRun rate capacity r steps) (hr : r.level ≤ capacity) :
    (lastReading r steps).level ≤ capacity := by
  induction h with
  | nil r => exact hr
  | cons step tail ih => exact ih step.bounded

variable [IsStrictOrderedRing K]

/-- What a run admits is still in the vessel, or has leaked since it began. -/
theorem MeteredRun.level_add_admitted_le {r : Reading K} {steps : List (K × Reading K)}
    (h : MeteredRun rate capacity r steps) :
    r.level + admitted steps ≤
      (lastReading r steps).level + rate * ((lastReading r steps).time - r.time) := by
  induction h with
  | nil r => simp [admitted, lastReading]
  | @cons r r' a steps step tail ih =>
      have hkept := step.kept
      have hsplit : rate * ((lastReading r' steps).time - r.time) =
          rate * ((lastReading r' steps).time - r'.time) + rate * (r'.time - r.time) := by ring
      simp only [admitted, lastReading, List.map_cons, List.sum_cons] at ih ⊢
      rw [hsplit]
      linarith

/-- **Metered inflow.**  A run admits at most the capacity and what leaks from
its first step to its last. -/
theorem MeteredRun.admitted_le {r : Reading K} {steps : List (K × Reading K)}
    {first last : K × Reading K} (h : MeteredRun rate capacity r steps)
    (hfirst : steps.head? = some first) (hlast : steps.getLast? = some last) :
    admitted steps ≤ capacity + rate * (last.2.time - first.2.time) := by
  cases h with
  | nil r => cases hfirst
  | @cons r r' a steps step tail =>
      cases hfirst
      have hend : lastReading r' steps = last.2 :=
        lastReading_eq_of_getLast? (r := r) hlast
      have hpoured : a ≤ r'.level := step.poured
      have hrest := tail.level_add_admitted_le
      have hfull := tail.lastReading_le step.bounded
      rw [hend] at hrest hfull
      simp only [admitted, List.map_cons, List.sum_cons] at hrest ⊢
      linarith

end FluidLevel
