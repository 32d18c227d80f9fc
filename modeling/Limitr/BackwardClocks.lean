import Limitr.DeniedRetries
import Limitr.RateGuarantee
import Limitr.StoredLevels

/-!
# Clocks that go back

The script leaks what flowed out since the time stored under the key.  At a
reading before that time the elapsed time is negative, and the expression, which
is clamped from below only, fills every level up by what would have leaked.

An execution at a reading before the stored time therefore always finds levels
above the stored ones, and without one no request is charged for the clock:
`clock_charges_nothing_iff`.
-/

namespace Limitr

open FluidLevel MachineRuns

/-- The clock takes no tokens at an execution: the levels it decides on are at
most those it reads, the levels it stores at most what was let through so far,
and a denial at an earlier reading is a denial at the stored one. -/
structure ChargesNothing (p : Platform) (P : ValidPolicies) (past : List Execution)
    (e : Execution) : Prop where
  level_le : ∀ b : Bucket, readState p (p.expire e.before e.input.time) e.input.time = b.state →
    ∃ found, levelsFound p P.pairs e.before e.input.time = .ok found ∧
      ∀ i policy, P.policies[i]? = some policy → found.getD i 0 ≤ .fin (b.level i)
  stored_le : ∀ outcome, e.output = .ok outcome → ∃ b : Bucket, outcome.write.state = b.state ∧
    ∀ level ∈ b.tokenLevels, level ≤ (admittedCosts (past ++ [e]) : ℚ)
  denied_at_stored : ∀ b : Bucket,
    readState p (p.expire e.before e.input.time) e.input.time = b.state →
    e.input.time.now < b.lastTime → Denied e.output →
      ∀ time : RawTime, time.now = b.lastTime →
        Denied (execute p e.before { e.input with time := time }).1

/-- The execution's reading is not before the time it reads from its key. -/
def KeepsClock (p : Platform) (e : Execution) : Prop :=
  ∀ b : Bucket, readState p (p.expire e.before e.input.time) e.input.time = b.state →
    b.lastTime ≤ e.input.time.now

variable {p : Platform} {P : ValidPolicies} {kept : Kept} {request : Request}

/-! ## Told in buckets -/

/-- The only bucket a visit reads is the one it finds. -/
theorem readState_visit_iff (b : Bucket) :
    readState p (p.expire (slotOf p kept) request.time) request.time = b.state ↔
      b = foundBucket (expireKept p kept request.time) request.now := by
  rw [expire_slotOf, readState_slotOf]
  constructor
  · intro h
    exact (Bucket.state_injective h).symm
  · intro h
    rw [h]

theorem keepsClock_visit_iff :
    KeepsClock p (Firing.map (slotOf p) P.call (fire (visit p P) kept request)) ↔
      (foundBucket (expireKept p kept request.time) request.now).lastTime ≤ request.now := by
  constructor
  · intro h
    exact h _ ((readState_visit_iff _).mpr rfl)
  · intro h b hb
    rw [(readState_visit_iff b).mp hb]
    exact h

/-- Draining for a negative time fills the vessel. -/
theorem lt_drain_of_neg {rate level elapsed : ℚ} (hrate : 0 < rate) (helapsed : elapsed < 0) :
    level < drain rate level elapsed := by
  have hfill : rate * elapsed < 0 := mul_neg_of_pos_of_neg hrate helapsed
  calc level
      < level - rate * elapsed := by linarith
    _ ≤ drain rate level elapsed := sub_le_drain

/-- **A step back charges.**  Where the levels decided on are at most those read,
the reading is not before the stored time. -/
theorem keepsClock_of_chargesNothing {past : List Execution}
    (h : ChargesNothing p P past (Firing.map (slotOf p) P.call (fire (visit p P) kept request))) :
    KeepsClock p (Firing.map (slotOf p) P.call (fire (visit p P) kept request)) := by
  rw [keepsClock_visit_iff]
  obtain ⟨policy, hpolicy⟩ := P.exists_first
  obtain ⟨found, hfound, hle⟩ := h.level_le _ ((readState_visit_iff _).mpr rfl)
  obtain rfl := Except.ok.inj ((levelsFound_slotOf kept request.time).symm.trans hfound)
  have hlevel := hle 0 policy hpolicy
  rw [getD_zipIdx_map hpolicy, F64.fin_le_fin] at hlevel
  by_contra hback
  exact absurd (lt_drain_of_neg policy.flow_pos (sub_neg.mpr (not_le.mp hback)))
    (not_lt.mpr hlevel)

/-! ## Levels and admitted tokens -/

/-- A visit, as a run of them records it. -/
abbrev Visit := Firing Kept Request (Except LuaError ScriptOutcome)

/-- The tokens the visits of a list let through. -/
def admittedBy (p : Platform) (P : ValidPolicies) (past : List Visit) : ℤ :=
  admittedCosts (past.map (Firing.map (slotOf p) P.call))

/-- The levels under a key are between zero and what was let through so far. -/
structure LevelsAdmitted (p : Platform) (P : ValidPolicies) (past : List Visit) (kept : Kept) :
    Prop where
  admitted_nonneg : 0 ≤ admittedBy p P past
  level_nonneg : NonnegKept kept
  level_le : ∀ k, kept = some k → ∀ level ∈ k.bucket.tokenLevels,
    level ≤ (admittedBy p P past : ℚ)

theorem levelsAdmitted_none : LevelsAdmitted p P [] none :=
  ⟨le_rfl, fun _ h => (nomatch h), fun _ h => (nomatch h)⟩

theorem admittedBy_concat (past : List Visit) (v : Visit) :
    admittedBy p P (past ++ [v]) = admittedBy p P past + admittedTokens v.input.cost v.output := by
  simp [admittedBy, admittedCosts, admittedCost, Firing.map, ValidPolicies.call]

/-- The tokens let through at a cost of at least zero are not below zero. -/
theorem admittedTokens_nonneg {cost : Int32} (hcost : 0 ≤ cost.toInt)
    (output : Except LuaError ScriptOutcome) : 0 ≤ admittedTokens cost output := by
  unfold admittedTokens
  cases output with
  | error e => exact le_rfl
  | ok outcome =>
      dsimp only
      split_ifs
      · exact hcost
      · exact le_rfl

variable {past : List Visit}

/-- The levels a visit finds are at most what was let through. -/
theorem LevelsAdmitted.found_le (h : LevelsAdmitted p P past kept) (time : RawTime) :
    ∀ level ∈ (foundBucket (expireKept p kept time) time.now).tokenLevels,
      level ≤ (admittedBy p P past : ℚ) := by
  cases hleft : expireKept p kept time with
  | none =>
      intro level hlevel
      cases hlevel
  | some k => exact h.level_le k (eq_some_of_expireKept hleft)

theorem LevelsAdmitted.found_nonneg (h : LevelsAdmitted p P past kept) (time : RawTime) (i : ℕ) :
    0 ≤ (foundBucket (expireKept p kept time) time.now).level i :=
  Bucket.level_nonneg ((h.level_nonneg.expireKept time).found_nonneg time.now) i

/-- A level decided on is at most the one read when the clock has not gone back. -/
theorem LevelsAdmitted.leakedLevel_le (h : LevelsAdmitted p P past kept)
    (hclock : (foundBucket (expireKept p kept request.time) request.now).lastTime ≤ request.now)
    (policy : ValidPolicy) (i : ℕ) :
    (foundBucket (expireKept p kept request.time) request.now).leakedLevel request.now policy i ≤
      (foundBucket (expireKept p kept request.time) request.now).level i := by
  have hleaked := leakedLevel_le_level hclock policy i
  rwa [max_eq_right (h.found_nonneg request.time i)] at hleaked

/-- A visit whose clock has not gone back adds to the levels what it lets through. -/
theorem visit_levelsAdmitted (h : LevelsAdmitted p P past kept) (hcost : 0 ≤ request.cost.toInt)
    (hclock : (foundBucket (expireKept p kept request.time) request.now).lastTime ≤ request.now) :
    LevelsAdmitted p P (past ++ [fire (visit p P) kept request]) (visit p P kept request).2 := by
  have hfound := h.found_le (p := p) request.time
  have hleaked := h.leakedLevel_le hclock
  have hsum := admittedBy_concat (p := p) (P := P) past (fire (visit p P) kept request)
  rw [fire_input, fire_output] at hsum
  refine ⟨?_, visit_nonneg h.level_nonneg hcost, ?_⟩
  · rw [hsum]
    exact add_nonneg h.admitted_nonneg (admittedTokens_nonneg hcost _)
  · rw [hsum]
    clear hsum
    have hcases := visit_cases p P kept request
    generalize visit p P kept request = result at hcases ⊢
    cases hcases with
    | aborted hsetex =>
        intro k hk level hlevel
        have hle := h.level_le k (eq_some_of_expireKept hk) level hlevel
        simpa [admittedTokens] using hle
    | committed expire hexpire hroom =>
        intro k hk level hlevel
        cases hk
        obtain ⟨x, hx, rfl⟩ := List.mem_map.mp hlevel
        have hlevel_le : (foundBucket (expireKept p kept request.time) request.now).level x.2 ≤
            (admittedBy p P past : ℚ) := by
          rcases (foundBucket (expireKept p kept request.time) request.now).level_eq_or_mem x.2 with
            hzero | hmem
          · rw [hzero]
            exact Int.cast_nonneg h.admitted_nonneg
          · exact hfound _ hmem
        have hsum : ((admittedBy p P past + request.cost.toInt : ℤ) : ℚ) =
            (admittedBy p P past : ℚ) + request.tokens := Int.cast_add _ _
        change _ ≤ ((admittedBy p P past + request.cost.toInt : ℤ) : ℚ)
        rw [hsum]
        exact add_le_add_left (le_trans (hleaked x.1 x.2) hlevel_le) _
    | held expire hexpire hfull =>
        intro k hk level hlevel
        cases hk
        simpa [admittedTokens] using hfound level hlevel

/-- **Without a step back nothing is charged.** -/
theorem chargesNothing_of_keepsClock (h : LevelsAdmitted p P past kept)
    (hcost : 0 ≤ request.cost.toInt)
    (hclock : (foundBucket (expireKept p kept request.time) request.now).lastTime ≤ request.now) :
    ChargesNothing p P (past.map (Firing.map (slotOf p) P.call))
      (Firing.map (slotOf p) P.call (fire (visit p P) kept request)) := by
  refine ⟨?_, ?_, ?_⟩
  · intro b hb
    refine ⟨_, levelsFound_slotOf kept request.time, ?_⟩
    intro i policy hpolicy
    rw [(readState_visit_iff b).mp hb, getD_zipIdx_map hpolicy, F64.fin_le_fin]
    exact h.leakedLevel_le hclock policy i
  · intro outcome houtcome
    obtain ⟨k, hk, _, hwrite⟩ := visit_write houtcome
    refine ⟨k.bucket, congrArg ScriptWrite.state hwrite, ?_⟩
    have hadmitted := (visit_levelsAdmitted h hcost hclock).level_le k hk
    rwa [admittedBy, List.map_append, List.map_singleton] at hadmitted
  · intro b hb hback
    rw [(readState_visit_iff b).mp hb] at hback
    exact absurd hclock (not_le.mpr hback)

/-- A split of the executions of a run is one of its visits. -/
theorem executions_split {requests : List Request} {before after : List Execution}
    {e : Execution} (hrun : executions p none (requests.map P.call) = before ++ e :: after) :
    ∃ past v later, trace (visit p P) none requests = past ++ v :: later ∧
      before = past.map (Firing.map (slotOf p) P.call) ∧ e = Firing.map (slotOf p) P.call v := by
  rw [executions_none_eq, List.map_eq_append_iff] at hrun
  obtain ⟨past, rest, hsplit, rfl, hrest⟩ := hrun
  obtain ⟨v, later, rfl, rfl, _⟩ := List.map_eq_cons_iff.mp hrest
  exact ⟨past, v, later, hsplit, rfl, rfl⟩

end Limitr
