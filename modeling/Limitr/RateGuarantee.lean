import Limitr.ReferenceHost
import Limitr.SettledBuckets

/-!
# The rate guarantee

For every policy a key is one metered vessel: a visit lets its level fall no
faster than the policy's rate, an allowed visit pours its cost in, and no level
rises above the burst (`visit_metered`).  This holds through denied requests,
which can only raise a level, through costs below zero, through executions that
`SETEX` aborts and through keys that Redis drops.

`rate_guarantee` is the metered inflow bound for the executions of the script.
-/

namespace Limitr

open FluidLevel MachineRuns

/-- The tokens let through by what the script answered. -/
def admittedTokens (cost : Int32) : Except LuaError ScriptOutcome → ℤ
  | .ok outcome => if outcome.reply.allowed = 1 then cost.toInt else 0
  | .error _ => 0

/-- The tokens an execution let through. -/
def admittedCost (x : Execution) : ℤ := admittedTokens x.input.cost x.output

/-- The tokens the executions of a list let through. -/
def admittedCosts (xs : List Execution) : ℤ := (xs.map admittedCost).sum

variable {p : Platform} {P : ValidPolicies} {kept : Kept} {request : Request} {t s : ℚ}
  {x : ValidPolicy × ℕ}

/-- What a visit leaves: at least what leaked and what it let through, and no
more than the burst. -/
theorem visit_leakedAt (h : SettledKept P t kept) (ht : t ≤ request.now)
    (hx : x ∈ P.policies.zipIdx) :
    leakedAt kept x request.now + admittedTokens request.cost (visit p P kept request).1 ≤
        leakedAt (visit p P kept request).2 x request.now ∧
      leakedAt (visit p P kept request).2 x request.now ≤ x.1.burst := by
  have hfound := found_leakedLevel (p := p) h request.time hx
  have hlevel := (h.expireKept (p := p) request.time).found_level_le hx request.now
  have hlast := (h.expireKept (p := p) request.time).found_lastTime_le ht
  have hburst : 0 ≤ x.1.burst := le_of_lt x.1.burst_rat_pos
  have hcases := visit_cases p P kept request
  generalize visit p P kept request = result at hcases ⊢
  obtain ⟨b, hb⟩ : ∃ b, b = foundBucket (expireKept p kept request.time) request.now := ⟨_, rfl⟩
  rw [← hb] at hcases hfound hlevel hlast
  cases hcases with
  | aborted hsetex =>
      have hbound : b.leakedLevel request.now x.1 x.2 ≤ x.1.burst :=
        drain_le (le_of_lt x.1.flow_pos) (sub_nonneg.mpr hlast) hburst hlevel
      rw [leakedAt_expireKept h hx le_rfl]
      constructor
      · simp [admittedTokens]
      · rw [← hfound]
        exact hbound
  | committed expire hexpire hroom =>
      have hnext : b.nextLevel request.now request.tokens x =
          leakedAt kept x request.now + request.tokens := by
        rw [← hfound]
        rfl
      have hwritten := leakedAt_written (b.commit request.now request.tokens P.policies)
        request.time expire x
      rw [commit_level hx] at hwritten
      change _ ≤ leakedAt _ x (b.commit request.now request.tokens P.policies).lastTime ∧
        leakedAt _ x (b.commit request.now request.tokens P.policies).lastTime ≤ _
      rw [hwritten]
      constructor
      · rw [hnext]
        exact le_max_right _ _
      · exact max_le hburst (hroom x hx)
  | held expire hexpire hfull =>
      have hwritten := leakedAt_written (b.hold request.now request.tokens) request.time expire x
      have hraised := leakedLevel_le_level hlast x.1 x.2
      change _ ≤ leakedAt _ x (b.hold request.now request.tokens).lastTime ∧
        leakedAt _ x (b.hold request.now request.tokens).lastTime ≤ _
      rw [hwritten]
      constructor
      · rw [← hfound, Bucket.hold_level]
        simpa [admittedTokens] using hraised
      · exact max_le hburst hlevel

/-- **A visit is a metered step** of the vessel of each policy. -/
theorem visit_metered (h : SettledKept P t kept) (hs : t ≤ s) (hnow : s ≤ request.now)
    (hx : x ∈ P.policies.zipIdx) :
    Metered x.1.flow x.1.burst ⟨s, leakedAt kept x s⟩
      (admittedTokens request.cost (visit p P kept request).1 : ℚ)
      ⟨request.now, leakedAt (visit p P kept request).2 x request.now⟩ := by
  obtain ⟨hpoured, hbounded⟩ := visit_leakedAt (p := p) h (le_trans hs hnow) hx
  have hnonneg := leakedAt_nonneg kept x request.now
  have hleak : leakedAt kept x s - x.1.flow * (request.now - s) ≤ leakedAt kept x request.now := by
    rw [leakedAt_drain kept x hnow]
    exact sub_le_drain
  exact ⟨hnow, by linarith, by linarith, hbounded⟩

/-- The reading a visit takes of the vessel of a policy. -/
def visitReading (p : Platform) (P : ValidPolicies) (x : ValidPolicy × ℕ)
    (v : Firing Kept Request (Except LuaError ScriptOutcome)) : ℚ × Reading ℚ :=
  (admittedCost (Firing.map (slotOf p) P.call v), ⟨v.input.now, leakedAt v.after x v.input.now⟩)

/-- **A run of visits is a metered run**, whatever it starts from. -/
theorem visits_metered {requests : List Request} (h : SettledKept P t kept) (hs : t ≤ s)
    (hstart : ∀ r ∈ requests, s ≤ r.now)
    (hclock : requests.Pairwise (fun r r' => r.now ≤ r'.now)) (hx : x ∈ P.policies.zipIdx) :
    MeteredRun x.1.flow x.1.burst ⟨s, leakedAt kept x s⟩
      ((trace (visit p P) kept requests).map (visitReading p P x)) := by
  induction requests generalizing kept t s with
  | nil => exact .nil _
  | cons request requests ih =>
      obtain ⟨hlater, hrest⟩ := List.pairwise_cons.mp hclock
      have hnow : s ≤ request.now := hstart request List.mem_cons_self
      have hsettled := visit_settled (p := p) h (le_trans hs hnow)
      exact .cons (visit_metered h hs hnow hx) (ih hsettled le_rfl hlater hrest)

/-- The readings add up to what the executions let through. -/
theorem admitted_visitReading (x : ValidPolicy × ℕ)
    (vs : List (Firing Kept Request (Except LuaError ScriptOutcome))) :
    admitted (vs.map (visitReading p P x)) =
      (admittedCosts (vs.map (Firing.map (slotOf p) P.call)) : ℤ) := by
  induction vs with
  | nil => simp [admitted, admittedCosts]
  | cons v vs ih =>
      simp only [admitted, admittedCosts, List.map_cons, List.sum_cons, Int.cast_add] at ih ⊢
      rw [ih]
      rfl

/-- A stretch of the executions of a run is a run of visits from a settled
bucket. -/
theorem stretch_eq {requests : List Request}
    (hclock : requests.Pairwise (fun r r' => r.now ≤ r'.now))
    {before stretch after : List Execution}
    (hrun : executions p none (requests.map P.call) = before ++ stretch ++ after) :
    ∃ kept t mid, SettledKept P t kept ∧ (∀ r ∈ mid, t ≤ r.now) ∧
      mid.Pairwise (fun r r' : Request => r.now ≤ r'.now) ∧
      stretch = (trace (visit p P) kept mid).map (Firing.map (slotOf p) P.call) := by
  rw [executions_none_eq, List.append_assoc, List.map_eq_append_iff] at hrun
  obtain ⟨vs₁, vs₂, hsplit, rfl, hrun⟩ := hrun
  obtain ⟨vs₃, vs₄, rfl, rfl, rfl⟩ := List.map_eq_append_iff.mp hrun
  obtain ⟨early, late, rfl, rfl, hlate⟩ := trace_split (visit p P) hsplit
  obtain ⟨mid, rest, rfl, rfl, -⟩ := trace_split (visit p P) hlate.symm
  obtain ⟨t, hsettled, hstart⟩ := final_settled (p := p) (P := P) hclock
  exact ⟨_, t, mid, hsettled, fun r hr => hstart r (List.mem_append_left rest hr),
    (List.pairwise_append.mp (List.pairwise_append.mp hclock).2.1).1, rfl⟩

/-- **The rate guarantee.**  In any stretch of a run on one key, the requests
the script allowed cost together at most the burst of any policy and what the
policy leaks from the first request of the stretch to the last. -/
theorem rate_guarantee (p : Platform) (P : ValidPolicies) {requests : List Request}
    (hclock : requests.Pairwise (fun r r' => r.now ≤ r'.now))
    {before stretch after : List Execution}
    (hrun : executions p none (requests.map P.call) = before ++ stretch ++ after)
    {first last : Execution} (hfirst : stretch.head? = some first)
    (hlast : stretch.getLast? = some last) {policy : ValidPolicy}
    (hpolicy : policy ∈ P.policies) :
    (admittedCosts stretch : ℚ) ≤
      policy.burst + policy.flow * (last.input.time.now - first.input.time.now) := by
  obtain ⟨i, hi, rfl⟩ := List.mem_iff_getElem.mp hpolicy
  have hx : (P.policies[i], i) ∈ P.policies.zipIdx :=
    List.mem_zipIdx_iff_getElem?.mpr (by simp [hi])
  obtain ⟨kept, t, mid, hsettled, hstart, hmid, rfl⟩ := stretch_eq hclock hrun
  have hmetered := visits_metered (p := p) hsettled le_rfl hstart hmid hx
  rw [List.getLast?_map] at hlast
  obtain ⟨v, hv, rfl⟩ := Option.map_eq_some_iff.mp hlast
  rw [List.head?_map] at hfirst
  obtain ⟨w, hw, rfl⟩ := Option.map_eq_some_iff.mp hfirst
  have hbound := hmetered.admitted_le
    (List.head?_map.trans (congrArg (Option.map (visitReading p P (P.policies[i], i))) hw))
    (List.getLast?_map.trans (congrArg (Option.map (visitReading p P (P.policies[i], i))) hv))
  rw [admitted_visitReading] at hbound
  exact hbound

/-- Two requests a second apart, on a burst of one. -/
theorem rate_guarantee_two_requests :
    (admittedCosts (executions referenceHost none
      ([⟨1, .ofSeconds 0⟩, ⟨1, .ofSeconds 1⟩].map ValidPolicies.oneToken.call)) : ℚ) ≤ 2 := by
  have hfirst : (RawTime.ofSeconds 0).now = 0 := by norm_num [RawTime.ofSeconds, RawTime.now]
  have hlast : (RawTime.ofSeconds 1).now = 1 := by norm_num [RawTime.ofSeconds, RawTime.now]
  have hclock : [(⟨1, .ofSeconds 0⟩ : Request), ⟨1, .ofSeconds 1⟩].Pairwise
      (fun r r' => r.now ≤ r'.now) := by
    simp [Request.now, hfirst, hlast]
  have hbound := rate_guarantee referenceHost .oneToken hclock
    ((List.append_nil _).symm : _ = [] ++ _ ++ []) rfl rfl List.mem_cons_self
  apply le_trans hbound
  apply le_of_eq
  change (1 : ℚ) + 1 * ((RawTime.ofSeconds 1).now - (RawTime.ofSeconds 0).now) = 2
  rw [hfirst, hlast]
  norm_num

end Limitr
