import Limitr.AllowedReplies
import Limitr.RateGuarantee

/-!
# Rates across reloads

The policies of a key may be replaced at any moment, and the key may hold
anything when a run begins.  What is let through is bounded all the same: a
policy at one position of the list goes on with the level its predecessor left
there, so that a position whose policies never leak faster than a rate, and
never hold more than a capacity, is one metered vessel.

The reading of that vessel is not the stored level.  It is what a key still
`Charges` against the position: nothing, for content no request was allowed on,
and otherwise a level that the stored one covers and that leaks away before the
key is dropped.  A denied request keeps what is charged only if it costs no less
than zero, since its own next level is what the key is kept alive for.
-/

namespace Limitr

open FluidLevel MachineRuns

/-- The call is checked against valid policies, of which the one at the position
leaks no faster than the rate and holds no more than the capacity. -/
def WithinRates (i : ℕ) (rate capacity : ℚ) (call : Call) : Prop :=
  ∃ P : ValidPolicies, call.policies = P.pairs ∧ ∃ policy, P.policies[i]? = some policy ∧
    policy.flow ≤ rate ∧ policy.burst ≤ capacity

/-- What a key charges against a position at a time. -/
inductive Charges (p : Platform) (i : ℕ) (rate t : ℚ) (slot : Slot) : ℚ → Prop
  | nothing : Charges p i rate t slot 0
  | kept (level : ℚ) (k : KeptBucket) (hslot : slot = slotOf p (some k))
      (hwritten : k.bucket.lastTime = k.writtenAt.now) (hlast : k.bucket.lastTime ≤ t)
      (hlevel : level + rate * (t - k.bucket.lastTime) ≤ k.bucket.level i)
      (hlives : level + rate * (t - k.bucket.lastTime) ≤ rate * k.expireSeconds) :
      Charges p i rate t slot level

variable {p : Platform} {i : ℕ} {rate capacity t s level : ℚ} {slot : Slot} {call : Call}

/-- Nothing is let through without a reply that allows it. -/
theorem admittedTokens_of_not_allowed {cost : Int32} {output : Except LuaError ScriptOutcome}
    (h : ¬Allowed output) : admittedTokens cost output = 0 := by
  cases output with
  | error e => rfl
  | ok outcome =>
      have hallowed : outcome.reply.allowed ≠ 1 := by
        intro hone
        apply h
        rw [Allowed, Except.map, hone]
      rw [admittedTokens, if_neg hallowed]

theorem admittedTokens_of_allowed {cost : Int32} {output : Except LuaError ScriptOutcome}
    (h : Allowed output) : admittedTokens cost output = cost.toInt := by
  cases output with
  | error e => cases h
  | ok outcome =>
      have hallowed : outcome.reply.allowed = 1 := Except.ok.inj h
      rw [admittedTokens, if_pos hallowed]

/-- What is charged leaks at the rate. -/
theorem Charges.later (h : Charges p i rate t slot level) (hrate : 0 ≤ rate) (hs : t ≤ s) :
    Charges p i rate s slot (drain rate level (s - t)) := by
  have helapsed : 0 ≤ s - t := sub_nonneg.mpr hs
  cases h with
  | nothing =>
      rw [drain_zero_level hrate helapsed]
      exact .nothing
  | kept level k hslot hwritten hlast hlevel hlives =>
      rcases le_total level (rate * (s - t)) with hgone | hleft
      · rw [drain_eq_zero hgone]
        exact .nothing
      · have hdrain : drain rate level (s - t) = level - rate * (s - t) :=
          max_eq_right (by linarith)
        have hsplit : level - rate * (s - t) + rate * (s - k.bucket.lastTime) =
            level + rate * (t - k.bucket.lastTime) := by ring
        rw [hdrain]
        exact .kept _ k hslot hwritten (le_trans hlast hs) (by rw [hsplit]; exact hlevel)
          (by rw [hsplit]; exact hlives)

/-- A key that charges something has not been dropped. -/
theorem Charges.expireKept_eq {now : RawTime} {k : KeptBucket} (hlevel : 0 < level)
    (hwritten : k.bucket.lastTime = k.writtenAt.now) (hrate : 0 ≤ rate)
    (hlives : level + rate * (now.now - k.bucket.lastTime) ≤ rate * k.expireSeconds) :
    expireKept p (some k) now = some k := by
  cases hdropped : p.dropped k.writtenAt k.expireSeconds now with
  | false => simp [expireKept, Option.filter, hdropped]
  | true =>
      exfalso
      have hpassed := p.dropped_after _ _ _ hdropped
      rw [← hwritten] at hpassed
      have helapsed : (k.expireSeconds : ℚ) ≤ now.now - k.bucket.lastTime := by linarith
      have hleak := mul_le_mul_of_nonneg_left helapsed hrate
      linarith

section Step

variable {P : ValidPolicies} (request : Request) {policy : ValidPolicy}

/-- A request on a key that charges nothing any more. -/
theorem execute_charges_of_nothing (hpolicy : P.policies[i]? = some policy)
    (hflow : policy.flow ≤ rate) (hburst : policy.burst ≤ capacity)
    (hcost : 0 ≤ request.cost.toInt) (ht : t ≤ request.now)
    (hgone : level - rate * (request.now - t) ≤ 0) :
    ∃ level', Charges p i rate request.now (execute p slot (P.call request)).2 level' ∧
      Metered rate capacity ⟨t, level⟩
        (admittedTokens request.cost (execute p slot (P.call request)).1 : ℚ)
        ⟨request.now, level'⟩ := by
  have hx : (policy, i) ∈ P.policies.zipIdx := List.mem_zipIdx_iff_getElem?.mpr hpolicy
  by_cases hallowed : Allowed (execute p slot (P.call request)).1
  · obtain ⟨k, hslot, hjust⟩ := allowed_reply_settles p P slot request hallowed
    have hpoured : request.tokens ≤ k.bucket.level i := hjust.poured (policy, i) hx
    have htokens := Request.tokens_nonneg hcost
    have hlevel : k.bucket.level i ≤ policy.burst := hjust.settled.level_le (policy, i) hx
    have hlives : policy.burst ≤ policy.flow * k.expireSeconds := hjust.settled.outlives (policy, i) hx
    have hrate : policy.flow * k.expireSeconds ≤ rate * k.expireSeconds :=
      mul_le_mul_of_nonneg_right hflow (Nat.cast_nonneg _)
    have hnow : k.bucket.lastTime = request.now := by
      rw [hjust.settled.lastTime_eq, hjust.writtenAt_eq]
    have hadmitted : (admittedTokens request.cost (execute p slot (P.call request)).1 : ℚ) =
        request.tokens := by
      rw [admittedTokens_of_allowed hallowed]
      rfl
    have hzero : rate * (request.now - k.bucket.lastTime) = 0 := by
      rw [hnow, sub_self, mul_zero]
    refine ⟨k.bucket.level i, .kept _ k hslot hjust.settled.lastTime_eq (le_of_eq hnow) ?_ ?_,
      ht, ?_, ?_, le_trans hlevel hburst⟩
    · rw [hzero, add_zero]
    · rw [hzero, add_zero]
      linarith
    · dsimp only
      rw [hadmitted]
      linarith
    · rw [hadmitted]
      exact hpoured
  · have hcapacity : 0 ≤ capacity := le_trans (le_of_lt policy.burst_rat_pos) hburst
    refine ⟨0, .nothing, ?_⟩
    rw [admittedTokens_of_not_allowed hallowed, Int.cast_zero]
    exact ⟨ht, by linarith, le_rfl, hcapacity⟩

/-- A request on a key that still charges something. -/
theorem execute_charges_of_kept (hpolicy : P.policies[i]? = some policy)
    (hflow : policy.flow ≤ rate) (hburst : policy.burst ≤ capacity)
    (hcost : 0 ≤ request.cost.toInt) (ht : t ≤ request.now) (hcapacity : level ≤ capacity)
    (h : Charges p i rate t slot level) (hleft : 0 < level - rate * (request.now - t)) :
    ∃ level', Charges p i rate request.now (execute p slot (P.call request)).2 level' ∧
      Metered rate capacity ⟨t, level⟩
        (admittedTokens request.cost (execute p slot (P.call request)).1 : ℚ)
        ⟨request.now, level'⟩ := by
  have hrate : 0 ≤ rate := le_trans (le_of_lt policy.flow_pos) hflow
  have hleak : 0 ≤ rate * (request.now - t) := mul_nonneg hrate (sub_nonneg.mpr ht)
  have hx : (policy, i) ∈ P.policies.zipIdx := List.mem_zipIdx_iff_getElem?.mpr hpolicy
  have hdrain : drain rate level (request.now - t) = level - rate * (request.now - t) :=
    max_eq_right (le_of_lt hleft)
  have hnow := h.later hrate ht
  rw [hdrain] at hnow
  generalize hcharged : level - rate * (request.now - t) = charged at *
  cases hnow with
  | nothing => exact absurd hleft (lt_irrefl 0)
  | kept _ k hslot hwritten hlast hlevel hlives =>
      have hfound := hlast
      have hstays : expireKept p (some k) request.time = some k :=
        Charges.expireKept_eq hleft hwritten hrate hlives
      rw [hslot, execute_slotOf]
      have hcases := visit_cases p P (some k) request
      rw [hstays] at hcases
      have hbucket : foundBucket (some k) request.now = k.bucket := rfl
      rw [hbucket] at hcases
      generalize visit p P (some k) request = result at hcases ⊢
      have hleaked : charged ≤ k.bucket.leakedLevel request.now policy i := by
        have hslower := mul_le_mul_of_nonneg_right hflow (sub_nonneg.mpr hlast)
        have hdrained : k.bucket.level i - policy.flow * (request.now - k.bucket.lastTime) ≤
            k.bucket.leakedLevel request.now policy i := sub_le_drain
        linarith
      have htokens := Request.tokens_nonneg hcost
      have hnext : k.bucket.nextLevel request.now request.tokens (policy, i) =
          k.bucket.leakedLevel request.now policy i + request.tokens := rfl
      have hlong : ∀ expire : ℕ,
          (expire : ℤ) = k.bucket.expireTime request.now request.tokens P.policies →
          k.bucket.nextLevel request.now request.tokens (policy, i) ≤ rate * expire := by
        intro expire hexpire
        have hcast : (expire : ℚ) = ((expire : ℤ) : ℚ) := (Int.cast_natCast expire).symm
        have hcover : max policy.burst
            (k.bucket.nextLevel request.now request.tokens (policy, i)) ≤
            policy.flow * k.bucket.expireTime request.now request.tokens P.policies :=
          le_flow_mul_expireTime hx
        rw [← hexpire, ← hcast] at hcover
        have hslower : policy.flow * expire ≤ rate * expire :=
          mul_le_mul_of_nonneg_right hflow (Nat.cast_nonneg _)
        exact le_trans (le_trans (le_max_right _ _) hcover) hslower
      cases hcases with
      | aborted hsetex =>
          refine ⟨charged, ?_, ht, ?_, ?_, ?_⟩
          · dsimp only
            rw [hstays]
            exact .kept _ k rfl hwritten hlast hlevel hlives
          · simp [admittedTokens, hcharged]
          · simpa [admittedTokens] using le_of_lt hleft
          · dsimp only
            linarith
      | committed expire hexpire hroom =>
          have hlevel' : (k.bucket.commit request.now request.tokens P.policies).level i =
              k.bucket.nextLevel request.now request.tokens (policy, i) := commit_level hx
          have hbound := hroom (policy, i) hx
          refine ⟨k.bucket.nextLevel request.now request.tokens (policy, i),
            .kept _ ⟨_, request.time, expire⟩ rfl rfl le_rfl ?_ ?_, ht, ?_, ?_,
            le_trans hbound hburst⟩
          · rw [hlevel']
            simp [Bucket.commit]
          · simpa [Bucket.commit] using hlong expire hexpire
          · simp only [admittedTokens, if_pos]
            linarith [show (request.cost.toInt : ℚ) = request.tokens from rfl]
          · simp only [admittedTokens, if_pos]
            linarith [show (request.cost.toInt : ℚ) = request.tokens from rfl]
      | held expire hexpire hfull =>
          have hkept : rate * (request.now - k.bucket.lastTime) ≥ 0 :=
            mul_nonneg hrate (sub_nonneg.mpr hlast)
          have hlong' := hlong expire hexpire
          refine ⟨charged, .kept _ ⟨_, request.time, expire⟩ rfl rfl le_rfl ?_ ?_, ht, ?_, ?_, ?_⟩
          · rw [Bucket.hold_level]
            simp only [Bucket.hold, sub_self, mul_zero, add_zero]
            linarith
          · simp only [Bucket.hold, sub_self, mul_zero, add_zero]
            linarith
          · simp [admittedTokens, hcharged]
          · simpa [admittedTokens] using le_of_lt hleft
          · dsimp only
            linarith

end Step

/-- **A call is a metered step** of the vessel at a position, whatever its key
holds. -/
theorem execute_charges (hrates : WithinRates i rate capacity call)
    (hcost : 0 ≤ call.cost.toInt) (ht : t ≤ call.time.now) (hcapacity : level ≤ capacity)
    (h : Charges p i rate t slot level) :
    ∃ level', Charges p i rate call.time.now (execute p slot call).2 level' ∧
      Metered rate capacity ⟨t, level⟩ (admittedTokens call.cost (execute p slot call).1 : ℚ)
        ⟨call.time.now, level'⟩ := by
  obtain ⟨P, hP, policy, hpolicy, hflow, hburst⟩ := hrates
  obtain ⟨policies, cost, time⟩ := call
  obtain rfl : policies = P.pairs := hP
  rcases le_or_gt (level - rate * (time.now - t)) 0 with hgone | hleft
  · exact execute_charges_of_nothing ⟨cost, time⟩ hpolicy hflow hburst hcost ht hgone
  · exact execute_charges_of_kept ⟨cost, time⟩ hpolicy hflow hburst hcost ht
      hcapacity h hleft

/-- **A run of calls is a metered run**, under whatever policies. -/
theorem executions_metered {calls : List Call}
    (hrates : ∀ call ∈ calls, WithinRates i rate capacity call)
    (hcosts : ∀ call ∈ calls, 0 ≤ call.cost.toInt) (hcapacity : level ≤ capacity)
    (h : Charges p i rate t slot level) (hstart : ∀ call ∈ calls, t ≤ call.time.now)
    (hclock : calls.Pairwise (fun c c' => c.time.now ≤ c'.time.now)) :
    ∃ steps, MeteredRun rate capacity ⟨t, level⟩ steps ∧
      steps.map (fun step => (step.1, step.2.time)) =
        (executions p slot calls).map fun x => ((admittedCost x : ℚ), x.input.time.now) := by
  induction calls generalizing t slot level with
  | nil => exact ⟨[], .nil _, rfl⟩
  | cons call calls ih =>
      obtain ⟨hlater, hrest⟩ := List.pairwise_cons.mp hclock
      obtain ⟨hrate, hrates⟩ := List.forall_mem_cons.mp hrates
      obtain ⟨hcost, hcosts⟩ := List.forall_mem_cons.mp hcosts
      obtain ⟨level', hcharges, hstep⟩ :=
        execute_charges hrate hcost (hstart call List.mem_cons_self) hcapacity h
      obtain ⟨steps, hrun, hsteps⟩ :=
        ih hrates hcosts hstep.bounded hcharges hlater hrest
      refine ⟨_, .cons hstep hrun, ?_⟩
      rw [List.map_cons, hsteps]
      rfl

/-- **The rate guarantee across reloads.**  On a key with any content, under
policies that change from call to call, the requests the script allowed in any
stretch of a run cost together at most the capacity and what leaks at the rate
while the stretch lasts, for any rate and capacity that the policies at one
position keep within.  No request costs less than zero, and the clock never
goes back. -/
theorem rate_guarantee_across_reloads (p : Platform) (slot : Slot) {calls : List Call} {i : ℕ}
    {rate capacity : ℚ} (hrates : ∀ call ∈ calls, WithinRates i rate capacity call)
    (hcosts : ∀ call ∈ calls, 0 ≤ call.cost.toInt)
    (hclock : calls.Pairwise (fun c c' => c.time.now ≤ c'.time.now))
    {before stretch after : List Execution}
    (hrun : executions p slot calls = before ++ stretch ++ after)
    {first last : Execution} (hfirst : stretch.head? = some first)
    (hlast : stretch.getLast? = some last) :
    (admittedCosts stretch : ℚ) ≤
      capacity + rate * (last.input.time.now - first.input.time.now) := by
  rw [List.append_assoc] at hrun
  obtain ⟨early, late, rfl, rfl, hlate⟩ := trace_split (execute p) hrun
  obtain ⟨mid, rest, rfl, rfl, -⟩ := trace_split (execute p) hlate.symm
  cases mid with
  | nil => cases hfirst
  | cons call mid =>
      obtain rfl := Option.some.inj hfirst
      have hmid : ∀ {c}, c ∈ call :: mid → c ∈ early ++ (call :: mid ++ rest) := fun hc =>
        List.mem_append_right early (List.mem_append_left rest hc)
      obtain ⟨_, _, policy, _, hflow, hburst⟩ := hrates call (hmid List.mem_cons_self)
      have hordered := (List.pairwise_append.mp (List.pairwise_append.mp hclock).2.1).1
      have hstart : ∀ c ∈ call :: mid, call.time.now ≤ c.time.now := by
        intro c hc
        rcases List.mem_cons.mp hc with rfl | hc
        · exact le_rfl
        · exact (List.pairwise_cons.mp hordered).1 c hc
      have hcapacity : 0 ≤ capacity := le_trans (le_of_lt policy.burst_rat_pos) hburst
      have hnothing : Charges p i rate call.time.now (finalSlot p slot early) 0 := .nothing
      obtain ⟨steps, hmetered, hsteps⟩ := executions_metered (fun c hc => hrates c (hmid hc))
        (fun c hc => hcosts c (hmid hc)) hcapacity hnothing hstart hordered
      have hhead := congrArg List.head? hsteps
      have hend := congrArg List.getLast? hsteps
      have hsum := congrArg (fun pairs => (pairs.map Prod.fst).sum) hsteps
      rw [List.head?_map, List.head?_map, hfirst, Option.map_some] at hhead
      rw [List.getLast?_map, List.getLast?_map, hlast, Option.map_some] at hend
      obtain ⟨firstStep, hfirstStep, hfirstTime⟩ := Option.map_eq_some_iff.mp hhead
      obtain ⟨lastStep, hlastStep, hlastTime⟩ := Option.map_eq_some_iff.mp hend
      have hbound := hmetered.admitted_le hfirstStep hlastStep
      rw [(Prod.mk.inj hfirstTime).2, (Prod.mk.inj hlastTime).2] at hbound
      have hadmitted : admitted steps =
          (admittedCosts (executions p (finalSlot p slot early) (call :: mid)) : ℤ) := by
        have hcast := map_list_sum (Int.castAddHom ℚ)
          ((executions p (finalSlot p slot early) (call :: mid)).map admittedCost)
        rw [List.map_map] at hcast
        simp only [List.map_map] at hsum
        exact hsum.trans hcast.symm
      rw [hadmitted] at hbound
      exact hbound

/-- A burst of one raised to five between two requests, a second apart, on a key
that holds a value of another type. -/
theorem rate_guarantee_across_reloads_on_raised_burst :
    (admittedCosts (executions referenceHost otherValue
      [ValidPolicies.oneToken.call ⟨1, .ofSeconds 0⟩,
        ValidPolicies.fiveTokens.call ⟨5, .ofSeconds 1⟩]) : ℚ) ≤
      5 + 1 * ((RawTime.ofSeconds 1).now - (RawTime.ofSeconds 0).now) := by
  have hone : WithinRates 0 1 5 (ValidPolicies.oneToken.call ⟨1, .ofSeconds 0⟩) :=
    ⟨.oneToken, rfl, _, rfl, le_rfl, by decide +kernel⟩
  have hfive : WithinRates 0 1 5 (ValidPolicies.fiveTokens.call ⟨5, .ofSeconds 1⟩) :=
    ⟨.fiveTokens, rfl, _, rfl, le_rfl, by decide +kernel⟩
  have hclock : [ValidPolicies.oneToken.call ⟨1, .ofSeconds 0⟩,
      ValidPolicies.fiveTokens.call ⟨5, .ofSeconds 1⟩].Pairwise
        (fun c c' => c.time.now ≤ c'.time.now) := by
    simp [ValidPolicies.call, RawTime.ofSeconds, RawTime.now]
  have hbound := rate_guarantee_across_reloads referenceHost otherValue
    (List.forall_mem_cons.mpr ⟨hone, List.forall_mem_cons.mpr ⟨hfive, by simp⟩⟩)
    (List.forall_mem_cons.mpr ⟨by decide, List.forall_mem_cons.mpr ⟨by decide, by simp⟩⟩)
    hclock ((List.append_nil _).symm : _ = [] ++ _ ++ []) rfl rfl
  exact hbound

end Limitr
