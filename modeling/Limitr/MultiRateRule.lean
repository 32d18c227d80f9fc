import Limitr.SettledBuckets
import Mathlib.Order.Bounds.Basic

/-!
# The multi-rate rule

The requirements document gives the rule of a multi-rate limit in equations,
one set for each policy: the old level leaks for the elapsed time and not below
zero, the cost is added, and the room is what the burst leaves.  A request is
allowed when every policy has room; a missing level counts as zero; and the key
lives until the slowest policy has leaked away.

This file states the rule on its own and proves that the script follows it, from
the argument vector the client builds, for a list of policies of any length and
any number of stored levels (`script_follows_rule`).
-/

namespace Limitr

open FluidLevel RunningExtremes

namespace Rule

variable (policy : ValidPolicy) (oldLevel timeDelta cost : ℚ)

/-- `next_level = max(0, old_level - tokens_leaked) + cost` -/
def nextLevel : ℚ := max 0 (oldLevel - policy.flow * timeDelta) + cost

/-- `remaining = burst_capacity - next_level` -/
def remaining : ℚ := policy.burst - nextLevel policy oldLevel timeDelta cost

/-- `ttl = ceil(max(burst_capacity, next_level) / flow_rate)` -/
def ttl : ℤ := ⌈max policy.burst (nextLevel policy oldLevel timeDelta cost) / policy.flow⌉

end Rule

/-- The script's outcome is the one the rule asks for. -/
structure FollowsRule (P : ValidPolicies) (b : Bucket) (timeDelta cost : ℚ)
    (outcome : ScriptOutcome) : Prop where
  decided : outcome.reply.allowed = 1 ∨ outcome.reply.allowed = 0
  allowed_iff : outcome.reply.allowed = 1 ↔ ∀ i policy, P.policies[i]? = some policy →
    Rule.nextLevel policy (b.level i) timeDelta cost ≤ policy.burst
  least_room : outcome.reply.allowed = 1 → ∃ room, outcome.reply.capacityOrDeny = .fin room ∧
    IsLeast {r | ∃ i policy, P.policies[i]? = some policy ∧
      r = Rule.remaining policy (b.level i) timeDelta cost} room
  stored : outcome.reply.allowed = 1 → ∃ levels : List ℚ,
    outcome.write.state.tokenLevels = .array (levels.map fun level => .number (.fin level)) ∧
    levels.length = P.policies.length ∧
    ∀ i policy, P.policies[i]? = some policy →
      levels[i]? = some (Rule.nextLevel policy (b.level i) timeDelta cost)
  expires : ∃ e : ℤ, outcome.write.expireTime = .fin e ∧
    IsGreatest {t | ∃ i policy, P.policies[i]? = some policy ∧
      t = Rule.ttl policy (b.level i) timeDelta cost} e

variable (P : ValidPolicies) (b : Bucket) (request : Request)

/-- What holds at every position holds of every policy with its position. -/
theorem forall_policies_iff {C : ValidPolicy × ℕ → Prop} :
    (∀ x ∈ P.policies.zipIdx, C x) ↔
      ∀ i policy, P.policies[i]? = some policy → C (policy, i) := by
  constructor
  · intro h i policy hpolicy
    exact h (policy, i) (List.mem_zipIdx_iff_getElem?.mpr hpolicy)
  · intro h x hx
    exact h x.2 x.1 (List.mem_zipIdx_iff_getElem?.mp hx)

/-- The greatest time to live is that of one of the policies. -/
theorem expireTime_isGreatest (now cost : ℚ) :
    IsGreatest {t | ∃ i policy, P.policies[i]? = some policy ∧
      t = b.timeToLive now cost (policy, i)} (b.expireTime now cost P.policies) := by
  constructor
  · have hpos := expireTime_pos P b now cost
    rcases runningMax_eq_or_mem 0 (P.policies.zipIdx.map (b.timeToLive now cost)) with
      hzero | hmem
    · have hexpire : b.expireTime now cost P.policies = 0 := hzero
      omega
    · obtain ⟨x, hx, hlive⟩ := List.mem_map.mp hmem
      exact ⟨x.2, x.1, List.mem_zipIdx_iff_getElem?.mp hx, hlive.symm⟩
  · intro t ht
    obtain ⟨i, policy, hpolicy, rfl⟩ := ht
    apply le_runningMax
    exact List.mem_map_of_mem (List.mem_zipIdx_iff_getElem?.mpr hpolicy)

/-- The least room is that of one of the policies. -/
theorem limiting_isLeast (now cost : ℚ) :
    IsLeast {r | ∃ i policy, P.policies[i]? = some policy ∧
      r = b.remaining now cost (policy, i)} (b.limiting now cost P.policies).1 := by
  have hmin := (b.limiting_spec P now cost).2
  constructor
  · obtain ⟨x, hx, hroom⟩ := List.mem_map.mp (List.mem_of_getElem? hmin.attained)
    exact ⟨x.2, x.1, List.mem_zipIdx_iff_getElem?.mp hx, hroom.symm⟩
  · intro r hr
    obtain ⟨i, policy, hpolicy, rfl⟩ := hr
    apply hmin.least
    exact List.mem_map_of_mem (List.mem_zipIdx_iff_getElem?.mpr hpolicy)

/-- The outcome on a bucket follows the rule. -/
theorem outcome_followsRule (now cost : ℚ) :
    FollowsRule P b (now - b.lastTime) cost (b.outcome now cost P.policies) := by
  have hroom := b.limiting_nonneg_iff P now cost
  rw [forall_policies_iff] at hroom
  have hallowed : (b.outcome now cost P.policies).reply.allowed = 1 ↔
      0 ≤ (b.limiting now cost P.policies).1 := by
    by_cases h : 0 ≤ (b.limiting now cost P.policies).1
    · simp [Bucket.outcome, h]
    · simp [Bucket.outcome, h]
  refine ⟨?_, hallowed.trans hroom, ?_, ?_, ⟨_, rfl, expireTime_isGreatest P b now cost⟩⟩
  · by_cases h : 0 ≤ (b.limiting now cost P.policies).1
    · exact Or.inl (hallowed.mpr h)
    · right
      simp [Bucket.outcome, h]
  · intro h
    refine ⟨(b.limiting now cost P.policies).1, ?_, limiting_isLeast P b now cost⟩
    simp [Bucket.outcome, hallowed.mp h]
  · intro h
    refine ⟨P.policies.zipIdx.map (b.nextLevel now cost), ?_, by simp, ?_⟩
    · simp [Bucket.outcome, Bucket.step, hallowed.mp h, Bucket.commit, Bucket.state]
    · intro i policy hpolicy
      simp [List.getElem?_zipIdx, hpolicy]
      rfl

/-- **The script follows the multi-rate rule.**  On the argument vector the
client builds, the loop walks over the policies and reads no argument besides
theirs; and from whatever is kept under the key, with more levels than policies
or fewer, the script runs to its decision and follows the rule. -/
theorem script_follows_rule (p : Platform) (P : ValidPolicies) (kept : Kept)
    (request : Request) :
    ReadsPolicies P request.tokens (P.call request).argv ∧
    ∃ outcome, leakyBucket p (P.call request).argv request.time (slotOf p kept) = .ok outcome ∧
      FollowsRule P (foundBucket kept request.now)
        (request.now - (foundBucket kept request.now).lastTime) request.tokens outcome := by
  refine ⟨call_readsPolicies P request, _, ?_, outcome_followsRule P _ _ _⟩
  exact leakyBucket_eq p P _ request (readState_slotOf kept request.time)

end Limitr
