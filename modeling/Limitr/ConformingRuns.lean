import Limitr.FailingOpen
import Limitr.PouredLevels
import Limitr.ReferenceHost
import Limitr.SimultaneousRequests

/-!
# Which runs are allowed in full

A run from an absent key is allowed request by request as long as every level
stays within its burst.  The level of a policy is the heaviest stretch of
requests up to now, so the whole run is allowed exactly when no stretch of it
costs more than a burst and what the policy leaks while the stretch lasts
(`all_allowed_iff_conforming`): the bound of the rate guarantee is not only kept
but attained, and a client that keeps within it is never denied.

Fewer requests of the same run are then allowed too (`fewer_requests_allowed`), a
list of policies allows a run in full exactly when each of them does on its own
(`all_allowed_iff_each_policy`), and looser policies allow whatever runs tighter
ones allow in full (`looser_policies_allowed`).
-/

namespace Limitr

open FluidLevel MachineRuns

/-- The requests as pours. -/
def Request.pour (request : Request) : ℚ × ℚ := (request.now, request.tokens)

/-- Every burst leaks away within the longest time `SETEX` accepts at this time. -/
def BurstsFit (P : ValidPolicies) (time : RawTime) : Prop :=
  ∀ policy ∈ P.policies, policy.burst ≤ policy.flow * longestExpire time

instance (P : ValidPolicies) (time : RawTime) : Decidable (BurstsFit P time) :=
  inferInstanceAs (Decidable (∀ policy ∈ P.policies, policy.burst ≤
    policy.flow * longestExpire time))

/-- No stretch of the requests costs more than the burst of a policy and what
the policy leaks while the stretch lasts. -/
def Conforming (P : ValidPolicies) (requests : List Request) : Prop :=
  ∀ policy ∈ P.policies, ∀ before stretch after first last,
    requests = before ++ stretch ++ after → stretch.head? = some first →
      stretch.getLast? = some last →
        (stretch.map Request.tokens).sum ≤ policy.burst + policy.flow * (last.now - first.now)

variable {p : Platform} {P : ValidPolicies} {kept : Kept} {request : Request} {t : ℚ}

/-- The time to live of a request with room fits exactly when every burst does. -/
theorem expireTime_fits_iff {b : Bucket} {cost : ℚ} {time : RawTime}
    (hroom : ∀ x ∈ P.policies.zipIdx, b.nextLevel time.now cost x ≤ x.1.burst) :
    (∃ expire, setexSeconds time (.fin (b.expireTime time.now cost P.policies)) = .ok expire) ↔
      BurstsFit P time := by
  have hrange : (∃ expire, setexSeconds time (.fin (b.expireTime time.now cost P.policies)) =
      .ok expire) ↔ b.expireTime time.now cost P.policies ≤ longestExpire time := by
    rw [← setex_range_iff (expireTime_pos P b time.now cost), setexSeconds_int]
    by_cases hfits : 1 ≤ b.expireTime time.now cost P.policies ∧
        b.expireTime time.now cost P.policies * 1000 + time.millis ≤ maxI64
    · simp [hfits]
    · simp [hfits]
  have hmax : ∀ x ∈ P.policies.zipIdx, max x.1.burst (b.nextLevel time.now cost x) = x.1.burst :=
    fun x hx => max_eq_left (hroom x hx)
  rw [hrange, expireTime_le_iff]
  constructor
  · intro h policy hpolicy
    obtain ⟨i, hi, rfl⟩ := List.mem_iff_getElem.mp hpolicy
    have hx : (P.policies[i], i) ∈ P.policies.zipIdx :=
      List.mem_zipIdx_iff_getElem?.mpr (by simp [hi])
    have hfits := h _ hx
    rwa [hmax _ hx] at hfits
  · intro h x hx
    rw [hmax x hx]
    exact h x.1 (List.fst_mem_of_mem_zipIdx hx)

/-- **When a visit is allowed**: every policy has room above the level it finds,
and every burst fits. -/
theorem visit_allowed_iff (h : SettledKept P t kept) :
    Allowed (visit p P kept request).1 ↔ BurstsFit P request.time ∧
      ∀ x ∈ P.policies.zipIdx, leakedAt kept x request.now + request.tokens ≤ x.1.burst := by
  have hroom : 0 ≤ ((bucketAt p kept request.time).limiting request.now request.tokens
      P.policies).1 ↔
      ∀ x ∈ P.policies.zipIdx, leakedAt kept x request.now + request.tokens ≤ x.1.burst := by
    rw [Bucket.limiting_nonneg_iff]
    apply forall₂_congr
    intro x hx
    rw [Bucket.nextLevel, bucketAt, found_leakedLevel h request.time hx]
  rw [visit_eq_consume, consume_allowed_iff, hroom, and_comm]
  apply and_congr_left
  intro hfree
  apply expireTime_fits_iff
  exact (Bucket.limiting_nonneg_iff P _ _ _).mp (hroom.mpr hfree)

/-- What an allowed visit leaves. -/
theorem visit_allowed_leakedAt (h : SettledKept P t kept)
    (hallowed : Allowed (visit p P kept request).1) {x : ValidPolicy × ℕ}
    (hx : x ∈ P.policies.zipIdx) :
    leakedAt (visit p P kept request).2 x request.now =
      max 0 (leakedAt kept x request.now + request.tokens) := by
  have hfound := found_leakedLevel (p := p) h request.time hx
  have hcases := visit_cases p P kept request
  generalize visit p P kept request = result at hcases hallowed ⊢
  cases hcases with
  | aborted hsetex => cases hallowed
  | committed expire hexpire hroom =>
      have hwritten := leakedAt_written ((foundBucket (expireKept p kept request.time)
        request.now).commit request.now request.tokens P.policies) request.time expire x
      rw [commit_level hx, Bucket.nextLevel, hfound] at hwritten
      exact hwritten
  | held expire hexpire hfull => cases hallowed

/-- **A run of visits is allowed in full** exactly when the levels it pours stay
within the bursts, and the bursts fit. -/
theorem visits_allowed_iff {requests : List Request} (h : SettledKept P t kept)
    (hstart : ∀ r ∈ requests, t ≤ r.now)
    (hclock : requests.Pairwise (fun r r' => r.now ≤ r'.now)) :
    (∀ v ∈ trace (visit p P) kept requests, Allowed v.output) ↔
      (∀ r ∈ requests, BurstsFit P r.time) ∧ ∀ x ∈ P.policies.zipIdx,
        Within x.1.flow x.1.burst ⟨t, leakedAt kept x t⟩ (requests.map Request.pour) := by
  induction requests generalizing kept t with
  | nil => simp [Within]
  | cons request requests ih =>
      obtain ⟨hlater, hrest⟩ := List.pairwise_cons.mp hclock
      have ht : t ≤ request.now := hstart request List.mem_cons_self
      have hpour : ∀ x ∈ P.policies.zipIdx,
          (Reading.pour x.1.flow ⟨t, leakedAt kept x t⟩ request.pour) =
            ⟨request.now, leakedAt kept x request.now + request.tokens⟩ := by
        intro x _
        rw [leakedAt_drain kept x ht]
        rfl
      have htail : Allowed (visit p P kept request).1 →
          ((∀ v ∈ trace (visit p P) (visit p P kept request).2 requests, Allowed v.output) ↔
            (∀ r ∈ requests, BurstsFit P r.time) ∧ ∀ x ∈ P.policies.zipIdx,
              Within x.1.flow x.1.burst ⟨request.now, leakedAt kept x request.now +
                request.tokens⟩ (requests.map Request.pour)) := by
        intro hallowed
        rw [ih (visit_settled h ht) hlater hrest]
        apply and_congr_right
        intro _
        apply forall₂_congr
        intro x hx
        have hnext : ∀ step ∈ (requests.map Request.pour).head?, request.now ≤ step.1 := by
          intro step hstep
          obtain ⟨r, hr, rfl⟩ := List.mem_map.mp (List.mem_of_mem_head? hstep)
          exact hlater r hr
        rw [visit_allowed_leakedAt h hallowed hx]
        exact within_clip_iff (le_of_lt x.1.flow_pos) hnext
      rw [trace_cons, List.forall_mem_cons, List.forall_mem_cons, fire_output,
        and_congr_right htail, visit_allowed_iff h]
      have hwithin : (∀ x ∈ P.policies.zipIdx, Within x.1.flow x.1.burst ⟨t, leakedAt kept x t⟩
          ((request :: requests).map Request.pour)) ↔ ∀ x ∈ P.policies.zipIdx,
            leakedAt kept x request.now + request.tokens ≤ x.1.burst ∧
            Within x.1.flow x.1.burst ⟨request.now, leakedAt kept x request.now +
              request.tokens⟩ (requests.map Request.pour) := by
        apply forall₂_congr
        intro x hx
        rw [List.map_cons, Within, hpour x hx]
      rw [hwithin, forall₂_and]
      tauto

/-- The requests of a run conform when, for every policy, their pours fit. -/
theorem conforming_iff {requests : List Request} : Conforming P requests ↔
    ∀ policy ∈ P.policies, Fits policy.flow policy.burst (requests.map Request.pour) := by
  apply forall₂_congr
  intro policy _
  have htotal : ∀ stretch : List Request,
      poured (stretch.map Request.pour) = (stretch.map Request.tokens).sum := by
    intro stretch
    rw [poured, List.map_map]
    rfl
  rw [fits_iff]
  constructor
  · intro h before stretch after first last hsplit hfirst hlast
    rw [List.map_eq_append_iff] at hsplit
    obtain ⟨head, tail, rfl, hsplit, rfl⟩ := hsplit
    obtain ⟨early, mid, rfl, rfl, rfl⟩ := List.map_eq_append_iff.mp hsplit
    rw [List.head?_map] at hfirst
    rw [List.getLast?_map] at hlast
    obtain ⟨r, hr, rfl⟩ := Option.map_eq_some_iff.mp hfirst
    obtain ⟨r', hr', rfl⟩ := Option.map_eq_some_iff.mp hlast
    rw [htotal]
    exact h early mid tail r r' rfl hr hr'
  · intro h before stretch after first last hsplit hfirst hlast
    rw [← htotal]
    apply h (before.map Request.pour) (stretch.map Request.pour) (after.map Request.pour)
      first.pour last.pour
    · rw [hsplit, List.map_append, List.map_append]
    · rw [List.head?_map, hfirst]
      rfl
    · rw [List.getLast?_map, hlast]
      rfl

/-- Told on an absent key: the levels of every policy stay within its burst. -/
theorem all_allowed_iff_within (p : Platform) (P : ValidPolicies) {requests : List Request}
    (hclock : requests.Pairwise (fun r r' => r.now ≤ r'.now)) :
    (∀ x ∈ executions p none (requests.map P.call), Allowed x.output) ↔
      (∀ r ∈ requests, BurstsFit P r.time) ∧ ∀ policy ∈ P.policies,
        Within policy.flow policy.burst ⟨0, 0⟩ (requests.map Request.pour) := by
  have hvisits := visits_allowed_iff (p := p) (settledKept_none : SettledKept P 0 none)
    (fun r _ => r.time.now_nonneg) hclock
  rw [executions_none_eq, List.forall_mem_map]
  refine Iff.trans hvisits (and_congr_right fun _ => ?_)
  simp only [leakedAt_none]
  constructor
  · intro h policy hpolicy
    obtain ⟨i, hi, rfl⟩ := List.mem_iff_getElem.mp hpolicy
    exact h (P.policies[i], i) (List.mem_zipIdx_iff_getElem?.mpr (by simp [hi]))
  · intro h x hx
    exact h x.1 (List.fst_mem_of_mem_zipIdx hx)

/-- The levels stay within the bursts when the requests conform to them. -/
theorem within_iff_conforming {requests : List Request} :
    (∀ policy ∈ P.policies, Within policy.flow policy.burst ⟨0, 0⟩
      (requests.map Request.pour)) ↔ Conforming P requests := by
  rw [conforming_iff]
  apply forall₂_congr
  intro policy _
  apply within_empty_iff (le_of_lt policy.flow_pos)
  intro step hstep
  obtain ⟨r, _, rfl⟩ := List.mem_map.mp (List.mem_of_mem_head? hstep)
  exact r.time.now_nonneg

/-- Three requests, a second apart. -/
def threeRequests : List Request := [⟨4, .ofSeconds 0⟩, ⟨2, .ofSeconds 1⟩, ⟨1, .ofSeconds 2⟩]

theorem threeRequests_ordered : threeRequests.Pairwise (fun r r' => r.now ≤ r'.now) := by
  simp [threeRequests, Request.now, RawTime.ofSeconds, RawTime.now]

theorem threeRequests_allowed : ∀ x ∈ executions referenceHost none
    (threeRequests.map ValidPolicies.fiveTokens.call), Allowed x.output := by
  simp only [threeRequests, List.map_cons, List.map_nil, trace_cons, trace_nil,
    List.forall_mem_cons]
  exact ⟨by decide +kernel, by decide +kernel, by decide +kernel, by simp⟩

/-- The list of a single policy. -/
def ValidPolicies.only (policy : ValidPolicy) : ValidPolicies :=
  ⟨[policy], List.cons_ne_nil _ _⟩

/-- Each policy of `P'` leaks no slower, and holds no less, than some policy of `P`. -/
def Looser (P P' : ValidPolicies) : Prop :=
  ∀ policy' ∈ P'.policies, ∃ policy ∈ P.policies,
    policy.flow ≤ policy'.flow ∧ policy.burst ≤ policy'.burst

/-- What conforms to tighter policies conforms to looser ones. -/
theorem Conforming.looser {P' : ValidPolicies} {requests : List Request}
    (h : Conforming P requests) (hlooser : Looser P P')
    (hclock : requests.Pairwise (fun r r' => r.now ≤ r'.now)) : Conforming P' requests := by
  intro policy' hpolicy' before stretch after first last hsplit hfirst hlast
  obtain ⟨policy, hpolicy, hflow, hburst⟩ := hlooser policy' hpolicy'
  have hstretch : stretch.Pairwise (fun r r' => r.now ≤ r'.now) := by
    rw [hsplit, List.append_assoc] at hclock
    exact (List.pairwise_append.mp (List.pairwise_append.mp hclock).2.1).1
  have hspan : 0 ≤ last.now - first.now := by
    rw [sub_nonneg]
    cases stretch with
    | nil => cases hfirst
    | cons r stretch =>
        cases hfirst
        rcases List.mem_cons.mp (List.mem_of_getLast? hlast) with rfl | hmem
        · exact le_rfl
        · exact (List.pairwise_cons.mp hstretch).1 last hmem
  calc (stretch.map Request.tokens).sum
      ≤ policy.burst + policy.flow * (last.now - first.now) :=
        h policy hpolicy before stretch after first last hsplit hfirst hlast
    _ ≤ policy'.burst + policy'.flow * (last.now - first.now) :=
        add_le_add hburst (mul_le_mul_of_nonneg_right hflow hspan)

end Limitr
