import Limitr.ReferenceHost
import Limitr.SettledBuckets

/-!
# What every write leaves behind

Two questions about the levels a script writes.  Are they gone by the time
Redis may drop the key?  They are (`expiry_forgets_nothing`), whatever the
requests cost.  Do they stay between zero and the burst, and does an allowed
request never lower one?  The upper half holds in every run; the lower half
holds as long as no cost is below zero, and an execution with a cost below zero
always breaks it (`capacity_kept_of_cost_nonneg`), since nothing between the
client's message and the script looks at the sign of the cost.
-/

namespace Limitr

open FluidLevel MachineRuns

variable {p : Platform} {P : ValidPolicies} {kept : Kept} {request : Request} {t : ℚ}

/-! ## Expiry -/

/-- **Expiry forgets nothing.**  At the end of the time to live a write asks
for, every level it stored has leaked away: from then on the script finds zero
levels in the written state, as it does in a fresh one. -/
theorem expiry_forgets_nothing (p : Platform) (P : ValidPolicies) {requests : List Request}
    (hclock : requests.Pairwise (fun r r' => r.now ≤ r'.now)) {e : Execution}
    (he : e ∈ executions p none (requests.map P.call)) {outcome : ScriptOutcome}
    (houtcome : e.output = .ok outcome) :
    ∃ (expire : ℕ) (b : Bucket), outcome.write = ⟨.fin expire, b.state⟩ ∧
      (∀ i policy, P.policies[i]? = some policy → b.level i - policy.flow * expire ≤ 0) ∧
      ∀ later : RawTime, e.input.time.now + expire ≤ later.now →
        leakedLevels p P.pairs outcome.write.state later =
            .ok (P.policies.map fun _ => .fin 0) ∧
          leakedLevels p P.pairs (.fresh later) later =
            .ok (P.policies.map fun _ => .fin 0) := by
  have hzero : ∀ (b : Bucket) (later : RawTime),
      (∀ x ∈ P.policies.zipIdx, b.leakedLevel later.now x.1 x.2 = 0) →
      leakedLevels p P.pairs b.state later = .ok (P.policies.map fun _ => .fin 0) := by
    intro b later hleaked
    rw [leakedLevels_eq, List.map_congr_left fun x hx => congrArg F64.fin (hleaked x hx)]
    simp
  obtain ⟨kept, request, t, hsettled, ht, rfl⟩ := executions_settled hclock e he
  obtain ⟨k, hk, htime, hwrite⟩ := visit_write houtcome
  have hleft : Settled P request.now k := visit_settled hsettled ht k hk
  refine ⟨k.expireSeconds, k.bucket, hwrite, ?_, ?_⟩
  · intro i policy hpolicy
    have hx : (policy, i) ∈ P.policies.zipIdx := List.mem_zipIdx_iff_getElem?.mpr hpolicy
    exact sub_nonpos.mpr (le_trans (hleft.level_le _ hx) (hleft.outlives _ hx))
  · intro later hlater
    have hpassed : k.writtenAt.now + k.expireSeconds ≤ later.now := by
      rw [htime]
      exact hlater
    rw [hwrite, ← fresh_state]
    exact ⟨hzero k.bucket later fun x hx => hleft.leakedLevel_eq_zero hpassed hx,
      hzero (.fresh later.now) later fun x _ => leakedAt_none x later.now⟩

/-- A request for the whole burst of a policy that leaks one token a second. -/
theorem expiry_forgets_nothing_full_burst :
    ∃ (expire : ℕ) (b : Bucket), b.level 0 - 1 * expire ≤ 0 ∧
      (execute referenceHost none ((ValidPolicies.perSecond 5 (by decide)).call
        ⟨5, .ofSeconds 0⟩)).1.map ScriptOutcome.write = .ok ⟨.fin expire, b.state⟩ := by
  have hok : (execute referenceHost none ((ValidPolicies.perSecond 5 (by decide)).call
      ⟨5, .ofSeconds 0⟩)).1.isOk = true := by
    decide +kernel
  obtain ⟨outcome, houtcome⟩ := exists_outcome hok
  have hmem : fire (execute referenceHost) none ((ValidPolicies.perSecond 5 (by decide)).call
      ⟨5, .ofSeconds 0⟩) ∈ executions referenceHost none
        ([⟨5, .ofSeconds 0⟩].map (ValidPolicies.perSecond 5 (by decide)).call) :=
    List.mem_cons_self
  obtain ⟨expire, b, hwrite, hlevel, _⟩ := expiry_forgets_nothing referenceHost
    (.perSecond 5 (by decide)) (List.pairwise_singleton _ _) hmem houtcome
  refine ⟨expire, b, hlevel 0 _ rfl, ?_⟩
  rw [houtcome, Except.map, hwrite]

/-! ## Capacity -/

/-- What an execution stores keeps between zero and the burst of every policy,
and when it allows its request no level falls below the leaked one it found. -/
def KeepsCapacity (p : Platform) (P : ValidPolicies) (e : Execution) : Prop :=
  ∀ outcome, e.output = .ok outcome → ∃ (b : Bucket) (found : List F64),
    outcome.write.state = b.state ∧
    levelsFound p P.pairs e.before e.input.time = .ok found ∧
    ∀ i policy, P.policies[i]? = some policy →
      (0 ≤ b.level i ∧ b.level i ≤ policy.burst) ∧
        (outcome.reply.allowed = 1 → found.getD i 0 ≤ .fin (b.level i))

/-- No stored level is below zero. -/
def NonnegKept (kept : Kept) : Prop :=
  ∀ k, kept = some k → ∀ level ∈ k.bucket.tokenLevels, 0 ≤ level

theorem NonnegKept.expireKept (h : NonnegKept kept) (now : RawTime) :
    NonnegKept (expireKept p kept now) :=
  fun k hk => h k (eq_some_of_expireKept hk)

/-- A level is zero or one of those stored. -/
theorem Bucket.level_eq_or_mem (b : Bucket) (i : ℕ) :
    b.level i = 0 ∨ b.level i ∈ b.tokenLevels := by
  cases hlevel : b.tokenLevels[i]? with
  | none =>
      left
      simp [Bucket.level, List.getD, hlevel]
  | some level =>
      right
      simpa [Bucket.level, List.getD, hlevel] using List.mem_of_getElem? hlevel

theorem Bucket.level_nonneg {b : Bucket} (h : ∀ level ∈ b.tokenLevels, 0 ≤ level) (i : ℕ) :
    0 ≤ b.level i := by
  rcases b.level_eq_or_mem i with hzero | hmem
  · rw [hzero]
  · exact h _ hmem

theorem NonnegKept.found_nonneg (h : NonnegKept kept) (now : ℚ) :
    ∀ level ∈ (foundBucket kept now).tokenLevels, 0 ≤ level := by
  cases kept with
  | none => simp [foundBucket, Bucket.fresh]
  | some k => exact h k rfl

/-- A visit at a cost of at least zero stores no level below zero. -/
theorem visit_nonneg (h : NonnegKept kept) (hcost : 0 ≤ request.cost.toInt) :
    NonnegKept (visit p P kept request).2 := by
  have htokens : 0 ≤ request.tokens := Request.tokens_nonneg hcost
  have hcases := visit_cases p P kept request
  generalize visit p P kept request = result at hcases ⊢
  cases hcases with
  | aborted hsetex => exact h.expireKept request.time
  | committed expire hexpire hroom =>
      intro k hk level hlevel
      cases hk
      obtain ⟨x, _, rfl⟩ := List.mem_map.mp hlevel
      exact add_nonneg drain_nonneg htokens
  | held expire hexpire hfull =>
      intro k hk
      cases hk
      exact (h.expireKept request.time).found_nonneg request.now

/-- Keeping the capacity, told in buckets. -/
theorem keepsCapacity_visit :
    KeepsCapacity p P (Firing.map (slotOf p) P.call (fire (visit p P) kept request)) ↔
      ∀ outcome, (visit p P kept request).1 = .ok outcome →
        ∃ b : Bucket, outcome.write.state = b.state ∧
          ∀ i policy, P.policies[i]? = some policy →
            (0 ≤ b.level i ∧ b.level i ≤ policy.burst) ∧
              (outcome.reply.allowed = 1 →
                (foundBucket (expireKept p kept request.time) request.now).leakedLevel
                  request.now policy i ≤ b.level i) := by
  have hfound := levelsFound_slotOf (p := p) (P := P) kept request.time
  constructor
  · intro h outcome houtcome
    obtain ⟨b, found, hstate, hread, hall⟩ := h outcome houtcome
    have hlevels := Except.ok.inj (hfound.symm.trans hread)
    subst hlevels
    refine ⟨b, hstate, fun i policy hpolicy => ⟨(hall i policy hpolicy).1, ?_⟩⟩
    have hkept := (hall i policy hpolicy).2
    rw [getD_zipIdx_map hpolicy, F64.fin_le_fin] at hkept
    exact hkept
  · intro h outcome houtcome
    obtain ⟨b, hstate, hall⟩ := h outcome houtcome
    refine ⟨b, _, hstate, hfound, fun i policy hpolicy => ⟨(hall i policy hpolicy).1, ?_⟩⟩
    rw [getD_zipIdx_map hpolicy, F64.fin_le_fin]
    exact (hall i policy hpolicy).2

/-- **A visit at a cost of at least zero keeps the capacity.** -/
theorem visit_keepsCapacity (h : SettledKept P t kept) (hnonneg : NonnegKept kept)
    (hcost : 0 ≤ request.cost.toInt) :
    KeepsCapacity p P (Firing.map (slotOf p) P.call (fire (visit p P) kept request)) := by
  have htokens : 0 ≤ request.tokens := Request.tokens_nonneg hcost
  have hlevels := (hnonneg.expireKept (p := p) request.time).found_nonneg request.now
  have hwithin := fun x hx => (h.expireKept (p := p) request.time).found_level_le
    (x := x) hx request.now
  rw [keepsCapacity_visit]
  intro outcome houtcome
  have hcases := visit_cases p P kept request
  generalize visit p P kept request = result at hcases houtcome
  cases hcases with
  | aborted hsetex => cases houtcome
  | committed expire hexpire hroom =>
      cases houtcome
      refine ⟨_, rfl, ?_⟩
      intro i policy hpolicy
      have hx : (policy, i) ∈ P.policies.zipIdx := List.mem_zipIdx_iff_getElem?.mpr hpolicy
      rw [commit_level hx]
      exact ⟨⟨add_nonneg drain_nonneg htokens, hroom _ hx⟩,
        fun _ => le_add_of_nonneg_right htokens⟩
  | held expire hexpire hfull =>
      cases houtcome
      refine ⟨_, rfl, ?_⟩
      intro i policy hpolicy
      have hx : (policy, i) ∈ P.policies.zipIdx := List.mem_zipIdx_iff_getElem?.mpr hpolicy
      rw [Bucket.hold_level]
      exact ⟨⟨Bucket.level_nonneg hlevels i, hwithin (policy, i) hx⟩,
        fun hallowed => absurd hallowed zero_ne_one⟩

/-- **A completed visit at a cost below zero hands capacity back.**  It is
always allowed, and every level it stores is below the one it found. -/
theorem visit_not_keepsCapacity (h : SettledKept P t kept) (ht : t ≤ request.now)
    (hcost : request.cost.toInt < 0) (hok : (visit p P kept request).1.isOk = true) :
    ¬KeepsCapacity p P (Firing.map (slotOf p) P.call (fire (visit p P) kept request)) := by
  have htokens : request.tokens < 0 := Request.tokens_neg hcost
  have hlast := (h.expireKept (p := p) request.time).found_lastTime_le ht
  have hwithin := fun x hx => (h.expireKept (p := p) request.time).found_level_le
    (x := x) hx request.now
  rw [keepsCapacity_visit]
  intro hkeeps
  obtain ⟨outcome, houtcome⟩ := exists_outcome hok
  obtain ⟨b', hstate, hall⟩ := hkeeps outcome houtcome
  obtain ⟨policy, hpolicy⟩ := P.exists_first
  obtain ⟨_, hallowed⟩ := hall 0 policy hpolicy
  have hcases := visit_cases p P kept request
  generalize visit p P kept request = result at hcases houtcome
  cases hcases with
  | aborted hsetex => cases houtcome
  | committed expire hexpire hroom =>
      cases houtcome
      have hb := Bucket.state_injective hstate
      subst hb
      have hle := hallowed rfl
      have hx : (policy, 0) ∈ P.policies.zipIdx := List.mem_zipIdx_iff_getElem?.mpr hpolicy
      rw [commit_level hx] at hle
      exact absurd hle (not_le.mpr (add_lt_of_neg_right _ htokens))
  | held expire hexpire hfull =>
      obtain ⟨x, hx, hover⟩ := hfull
      have hburst : 0 ≤ x.1.burst := le_of_lt x.1.burst_rat_pos
      have hleaked : (foundBucket (expireKept p kept request.time) request.now).leakedLevel
          request.now x.1 x.2 ≤ x.1.burst :=
        drain_le (le_of_lt x.1.flow_pos) (sub_nonneg.mpr hlast) hburst (hwithin x hx)
      have hnext : (foundBucket (expireKept p kept request.time) request.now).nextLevel
          request.now request.tokens x ≤ x.1.burst :=
        le_trans (le_of_lt (add_lt_of_neg_right _ htokens)) hleaked
      exact absurd hnext (not_le.mpr hover)

end Limitr
