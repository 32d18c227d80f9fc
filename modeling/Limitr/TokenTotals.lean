import Limitr.BucketIsolation
import Limitr.LimitDecisions
import Mathlib.Algebra.Order.BigOperators.Group.List

/-!
# What the token counters add up to

For every request the service adds its cost to the consumed tokens, and for a
denied one the deny count of the decision to the denied tokens.  The first
happens for denied requests too, and the deny count is itself a running total
kept in Redis, so that both counters add a denied token more than once.

The counters account for the tokens of a run exactly when no request of a
positive cost is denied in it (`tokens_accounted_iff`).
-/

namespace Limitr

open MachineRuns

/-! ## One arrival -/

/-- The labels of an arrival in the metrics. -/
def Arrival.label (a : Arrival) : String × String :=
  (a.request.name.domain, a.request.name.prefixKey)

/-- The cost of an arrival; one where none is given. -/
def Arrival.cost (a : Arrival) : Int32 := a.request.cost.getD 1

/-- The reply to an arrival reaches the limiter. -/
def Arrival.Reached (p : Platform) (a : Arrival) (s : ServiceState) : Prop :=
  Limitr.Reached p a.call a.redisKey a.cost a.pairs s

/-- Every policy has room for the cost above the level the loop finds under the
key. -/
def HasRoom (p : Platform) (pairs : List (F64 × Int64)) (cost : Int32) (slot : Slot)
    (time : RawTime) : Prop :=
  ∃ found, levelsFound p pairs slot time = .ok found ∧
    ∀ i pair, pairs[i]? = some pair →
      found.getD i 0 + F64.ofInt cost.toInt ≤ F64.ofInt pair.2.toInt

/-- The policies an arrival is checked against have room for it. -/
def Arrival.HasRoom (p : Platform) (a : Arrival) (s : ServiceState) : Prop :=
  Limitr.HasRoom p a.pairs a.cost (s.store a.redisKey) a.call.time

variable {p : Platform} {P : ValidPolicies} {kept : Kept}

/-- The pairs an arrival sends are those of the policies in force. -/
theorem Arrival.pairs_eq {a : Arrival} (hP : P.raw = policiesFor a.cache a.request) :
    a.pairs = P.pairs := by
  rw [Arrival.pairs, ← hP]
  rfl

/-- Room under a key, told in buckets. -/
theorem hasRoom_slotOf (cost : Int32) (time : RawTime) :
    HasRoom p P.pairs cost (slotOf p kept) time ↔
      ∀ x ∈ P.policies.zipIdx, (foundBucket (expireKept p kept time) time.now).nextLevel
        time.now cost.toInt x ≤ x.1.burst := by
  have hfound := levelsFound_slotOf (p := p) (P := P) kept time
  constructor
  · intro h x hx
    obtain ⟨found, hlevels, hroom⟩ := h
    obtain rfl := Except.ok.inj (hfound.symm.trans hlevels)
    have hpolicy := List.mem_zipIdx_iff_getElem?.mp hx
    have hle := hroom x.2 _ (ValidPolicies.pairs_getElem? hpolicy)
    rw [getD_zipIdx_map hpolicy] at hle
    exact (F64.fin_le_fin _ _).mp hle
  · intro h
    refine ⟨_, hfound, ?_⟩
    intro i pair hpair
    obtain ⟨policy, hpolicy, rfl⟩ : ∃ policy, P.policies[i]? = some policy ∧
        (F64.fin policy.flow, policy.policy.burstCapacity) = pair := by
      cases hget : P.policies[i]? with
      | none => simp [ValidPolicies.pairs, ValidPolicies.raw, hget] at hpair
      | some policy =>
          have hsame := (ValidPolicies.pairs_getElem? hget).symm.trans hpair
          exact ⟨policy, rfl, Option.some.inj hsame⟩
    have hle := h (policy, i) (List.mem_zipIdx_iff_getElem?.mpr hpolicy)
    rw [getD_zipIdx_map hpolicy]
    exact (F64.fin_le_fin _ _).mpr hle

/-- The policies of an arrival have room exactly when the bucket under its key
leaves it. -/
theorem Arrival.hasRoom_iff {a : Arrival} {s : ServiceState}
    (hP : P.raw = policiesFor a.cache a.request) (hslot : s.store a.redisKey = slotOf p kept) :
    a.HasRoom p s ↔ ∀ x ∈ P.policies.zipIdx,
      (foundBucket (expireKept p kept a.call.time) a.call.time.now).nextLevel a.call.time.now
        a.cost.toInt x ≤ x.1.burst := by
  rw [Arrival.HasRoom, hslot, Arrival.pairs_eq hP, hasRoom_slotOf]

/-- The response to a decision. -/
def LimitDecision.response (decision : LimitDecision) : CheckResponse :=
  ⟨decision.allowed, decision.remainingCapacity, decision.limitingRateIndex, decision.denyCount⟩

/-- **What an arrival answers and records**, from the limiter's decision. -/
theorem serve_records (p : Platform) (s : ServiceState) (a : Arrival) {decision : LimitDecision}
    (h : (checkLimit p a.call a.request.name.domain a.request.name.prefixKey a.request.name.key
      (policiesFor a.cache a.request) a.cost s).1 = .ok decision) :
    (serve p s a).1 = .ok decision.response ∧
      (serve p s a).2.metrics.tokensConsumedTotal =
        atLabel s.metrics.tokensConsumedTotal a.label (· + a.cost.toInt) ∧
      (serve p s a).2.metrics.denyCountTotal =
        if decision.allowed then s.metrics.denyCountTotal
        else atLabel s.metrics.denyCountTotal a.label (· + decision.denyCount.toUInt64) := by
  obtain ⟨htokens, hdenied⟩ := checkLimit_counters p a.call a.request.name.domain
    a.request.name.prefixKey a.request.name.key a.cost (policiesFor a.cache a.request) s
  unfold Arrival.cost at h htokens hdenied ⊢
  unfold serve RateLimiterService.consumeAndCheckLimit
  dsimp only
  generalize checkLimit p a.call a.request.name.domain a.request.name.prefixKey
    a.request.name.key (policiesFor a.cache a.request) (a.request.cost.getD 1) s = result
    at h htokens hdenied ⊢
  obtain ⟨output, s'⟩ := result
  dsimp only at h htokens hdenied
  subst h
  dsimp only
  rw [← htokens, ← hdenied]
  obtain ⟨allowed, remaining, index, denyCount⟩ := decision
  cases allowed with
  | true => exact ⟨rfl, rfl, rfl⟩
  | false => exact ⟨rfl, rfl, rfl⟩

/-- The limiter always decides. -/
theorem checkLimit_eq_ok (p : Platform) (a : Arrival) (s : ServiceState) :
    ∃ decision, (checkLimit p a.call a.request.name.domain a.request.name.prefixKey
      a.request.name.key (policiesFor a.cache a.request) a.cost s).1 = .ok decision := by
  unfold checkLimit
  dsimp only
  split
  · exact ⟨_, rfl⟩
  · exact ⟨failOpen, rfl⟩

/-- **A served arrival.**  With the policies in force it is answered by the
limiter's decision, which fails open without a reply and is the decision on the
bucket found with one. -/
theorem serve_cases {a : Arrival} {s : ServiceState} (hP : P.raw = policiesFor a.cache a.request)
    (hslot : s.store a.redisKey = slotOf p kept) :
    ∃ decision : LimitDecision, (checkLimit p a.call a.request.name.domain
        a.request.name.prefixKey a.request.name.key (policiesFor a.cache a.request) a.cost s).1 =
          .ok decision ∧
      (¬a.Reached p s → decision = failOpen) ∧
      (a.Reached p s → ∃ b, DecisionCase P
        (foundBucket (expireKept p kept a.call.time) a.call.time.now) a.call.time.now
          a.cost.toInt decision b) := by
  have hpairs := Arrival.pairs_eq hP
  by_cases hreached : a.Reached p s
  · unfold Arrival.Reached at hreached
    rw [hpairs] at hreached
    obtain ⟨decision, b, _, hdecision, _, hcase⟩ := answered_cases hslot hreached
    rw [← hP]
    exact ⟨decision, hdecision, fun hnot => absurd (by rw [Arrival.Reached, hpairs]; exact hreached)
      hnot, fun _ => ⟨b, hcase⟩⟩
  · exact ⟨failOpen, checkLimit_of_not_reached p a.call a.request.name.domain
      a.request.name.prefixKey a.request.name.key a.cost (policiesFor a.cache a.request) s hreached,
      fun _ => rfl, fun h => absurd h hreached⟩

/-- A reply allows its request when there is room, and only then. -/
theorem DecisionCase.allowed_iff {b b' : Bucket} {now cost : ℚ} {decision : LimitDecision}
    (h : DecisionCase P b now cost decision b') :
    decision.allowed = true ↔ ∀ x ∈ P.policies.zipIdx, b.nextLevel now cost x ≤ x.1.burst := by
  cases h with
  | allowed x hread hroom => exact iff_of_true rfl hroom
  | denied x hread hfull =>
      apply iff_of_false Bool.false_ne_true
      intro hroom
      obtain ⟨y, hy, hover⟩ := hfull
      exact absurd (hroom y hy) (not_le.mpr hover)

/-! ## Totals over a run -/

/-- An arrival of a run, as `MachineRuns.trace` records it. -/
abbrev Served := Firing ServiceState Arrival (Except Status CheckResponse)

/-- The tokens an arrival asked for. -/
def requestedTokens (x : Served) : ℤ := x.input.cost.toInt

/-- The tokens an arrival was allowed. -/
def allowedTokens (x : Served) : ℤ :=
  match x.output with
  | .ok response => if response.allowed then x.input.cost.toInt else 0
  | .error _ => 0

/-- The tokens an arrival was denied. -/
def deniedTokens (x : Served) : ℤ :=
  match x.output with
  | .ok response => if response.allowed then 0 else x.input.cost.toInt
  | .error _ => 0

/-- What the arrivals with a label add up to. -/
def totalAt (label : String × String) (f : Served → ℤ) (xs : List Served) : ℤ :=
  (xs.map fun x => if x.input.label = label then f x else 0).sum

/-- The counters hold the allowed and the denied tokens of every label, which
together are the tokens requested. -/
def TokensAccounted (xs : List Served) (m : Metrics) : Prop :=
  ∀ label, m.tokensConsumedTotal label = totalAt label allowedTokens xs ∧
    ((m.denyCountTotal label).toNat : ℤ) = totalAt label deniedTokens xs ∧
    m.tokensConsumedTotal label + (m.denyCountTotal label).toNat =
      totalAt label requestedTokens xs

/-- Every answered arrival is allowed its tokens or denied them. -/
theorem allowed_add_denied {x : Served} {response : CheckResponse}
    (houtput : x.output = .ok response) :
    allowedTokens x + deniedTokens x = requestedTokens x := by
  rw [allowedTokens, deniedTokens, houtput, requestedTokens]
  dsimp only
  split_ifs
  · exact add_zero _
  · exact zero_add _

theorem deniedTokens_nonneg {x : Served} (hcost : 0 ≤ x.input.cost.toInt) :
    0 ≤ deniedTokens x := by
  unfold deniedTokens
  cases x.output with
  | error e => exact le_rfl
  | ok response =>
      dsimp only
      split_ifs
      · exact le_rfl
      · exact hcost

theorem deniedTokens_eq_zero_iff {x : Served} {response : CheckResponse}
    (houtput : x.output = .ok response) :
    deniedTokens x = 0 ↔ (x.input.cost ≠ 0 → response.allowed = true) := by
  have hzero : x.input.cost.toInt = 0 ↔ x.input.cost = 0 := by
    rw [← Int32.toInt_zero]
    exact Int32.toInt_inj
  rw [deniedTokens, houtput]
  dsimp only
  split_ifs with hallowed
  · exact iff_of_true rfl fun _ => hallowed
  · rw [hzero]
    constructor
    · intro hcost hne
      exact absurd hcost hne
    · intro h
      by_contra hne
      exact hallowed (h hne)

theorem totalAt_concat (label : String × String) (f : Served → ℤ) (xs : List Served)
    (x : Served) : totalAt label f (xs ++ [x]) =
      totalAt label f xs + if x.input.label = label then f x else 0 := by
  simp [totalAt]

theorem totalAt_add (label : String × String) {f g h : Served → ℤ} {xs : List Served}
    (hadd : ∀ x ∈ xs, f x + g x = h x) :
    totalAt label f xs + totalAt label g xs = totalAt label h xs := by
  induction xs with
  | nil => rfl
  | cons x xs ih =>
      obtain ⟨hx, hrest⟩ := List.forall_mem_cons.mp hadd
      have hsum := ih hrest
      simp only [totalAt, List.map_cons, List.sum_cons] at hsum ⊢
      split_ifs <;> omega

/-- A total of terms at or above zero vanishes only if each of them does. -/
theorem eq_zero_of_totalAt {f : Served → ℤ} {xs : List Served} (hf : ∀ x ∈ xs, 0 ≤ f x)
    (hzero : ∀ label, totalAt label f xs = 0) : ∀ x ∈ xs, f x = 0 := by
  intro x hx
  have hnonneg : ∀ t ∈ xs.map fun y => if y.input.label = x.input.label then f y else 0,
      0 ≤ t := by
    intro t ht
    obtain ⟨y, hy, rfl⟩ := List.mem_map.mp ht
    split_ifs
    · exact hf y hy
    · exact le_rfl
  have hterm := List.all_zero_of_le_zero_le_of_sum_eq_zero hnonneg (hzero x.input.label)
    (List.mem_map.mpr ⟨x, hx, rfl⟩)
  rwa [if_pos rfl] at hterm

theorem totalAt_eq_zero {label : String × String} {f : Served → ℤ} {xs : List Served}
    (hf : ∀ x ∈ xs, f x = 0) : totalAt label f xs = 0 := by
  apply List.sum_eq_zero
  intro t ht
  obtain ⟨x, hx, rfl⟩ := List.mem_map.mp ht
  rw [hf x hx, ite_self]

/-! ## What the service records -/

/-- Every bucket under a key has denied nothing so far. -/
def NothingDenied (kept : Kept) : Prop := ∀ k, kept = some k → k.bucket.denyCount = 0

/-- A visit that finds room, or costs nothing, denies nothing. -/
theorem visit_nothingDenied {request : Request} (h : NothingDenied kept)
    (hroom : request.cost ≠ 0 → HasRoom p P.pairs request.cost (slotOf p kept) request.time) :
    NothingDenied (visit p P kept request).2 := by
  rw [hasRoom_slotOf] at hroom
  apply visit_denyCount (· = 0) rfl h
  intro hfull hfound
  have hcost : request.cost = 0 := by
    by_contra hcost
    obtain ⟨y, hy, hover⟩ := hfull
    exact absurd (hroom hcost y hy) (not_le.mpr hover)
  rw [hfound, Request.tokens, hcost, Int32.toInt_zero, Int.cast_zero, add_zero]

/-- The consumed tokens are the tokens requested so far. -/
def CountsRequested (past : List Served) (s : ServiceState) : Prop :=
  ∀ label, s.metrics.tokensConsumedTotal label = totalAt label requestedTokens past

/-- The consumed tokens of a label are the tokens requested under it. -/
theorem consumed_eq_requested (p : Platform) (arrivals : List Arrival)
    (label : String × String) :
    (served p arrivals).metrics.tokensConsumedTotal label =
      totalAt label requestedTokens (trace (serve p) .start arrivals) := by
  have hstep : ∀ past s a, CountsRequested past s → True →
      CountsRequested (past ++ [fire (serve p) s a]) (serve p s a).2 := by
    intro past s a h _ label
    obtain ⟨decision, hdecision⟩ := checkLimit_eq_ok p a s
    rw [(serve_records p s a hdecision).2.1, totalAt_concat, atLabel, h label, fire_input]
    by_cases hlabel : label = a.label
    · rw [if_pos hlabel, if_pos hlabel.symm, Int.cast_add]
      rfl
    · rw [if_neg hlabel, if_neg (fun heq => hlabel heq.symm), add_zero]
  have hfinal : CountsRequested ([] ++ trace (serve p) .start arrivals) (served p arrivals) :=
    history_final hstep (fun _ => rfl) (fun _ _ => trivial)
  exact hfinal label

/-- Every arrival of a run is answered, and one whose reply reaches the limiter is
allowed exactly when there is room. -/
theorem served_spec {arrivals : List Arrival} (hcaches : ∀ a ∈ arrivals, a.cache.Valid) :
    ∀ x ∈ trace (serve p) .start arrivals, ∃ response, x.output = .ok response ∧
      (x.input.Reached p x.before →
        (response.allowed = true ↔ x.input.HasRoom p x.before)) := by
  intro x hx
  obtain ⟨⟨kept, hslot, _⟩, hcache, hfire⟩ := served_firings_always (p := p) (fun _ => True)
    (fun _ _ _ _ => trivial) trivial hcaches x hx
  obtain ⟨P, hP⟩ := hcache x.input.request.name.domain x.input.request.name.prefixKey
  obtain ⟨decision, hdecision, _, hanswered⟩ := serve_cases hP hslot
  refine ⟨decision.response, ?_, ?_⟩
  · rw [hfire]
    exact (serve_records p x.before x.input hdecision).1
  · intro hreached
    obtain ⟨b, hcase⟩ := hanswered hreached
    rw [Arrival.hasRoom_iff hP hslot]
    exact hcase.allowed_iff

/-- Nothing has been denied, in the buckets or in the counters. -/
def CountsNothingDenied (p : Platform) (s : ServiceState) : Prop :=
  Stores p NothingDenied s ∧ ∀ label, s.metrics.denyCountTotal label = 0

/-- An arrival that finds room, or costs nothing, denies nothing. -/
theorem serve_nothingDenied {a : Arrival} {s : ServiceState} (h : CountsNothingDenied p s)
    (hcache : a.cache.Valid) (hroom : a.cost ≠ 0 → a.HasRoom p s) :
    CountsNothingDenied p (serve p s a).2 := by
  constructor
  · refine serve_stores_of_visit h.1 hcache (fun _ hnone => hnone) ?_
    intro P kept hP hslot hnone
    apply visit_nothingDenied hnone
    intro hcost
    rw [← hslot, ← Arrival.pairs_eq hP]
    exact hroom hcost
  · obtain ⟨P, hP⟩ := hcache a.request.name.domain a.request.name.prefixKey
    obtain ⟨kept, hslot, hnone⟩ := h.1 a.redisKey
    obtain ⟨decision, hdecision, hfailed, hanswered⟩ := serve_cases hP hslot
    intro label
    rw [(serve_records p s a hdecision).2.2]
    by_cases hreached : a.Reached p s
    · obtain ⟨b, hcase⟩ := hanswered hreached
      cases hcase with
      | allowed x hread hall => exact h.2 label
      | denied x hread hfull =>
          have hcost : a.cost = 0 := by
            by_contra hne
            have hfits := hroom hne
            rw [Arrival.hasRoom_iff hP hslot] at hfits
            obtain ⟨y, hy, hover⟩ := hfull
            exact absurd (hfits y hy) (not_le.mpr hover)
          have hfound := found_denyCount (p := p) (· = 0) rfl hnone a.call.time
          rw [hfound, hcost, Int32.toInt_zero, Int.cast_zero, add_zero, tostring,
            DecimalText.parse_print_zero] at hread
          obtain rfl := Option.some.inj hread
          have hzero : (F64.fin 0).toI64.toUInt64 = 0 := by decide +kernel
          simp [atLabel, hzero, h.2 label]
    · rw [hfailed hreached]
      exact h.2 label

end Limitr
