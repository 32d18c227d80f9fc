import Limitr.DecimalReadback
import Limitr.RateLimiterService
import Limitr.ReferenceHost

/-!
# What the limiter tells its caller

A reply of the script reaches the caller as a decision: the flag, a number that
went through fourteen printed digits, and the limiting index.  `answered_cases`
says once what the decision is for the bucket the script found, and what is
kept under the key afterwards.

Two of its fields are followed further.  The limiting index is documented as
counting from zero, but is handed on as Lua counts, so that it names the policy
behind the limiting one, or none (`limiting_index_never_named`).  The deny count
is the sum of the costs denied since the last allowed request, or since the key
was absent, and survives the transport as long as it has at most fourteen
digits (`deny_count_is_streak`).
-/

namespace Limitr

open DecimalText RunningExtremes MachineRuns

/-- The script runs to its return and its reply reaches the limiter. -/
def Reached (p : Platform) (call : RedisCall) (key : String) (cost : Int32)
    (pairs : List (F64 × Int64)) (s : ServiceState) : Prop :=
  call.link = .up ∧ (execute p (s.store key) ⟨pairs, cost, call.time⟩).1.isOk = true

/-! ## From the reply to the decision -/

section Calls

variable (p : Platform) (call : RedisCall) (domain prefixKey key : String) (cost : Int32)
  (policies : List RatePolicy) (s : ServiceState)

/-- A reply that reaches the limiter is its decision. -/
theorem checkLimit_of_outcome {outcome : ScriptOutcome} (hlink : call.link = .up)
    (houtcome : (execute p (s.store (constructBucketKey domain prefixKey key))
      ⟨policies.map fun policy => (policy.flowRatePerSecond, policy.burstCapacity), cost,
        call.time⟩).1 = .ok outcome) :
    ∃ x, parse (tostring outcome.reply.capacityOrDeny) = some x ∧
      (checkLimit p call domain prefixKey key policies cost s).1 =
        .ok (ScriptResponse.toDecision ⟨decide (Int64.ofInt outcome.reply.allowed = 1), x,
          (Int64.ofNat outcome.reply.limitingIndex).toInt32⟩) := by
  obtain ⟨x, hx, hparse⟩ := parseScriptResponse_values outcome.reply
  refine ⟨x, hx, ?_⟩
  unfold checkLimit executeRateLimitScript
  simp only [hlink, houtcome, hparse]

/-- Without a reply the limiter fails open. -/
theorem checkLimit_of_not_reached
    (h : ¬Reached p call (constructBucketKey domain prefixKey key) cost
      (policies.map fun policy => (policy.flowRatePerSecond, policy.burstCapacity)) s) :
    (checkLimit p call domain prefixKey key policies cost s).1 = .ok failOpen := by
  have hanswer := executeRateLimitScript_isOk_iff p call
    (constructBucketKey domain prefixKey key) cost
    (policies.map fun policy => (policy.flowRatePerSecond, policy.burstCapacity)) s
  unfold Reached at h
  rw [← hanswer] at h
  unfold checkLimit
  dsimp only
  generalize executeRateLimitScript p call (constructBucketKey domain prefixKey key) cost
    (policies.map fun policy => (policy.flowRatePerSecond, policy.burstCapacity)) s = result
    at h ⊢
  obtain ⟨response, s'⟩ := result
  cases response with
  | error e => rfl
  | ok response => exact absurd rfl h

/-- The client records no tokens. -/
theorem executeRateLimitScript_counters (pairs : List (F64 × Int64)) :
    (executeRateLimitScript p call key cost pairs s).2.metrics.tokensConsumedTotal =
        s.metrics.tokensConsumedTotal ∧
      (executeRateLimitScript p call key cost pairs s).2.metrics.denyCountTotal =
        s.metrics.denyCountTotal := by
  unfold executeRateLimitScript
  cases call.link with
  | down error => exact ⟨rfl, rfl⟩
  | lost error => exact ⟨rfl, rfl⟩
  | up =>
      cases (execute p (s.store key) ⟨pairs, cost, call.time⟩).1 with
      | error e => exact ⟨rfl, rfl⟩
      | ok outcome => exact ⟨rfl, rfl⟩

/-- Nor does the limiter. -/
theorem checkLimit_counters :
    (checkLimit p call domain prefixKey key policies cost s).2.metrics.tokensConsumedTotal =
        s.metrics.tokensConsumedTotal ∧
      (checkLimit p call domain prefixKey key policies cost s).2.metrics.denyCountTotal =
        s.metrics.denyCountTotal := by
  have hcounters := executeRateLimitScript_counters p call (constructBucketKey domain prefixKey key)
    cost s (policies.map fun policy => (policy.flowRatePerSecond, policy.burstCapacity))
  unfold checkLimit
  dsimp only
  generalize executeRateLimitScript p call (constructBucketKey domain prefixKey key) cost
    (policies.map fun policy => (policy.flowRatePerSecond, policy.burstCapacity)) s = result
    at hcounters ⊢
  obtain ⟨response, s'⟩ := result
  cases response with
  | error e => exact hcounters
  | ok response => exact hcounters

end Calls

/-- The limiting index as it reaches the caller. -/
def Bucket.sentIndex (b : Bucket) (now cost : ℚ) (policies : List ValidPolicy) : Int32 :=
  (Int64.ofNat ((b.limiting now cost policies).2 + 1)).toInt32

/-- The two decisions there can be on a bucket, and the bucket they leave. -/
inductive DecisionCase (P : ValidPolicies) (b : Bucket) (now cost : ℚ) :
    LimitDecision → Bucket → Prop
  | allowed (x : F64)
      (hread : parse (tostring (.fin (b.limiting now cost P.policies).1)) = some x)
      (hroom : ∀ y ∈ P.policies.zipIdx, b.nextLevel now cost y ≤ y.1.burst) :
      DecisionCase P b now cost ⟨true, x, b.sentIndex now cost P.policies, 0⟩
        (b.commit now cost P.policies)
  | denied (x : F64) (hread : parse (tostring (.fin (b.denyCount + cost))) = some x)
      (hfull : ∃ y ∈ P.policies.zipIdx, y.1.burst < b.nextLevel now cost y) :
      DecisionCase P b now cost ⟨false, -x, b.sentIndex now cost P.policies, x.toI64⟩
        (b.hold now cost)

variable {p : Platform} {P : ValidPolicies} {kept : Kept} {s : ServiceState}

/-- **An answered request.**  The caller gets the decision on the bucket the
script found, and the bucket it leaves is kept under the key. -/
theorem answered_cases {call : RedisCall} {domain prefixKey key : String} {cost : Int32}
    (hslot : s.store (constructBucketKey domain prefixKey key) = slotOf p kept)
    (hreached : Reached p call (constructBucketKey domain prefixKey key) cost P.pairs s) :
    ∃ decision b expire,
      (checkLimit p call domain prefixKey key P.raw cost s).1 = .ok decision ∧
      (checkLimit p call domain prefixKey key P.raw cost s).2.store
        (constructBucketKey domain prefixKey key) = slotOf p (some ⟨b, call.time, expire⟩) ∧
      DecisionCase P (foundBucket (expireKept p kept call.time) call.time.now) call.time.now
        cost.toInt decision b := by
  obtain ⟨hlink, hok⟩ := hreached
  have hexecute : execute p (s.store (constructBucketKey domain prefixKey key))
      ⟨P.pairs, cost, call.time⟩ = ((visit p P kept ⟨cost, call.time⟩).1,
        slotOf p (visit p P kept ⟨cost, call.time⟩).2) := by
    rw [hslot]
    exact execute_slotOf p P kept ⟨cost, call.time⟩
  have hstore : (checkLimit p call domain prefixKey key P.raw cost s).2.store
      (constructBucketKey domain prefixKey key) =
        slotOf p (visit p P kept ⟨cost, call.time⟩).2 := by
    rw [checkLimit_store, Store.set, if_pos rfl, slotAfterCall, hlink]
    exact congrArg Prod.snd hexecute
  have hdecision : ∀ outcome, (visit p P kept ⟨cost, call.time⟩).1 = .ok outcome → _ :=
    fun outcome houtcome => checkLimit_of_outcome p call domain prefixKey key cost P.raw s hlink
      ((congrArg Prod.fst hexecute).trans houtcome)
  rw [hexecute] at hok
  rw [hstore]
  have hcases := visit_cases p P kept ⟨cost, call.time⟩
  generalize visit p P kept ⟨cost, call.time⟩ = result at hcases hdecision hok ⊢
  cases hcases with
  | aborted hsetex => cases hok
  | committed expire hexpire hroom =>
      obtain ⟨x, hread, hresult⟩ := hdecision _ rfl
      exact ⟨_, _, expire, hresult, rfl, .allowed x hread hroom⟩
  | held expire hexpire hfull =>
      obtain ⟨x, hread, hresult⟩ := hdecision _ rfl
      exact ⟨_, _, expire, hresult, rfl, .denied x hread hfull⟩

/-! ## The limiting index -/

/-- The index counts from zero and names the first policy with the least room. -/
def NamesLimiting (rooms : List ℚ) (index : Int32) : Prop :=
  0 ≤ index.toInt ∧ ∃ room, IsFirstMin rooms room index.toInt.toNat

/-- The index that is sent, as a whole number modulo two to the thirty-second. -/
theorem toInt_sentIndex (b : Bucket) (now cost : ℚ) (policies : List ValidPolicy) :
    (b.sentIndex now cost policies).toInt =
      (((b.limiting now cost policies).2 + 1 : ℕ) : ℤ).bmod (2 ^ 32) := by
  rw [Bucket.sentIndex, Int64.toInt_toInt32, Int64.toInt_ofNat',
    Int.bmod_bmod_of_dvd (by decide)]

/-- The index that is sent is one too high. -/
theorem sentIndex_spec (P : ValidPolicies) (b : Bucket) (now cost : ℚ) :
    ¬NamesLimiting (P.policies.zipIdx.map (b.remaining now cost))
        (b.sentIndex now cost P.policies) ∧
      (P.policies.length < 2 ^ 31 → ∃ room position,
        IsFirstMin (P.policies.zipIdx.map (b.remaining now cost)) room position ∧
          (b.sentIndex now cost P.policies).toInt = position + 1) := by
  obtain ⟨_, hfirst⟩ := b.limiting_spec P now cost
  have hsent := toInt_sentIndex b now cost P.policies
  have hlength := hfirst.lt_length
  rw [List.length_map, List.length_zipIdx] at hlength
  constructor
  · intro h
    obtain ⟨hnonneg, room, hnamed⟩ := h
    have hposition := hfirst.unique hnamed
    have hmod : (((b.limiting now cost P.policies).2 + 1 : ℕ) : ℤ).bmod (2 ^ 32) %
        ((2 ^ 32 : ℕ) : ℤ) = (((b.limiting now cost P.policies).2 + 1 : ℕ) : ℤ) %
          ((2 ^ 32 : ℕ) : ℤ) := Int.bmod_emod
    rw [← hsent] at hmod
    omega
  · intro hshort
    refine ⟨_, _, hfirst, ?_⟩
    rw [hsent, Int.bmod_eq_of_le (by omega) (by omega)]
    push_cast
    ring

/-- What is stored after any run is a bucket, whatever the service was asked. -/
theorem served_slot (p : Platform) {arrivals : List Arrival}
    (hcaches : ∀ a ∈ arrivals, a.cache.Valid) (key : String) :
    ∃ kept, (served p arrivals).store key = slotOf p kept := by
  obtain ⟨kept, hkept, _⟩ := served_stores_always (p := p) (fun _ => True)
    (fun _ _ _ _ => trivial) trivial hcaches key
  exact ⟨kept, hkept⟩

/-- **The limiting index never names the limiting policy.**  After any run, a
reply that reaches the limiter makes it return an index that is not the position
of the first policy with the least room: for any list that an index can count,
it is one more. -/
theorem limiting_index_never_named (p : Platform) (arrivals : List Arrival)
    (hcaches : ∀ a ∈ arrivals, a.cache.Valid) (P : ValidPolicies) (call : RedisCall)
    (domain prefixKey key : String) (cost : Int32)
    (hreached : Reached p call (constructBucketKey domain prefixKey key) cost P.pairs
      (served p arrivals)) :
    ∃ (decision : LimitDecision) (b : Bucket),
      (checkLimit p call domain prefixKey key P.raw cost (served p arrivals)).1 = .ok decision ∧
      readState p (p.expire ((served p arrivals).store
        (constructBucketKey domain prefixKey key)) call.time) call.time = b.state ∧
      ¬NamesLimiting (P.policies.zipIdx.map (b.remaining call.time.now cost.toInt))
        decision.limitingRateIndex ∧
      (P.policies.length < 2 ^ 31 → ∃ room position,
        IsFirstMin (P.policies.zipIdx.map (b.remaining call.time.now cost.toInt)) room position ∧
          decision.limitingRateIndex.toInt = position + 1) := by
  obtain ⟨kept, hslot⟩ := served_slot p hcaches (constructBucketKey domain prefixKey key)
  obtain ⟨decision, b, expire, hdecision, _, hcase⟩ := answered_cases hslot hreached
  have hread : readState p (p.expire ((served p arrivals).store
      (constructBucketKey domain prefixKey key)) call.time) call.time =
        (foundBucket (expireKept p kept call.time) call.time.now).state := by
    rw [hslot, expire_slotOf, readState_slotOf]
  have hspec := sentIndex_spec P (foundBucket (expireKept p kept call.time) call.time.now)
    call.time.now cost.toInt
  cases hcase with
  | allowed x hparse hroom => exact ⟨_, _, hdecision, hread, hspec⟩
  | denied x hparse hfull => exact ⟨_, _, hdecision, hread, hspec⟩

/-- The first request for the only token there is. -/
theorem limiting_index_never_named_on_first_request :
    ∃ (decision : LimitDecision) (b : Bucket),
      (checkLimit referenceHost ⟨.up, .ofSeconds 0⟩ "d" "p" "k" ValidPolicies.oneToken.raw 1
        (served referenceHost [])).1 = .ok decision ∧
      ¬NamesLimiting (ValidPolicies.oneToken.policies.zipIdx.map
        (b.remaining (RawTime.ofSeconds 0).now (1 : Int32).toInt)) decision.limitingRateIndex := by
  obtain ⟨decision, b, hdecision, _, hnamed, _⟩ := limiting_index_never_named referenceHost
    [] (fun _ h => nomatch h) .oneToken ⟨.up, .ofSeconds 0⟩ "d" "p" "k" 1 ⟨rfl, by decide +kernel⟩
  exact ⟨decision, b, hdecision, hnamed⟩

/-- **The only policy is number one.**  Its index counting from zero is zero, and
one is past the end of the list. -/
theorem only_policy_is_number_one :
    (checkLimit referenceHost ⟨.up, .ofSeconds 0⟩ "d" "p" "k" ValidPolicies.oneToken.raw 1
        .start).1 = .ok ⟨true, 0, 1, 0⟩ ∧
      ¬(1 : Int32).toInt < ValidPolicies.oneToken.raw.length := by
  decide +kernel

/-! ## The deny count -/

section Streaks

variable (p : Platform) (P : ValidPolicies) (domain prefixKey key : String)

/-- One check on a key with Redis up. -/
def check (s : ServiceState) (request : Request) :
    Except RateLimitError LimitDecision × ServiceState :=
  checkLimit p ⟨.up, request.time⟩ domain prefixKey key P.raw request.cost s

/-- A check of a run, as `MachineRuns.trace` records it. -/
abbrev Check := Firing ServiceState Request (Except RateLimitError LimitDecision)

def checkDenied (x : Check) : Bool :=
  match x.output with
  | .ok decision => !decision.allowed
  | .error _ => false

/-- The check found nothing under the key. -/
def foundAbsent (bucketKey : String) (x : Check) : Bool :=
  (p.expire (x.before.store bucketKey) x.input.time).isNone

/-- The costs denied in a row, of checks listed from the last to the first: back
to the last allowed one, or to the last one that found the key absent. -/
def denialStreak (bucketKey : String) : List Check → ℤ
  | [] => 0
  | x :: earlier =>
      if checkDenied x then
        x.input.cost.toInt + if foundAbsent p bucketKey x then 0 else denialStreak bucketKey earlier
      else 0

/-- The stored deny count is the streak so far. -/
def KeepsStreak (past : List Check) (s : ServiceState) : Prop :=
  ∃ kept, s.store (constructBucketKey domain prefixKey key) = slotOf p kept ∧
    ∀ k, kept = some k → k.bucket.denyCount =
      (denialStreak p (constructBucketKey domain prefixKey key) past.reverse : ℤ)

/-- What a check answers, with the checks before it listed in order. -/
def TellsStreak (past : List Check) (x : Check) : Prop :=
  ∃ decision, x.output = .ok decision ∧ (decision.allowed = true → decision.denyCount = 0) ∧
    (decision.allowed = false →
      |denialStreak p (constructBucketKey domain prefixKey key) (x :: past.reverse)| < 10 ^ 14 →
      decision.denyCount.toInt =
        denialStreak p (constructBucketKey domain prefixKey key) (x :: past.reverse))

variable {p P domain prefixKey key}

/-- **One check keeps the streak and tells it.** -/
theorem check_streak {past : List Check} {request : Request}
    (h : KeepsStreak p domain prefixKey key past s)
    (hreached : Reached p ⟨.up, request.time⟩ (constructBucketKey domain prefixKey key)
      request.cost P.pairs s) :
    KeepsStreak p domain prefixKey key (past ++ [fire (check p P domain prefixKey key) s request])
        (check p P domain prefixKey key s request).2 ∧
      TellsStreak p domain prefixKey key past
        (fire (check p P domain prefixKey key) s request) := by
  obtain ⟨kept, hslot, hstreak⟩ := h
  obtain ⟨decision, b, expire, hdecision, hstore, hcase⟩ := answered_cases hslot hreached
  generalize hx : fire (check p P domain prefixKey key) s request = x
  have houtput : x.output = .ok decision := by
    rw [← hx]
    exact hdecision
  have hfound : (foundBucket (expireKept p kept request.time) request.now).denyCount =
      ((if foundAbsent p (constructBucketKey domain prefixKey key) x then 0
        else denialStreak p (constructBucketKey domain prefixKey key) past.reverse : ℤ) : ℚ) := by
    rw [foundAbsent, ← hx, fire_before, fire_input, hslot, expire_slotOf]
    cases hleft : expireKept p kept request.time with
    | none => simp [slotOf, foundBucket, Bucket.fresh]
    | some k =>
        have hkept := hstreak k (eq_some_of_expireKept hleft)
        simpa [slotOf, foundBucket] using hkept
  have hcost : x.input.cost = request.cost := by rw [← hx, fire_input]
  rw [KeepsStreak, List.reverse_concat]
  cases hcase with
  | allowed y hread hroom =>
      have hdenied : checkDenied x = false := by rw [checkDenied, houtput]; rfl
      have hzero : denialStreak p (constructBucketKey domain prefixKey key)
          (x :: past.reverse) = 0 := by
        rw [denialStreak, hdenied]
        rfl
      refine ⟨⟨_, hstore, ?_⟩, _, houtput, fun _ => rfl, fun h => Bool.noConfusion h⟩
      intro k hk
      cases hk
      rw [hzero]
      rfl
  | denied y hread hfull =>
      have hdenied : checkDenied x = true := by rw [checkDenied, houtput]; rfl
      have hsum : denialStreak p (constructBucketKey domain prefixKey key) (x :: past.reverse) =
          request.cost.toInt + if foundAbsent p (constructBucketKey domain prefixKey key) x then 0
            else denialStreak p (constructBucketKey domain prefixKey key) past.reverse := by
        rw [denialStreak, hdenied, if_pos rfl, hcost]
      have hstored : (foundBucket (expireKept p kept request.time) request.now).denyCount +
          request.cost.toInt = (denialStreak p (constructBucketKey domain prefixKey key)
            (x :: past.reverse) : ℤ) := by
        rw [hfound, hsum]
        push_cast
        ring
      refine ⟨⟨_, hstore, ?_⟩, _, houtput, fun h => Bool.noConfusion h, ?_⟩
      · intro k hk
        cases hk
        exact hstored
      · intro _ hsmall
        change parse (tostring (.fin ((foundBucket (expireKept p kept request.time)
          request.now).denyCount + request.cost.toInt))) = some y at hread
        rw [hstored, tostring, parse_print_whole hsmall] at hread
        obtain rfl := Option.some.inj hread
        rw [abs_lt] at hsmall
        exact F64.toInt_toI64_intCast (by omega) (by omega)

/-- **The deny count is the streak of denied costs.**  Take a run of checks on
one key that starts with the key absent, and in which every script runs to its
return.  Each check returns the deny count zero if it is allowed, and if it is
denied the sum of the costs denied up to it, as long as that has at most fourteen
digits. -/
theorem deny_count_is_streak (p : Platform) (P : ValidPolicies) (domain prefixKey key : String)
    {s : ServiceState} {requests : List Request}
    (habsent : s.store (constructBucketKey domain prefixKey key) = none)
    (hreached : ∀ x ∈ trace (check p P domain prefixKey key) s requests,
      Reached p ⟨.up, x.input.time⟩ (constructBucketKey domain prefixKey key) x.input.cost
        P.pairs x.before)
    {before after : List Check} {x : Check}
    (hrun : trace (check p P domain prefixKey key) s requests = before ++ x :: after) :
    TellsStreak p domain prefixKey key before x := by
  have hstart : KeepsStreak p domain prefixKey key [] s :=
    ⟨none, habsent, fun _ hk => nomatch hk⟩
  have hstep : ∀ past s request, KeepsStreak p domain prefixKey key past s →
      Reached p ⟨.up, request.time⟩ (constructBucketKey domain prefixKey key) request.cost
        P.pairs s →
      KeepsStreak p domain prefixKey key
        (past ++ [fire (check p P domain prefixKey key) s request])
        (check p P domain prefixKey key s request).2 :=
    fun past s request hkeeps hgood => (check_streak hkeeps hgood).1
  obtain ⟨hstreak, hfire⟩ := history_split hstep hstart hreached hrun
  have hx := hreached x (hrun ▸ List.mem_append_right before List.mem_cons_self)
  rw [hfire]
  exact (check_streak hstreak hx).2

/-- One token is there, and then two more are asked for. -/
theorem deny_count_is_streak_on_second_check :
    ∃ before x, trace (check referenceHost .oneToken "d" "p" "k") .start
        [⟨1, .ofSeconds 0⟩, ⟨2, .ofSeconds 0⟩] = before ++ [x] ∧
      TellsStreak referenceHost "d" "p" "k" before x := by
  have hreached : ∀ x ∈ trace (check referenceHost .oneToken "d" "p" "k") .start
      [⟨1, .ofSeconds 0⟩, ⟨2, .ofSeconds 0⟩],
      Reached referenceHost ⟨.up, x.input.time⟩ (constructBucketKey "d" "p" "k") x.input.cost
        ValidPolicies.oneToken.pairs x.before := by
    intro x hx
    rw [trace_cons, trace_cons, trace_nil] at hx
    rcases List.mem_cons.mp hx with rfl | hx
    · exact ⟨rfl, by decide +kernel⟩
    · obtain rfl := List.mem_singleton.mp hx
      exact ⟨rfl, by decide +kernel⟩
  have hrun : trace (check referenceHost .oneToken "d" "p" "k") .start
      [⟨1, .ofSeconds 0⟩, ⟨2, .ofSeconds 0⟩] = [_] ++ _ :: [] := rfl
  exact ⟨_, _, hrun, deny_count_is_streak referenceHost .oneToken "d" "p" "k" rfl hreached hrun⟩

end Streaks

end Limitr
