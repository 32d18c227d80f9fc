import Limitr.BucketIsolation
import Limitr.FailingOpen

/-!
# Which requests are the same request

The handler fills in a domain and a cost where they are absent, and cuts the limit
key at its first colon; a key without a colon gets the prefix `default`.  Two
requests that agree after this are one request: in no run can one be told from
the other.

Nothing else is lost on the way.  Requests that differ in the domain, the prefix or
the cost show in the metrics even when Redis cannot be reached, and requests that
differ in the actual key alone leave different keys in Redis
(`interchangeable_iff`).
-/

namespace Limitr

open MachineRuns SeparatedNames

/-- Putting one request in the place of the other, anywhere in a run, changes no
answer of the run and nothing of what it leads to. -/
def Interchangeable (p : Platform) (a b : CheckRequest) : Prop :=
  ∀ before cache call after,
    (trace (serve p) .start (before ++ ⟨cache, a, call⟩ :: after)).map Firing.output =
        (trace (serve p) .start (before ++ ⟨cache, b, call⟩ :: after)).map Firing.output ∧
      served p (before ++ ⟨cache, a, call⟩ :: after) =
        served p (before ++ ⟨cache, b, call⟩ :: after)

/-- Two limit keys that are cut into the same parts: they are equal, or one has no
colon and the other has it behind the prefix `default`. -/
def SameLimitKey (limitKey limitKey' : String) : Prop :=
  limitKey = limitKey' ∨
    (':' ∉ limitKey.toList ∧ limitKey' = "default:" ++ limitKey) ∨
    (':' ∉ limitKey'.toList ∧ limitKey = "default:" ++ limitKey')

variable {p : Platform} {a b : CheckRequest}

/-! ## Names -/

/-- The parts of a limit key that has a colon give it back. -/
theorem splitLimitKey_of_mem {limitKey : String} (h : ':' ∈ limitKey.toList) :
    (splitLimitKey limitKey).1 ++ ":" ++ (splitLimitKey limitKey).2 = limitKey := by
  rw [← String.toList_inj, splitLimitKey]
  cases hcut : cut ':' limitKey.toList with
  | none => exact absurd h (cut_eq_none_iff.mp hcut)
  | some parts =>
      have hcolon : ":".toList = [':'] := rfl
      rw [(cut_eq_some_iff.mp hcut).2]
      simp [hcolon]

theorem splitLimitKey_of_not_mem {limitKey : String} (h : ':' ∉ limitKey.toList) :
    splitLimitKey limitKey = ("default", limitKey) := by
  rw [splitLimitKey, cut_eq_none_iff.mpr h]

/-- The prefix `default` in front of a colon is cut off again. -/
theorem splitLimitKey_default (limitKey : String) :
    splitLimitKey ("default:" ++ limitKey) = ("default", limitKey) := by
  have hcut : cut ':' ("default:" ++ limitKey).toList =
      some ("default".toList, limitKey.toList) := by
    apply cut_eq_some_iff.mpr
    refine ⟨by decide, ?_⟩
    rw [String.toList_append]
    rfl
  rw [splitLimitKey, hcut]
  simp

/-- **Limit keys with the same parts.** -/
theorem splitLimitKey_eq_iff (limitKey limitKey' : String) :
    splitLimitKey limitKey = splitLimitKey limitKey' ↔ SameLimitKey limitKey limitKey' := by
  constructor
  · intro h
    by_cases hk : ':' ∈ limitKey.toList <;> by_cases hk' : ':' ∈ limitKey'.toList
    · left
      rw [← splitLimitKey_of_mem hk, ← splitLimitKey_of_mem hk', h]
    · right; right
      refine ⟨hk', ?_⟩
      rw [← splitLimitKey_of_mem hk, h, splitLimitKey_of_not_mem hk']
      rfl
    · right; left
      refine ⟨hk, ?_⟩
      rw [← splitLimitKey_of_mem hk', ← h, splitLimitKey_of_not_mem hk]
      rfl
    · left
      rw [splitLimitKey_of_not_mem hk, splitLimitKey_of_not_mem hk'] at h
      exact (Prod.mk.inj h).2
  · intro h
    rcases h with rfl | ⟨hk, rfl⟩ | ⟨hk', rfl⟩
    · rfl
    · rw [splitLimitKey_default, splitLimitKey_of_not_mem hk]
    · rw [splitLimitKey_default, splitLimitKey_of_not_mem hk']

/-- Two requests come to one name when they agree on the domain, once it is filled
in, and on the parts of the limit key. -/
theorem name_eq_iff : a.name = b.name ↔
    a.domain.getD "default" = b.domain.getD "default" ∧ SameLimitKey a.limitKey b.limitKey := by
  rw [← splitLimitKey_eq_iff, Prod.ext_iff, CheckRequest.name, CheckRequest.name, bucketName,
    bucketName, BucketName.mk.injEq]

/-! ## The same request -/

/-- Requests of one name and one cost are answered alike, from any state. -/
theorem serve_eq_of_name_eq (hname : a.name = b.name) (hcost : a.cost.getD 1 = b.cost.getD 1)
    (cache : ConfigCache) (call : RedisCall) (s : ServiceState) :
    serve p s ⟨cache, a, call⟩ = serve p s ⟨cache, b, call⟩ := by
  simp only [serve, RateLimiterService.consumeAndCheckLimit, policiesFor, hname, hcost]

theorem interchangeable_of_name_eq (hname : a.name = b.name)
    (hcost : a.cost.getD 1 = b.cost.getD 1) : Interchangeable p a b := by
  intro before cache call after
  have hserve := serve_eq_of_name_eq (p := p) hname hcost cache call
    (final (serve p) .start before)
  constructor
  · simp only [trace_append, trace_cons, List.map_append, List.map_cons, fire_output, hserve]
  · rw [served, served, final_append, final_append, final_cons, final_cons, hserve]

/-! ## Different requests -/

/-- A request on an unreachable Redis, answered by a new process. -/
def unreached (request : CheckRequest) : Arrival :=
  ⟨oneTokenCache, request, ⟨.down "connection refused", .ofSeconds 0⟩⟩

/-- It is counted under its domain and prefix, with its cost. -/
theorem served_unreached (p : Platform) (request : CheckRequest) :
    (served p [unreached request]).metrics.requestsTotal =
        atLabel (fun _ => 0) (request.name.domain, request.name.prefixKey, "true") (· + 1) ∧
      (served p [unreached request]).metrics.tokensConsumedTotal =
        atLabel (fun _ => 0) (request.name.domain, request.name.prefixKey)
          (fun total => total + ((request.cost.getD 1).toInt : ℚ)) :=
  ⟨rfl, rfl⟩

/-- Counting once tells the labels apart. -/
theorem label_eq_of_counted {Label : Type} [DecidableEq Label] {l l' : Label}
    (h : atLabel (fun _ => (0 : ℚ)) l (· + 1) = atLabel (fun _ => 0) l' (· + 1)) : l = l' := by
  by_contra hne
  have hl := congrFun h l
  simp [atLabel, hne] at hl

/-- Within one domain and prefix, different actual keys have different Redis keys. -/
theorem name_eq_of_redisKey_eq {name name' : BucketName} (hdomain : name.domain = name'.domain)
    (hpre : name.prefixKey = name'.prefixKey) (h : name.redisKey = name'.redisKey) :
    name = name' := by
  rw [← String.toList_inj, redisKey_toList, redisKey_toList, List.append_cancel_left_eq] at h
  simp only [Names.joined, BucketName.names, hdomain, hpre, List.append_cancel_left_eq,
    List.cons.injEq, true_and] at h
  cases name
  cases name'
  rw [BucketName.mk.injEq]
  exact ⟨hdomain, hpre, String.toList_inj.mp h⟩

/-- The first visit to an absent key at the start of time leaves a bucket there:
no cost is large enough for `SETEX` to refuse it. -/
theorem fresh_visit_stores (p : Platform) (cost : Int32) :
    (visit p .oneToken none ⟨cost, .ofSeconds 0⟩).2 ≠ none := by
  have hcost : (cost.toInt : ℚ) ≤ 2 ^ 31 := by exact_mod_cast le_of_lt cost.toInt_lt
  have hlongest : longestExpire (.ofSeconds 0) = 9223372036854775 := by decide
  have hpolicy : ∀ x ∈ ValidPolicies.oneToken.policies.zipIdx, x.1.burst = 1 ∧ x.1.flow = 1 := by
    decide +kernel
  have hlives : (foundBucket (expireKept p none (.ofSeconds 0))
      (RawTime.ofSeconds 0).now).expireTime (RawTime.ofSeconds 0).now
        (Request.mk cost (.ofSeconds 0)).tokens ValidPolicies.oneToken.policies ≤
          longestExpire (.ofSeconds 0) := by
    rw [expireTime_le_iff, hlongest]
    intro x hx
    have hfound : (foundBucket (expireKept p none (.ofSeconds 0))
        (RawTime.ofSeconds 0).now).nextLevel (RawTime.ofSeconds 0).now
          (Request.mk cost (.ofSeconds 0)).tokens x = cost.toInt := by
      rw [Bucket.nextLevel, found_leakedLevel (settledKept_none (t := 0)) _ hx, leakedAt_none,
        zero_add]
      rfl
    obtain ⟨hburst, hflow⟩ := hpolicy x hx
    rw [hfound, hburst, hflow, one_mul, max_le_iff]
    norm_num at hcost ⊢
    linarith
  have hreturns : ∃ outcome, ∃ e : ℤ,
      (visit p .oneToken none ⟨cost, .ofSeconds 0⟩).1 = .ok outcome ∧
        outcome.write.expireTime = .fin e ∧ 1 ≤ e ∧
        e * 1000 + (RawTime.ofSeconds 0).millis ≤ maxI64 := visit_returns_iff.mpr hlives
  obtain ⟨outcome, e, houtcome, _⟩ := hreturns
  obtain ⟨k, hk, _⟩ := visit_write houtcome
  rw [hk]
  exact Option.some_ne_none k

/-- A request on an empty Redis, answered by a new process. -/
def lone (request : CheckRequest) : Arrival := ⟨oneTokenCache, request, ⟨.up, .ofSeconds 0⟩⟩

/-- It leaves something under its key, whatever it costs. -/
theorem lone_stores (p : Platform) (request : CheckRequest) :
    (served p [lone request]).store request.name.redisKey ≠ none := by
  have hkey : (lone request).redisKey = request.name.redisKey := rfl
  have hstart : ServiceState.start.store request.name.redisKey = slotOf p none := rfl
  have hleft : (lone request).slotLeft p (slotOf p none) =
      (execute p (slotOf p none)
        (ValidPolicies.oneToken.call ⟨request.cost.getD 1, .ofSeconds 0⟩)).2 := rfl
  rw [served, final_cons, final_nil, serve_store, Store.set, hkey, if_pos rfl, hstart, hleft,
    execute_slotOf]
  intro h
  exact fresh_visit_stores p (request.cost.getD 1) (Option.map_eq_none_iff.mp h)

/-- And nothing under any other. -/
theorem lone_store_of_ne (p : Platform) (request : CheckRequest) {key : String}
    (hne : key ≠ request.name.redisKey) : (served p [lone request]).store key = none := by
  have hkey : (lone request).redisKey = request.name.redisKey := rfl
  rw [served, final_cons, final_nil, serve_store, Store.set, hkey, if_neg hne]
  rfl

/-- Interchangeable requests come to one name, at one cost. -/
theorem name_eq_of_interchangeable (h : Interchangeable p a b) :
    a.name = b.name ∧ a.cost.getD 1 = b.cost.getD 1 := by
  have hdown : served p [unreached a] = served p [unreached b] := (h [] _ _ []).2
  have hup : served p [lone a] = served p [lone b] := (h [] _ _ []).2
  have hlabel : (a.name.domain, a.name.prefixKey, "true") =
      (b.name.domain, b.name.prefixKey, "true") := by
    apply label_eq_of_counted
    rw [← (served_unreached p a).1, ← (served_unreached p b).1, hdown]
  obtain ⟨hdomain, hprefix⟩ : a.name.domain = b.name.domain ∧
      a.name.prefixKey = b.name.prefixKey := by
    simpa using hlabel
  constructor
  · by_contra hne
    have hkeys : a.name.redisKey ≠ b.name.redisKey := by
      intro heq
      apply hne
      exact name_eq_of_redisKey_eq hdomain hprefix heq
    apply lone_stores p a
    rw [hup]
    exact lone_store_of_ne p b hkeys
  · have htokens := congrFun (congrArg (fun s => s.metrics.tokensConsumedTotal) hdown)
      (a.name.domain, a.name.prefixKey)
    rw [(served_unreached p a).2, (served_unreached p b).2, hdomain, hprefix] at htokens
    simp only [atLabel, if_true, zero_add, Int.cast_inj] at htokens
    exact Int32.toInt_inj.mp htokens

/-- **The same request.**  In every run one request can be put in the place of
another exactly when their domains agree once they are filled in, their costs
agree once they are filled in, and their limit keys are equal or differ only in
the prefix `default` written out. -/
theorem interchangeable_iff (p : Platform) (a b : CheckRequest) :
    Interchangeable p a b ↔ a.domain.getD "default" = b.domain.getD "default" ∧
      SameLimitKey a.limitKey b.limitKey ∧ a.cost.getD 1 = b.cost.getD 1 := by
  rw [← and_assoc, ← name_eq_iff]
  exact ⟨name_eq_of_interchangeable, fun h => interchangeable_of_name_eq h.1 h.2⟩

end Limitr
