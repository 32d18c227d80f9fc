import Limitr.KeptBucket
import Limitr.MachineRuns
import Limitr.RateLimiter
import Limitr.SeparatedNames

/-!
# The service

The handlers of `ConsumeAndCheckLimit`, `GetCurrentConfig`, `GetBucketStatus`
and `HealthCheck`, and runs of the first over what Redis holds.

A run is a list of arrivals in the order in which Redis executes their scripts.
Every arrival comes with the cache in force when it was handled, so that a run
may contain reloads, and with the call it makes.  `serve_store` says what an
arrival does to the store.  Every slot of a run started on an empty Redis
therefore holds nothing or a packed bucket, and what every visit makes sure of
holds of each of them (`served_stores`).
-/

namespace Limitr

open MachineRuns SeparatedNames

structure CheckRequest where
  domain : Option String
  limitKey : String
  cost : Option Int32

structure CheckResponse where
  allowed : Bool
  remainingCapacity : F64
  limitingRateIndex : Int32
  denyCount : Int64
  deriving DecidableEq

structure StatusRequest where
  domain : Option String
  limitKey : String

structure StatusResponse where
  levels : List BucketLevel
  lastUpdateTimestamp : Int64
  denyCount : Int64
  deriving DecidableEq

structure ConfigResponse where
  configs : List DomainConfig
  deriving DecidableEq

inductive ServingStatus where
  | unknown
  | serving
  | notServing

/-- The number a status is sent as. -/
def ServingStatus.code : ServingStatus → Int32
  | unknown => 0
  | serving => 1
  | notServing => 2

structure HealthCheckResponse where
  status : Int32
  message : String
  deriving DecidableEq

/-- The prefix and the actual key of a limit key. -/
def splitLimitKey (limitKey : String) : String × String :=
  match cut ':' limitKey.toList with
  | some (prefixKey, actualKey) => (String.ofList prefixKey, String.ofList actualKey)
  | none => ("default", limitKey)

/-- The domain, prefix and actual key a request comes to. -/
structure BucketName where
  domain : String
  prefixKey : String
  key : String
  deriving DecidableEq

def bucketName (domain : Option String) (limitKey : String) : BucketName :=
  ⟨domain.getD "default", (splitLimitKey limitKey).1, (splitLimitKey limitKey).2⟩

def CheckRequest.name (request : CheckRequest) : BucketName :=
  bucketName request.domain request.limitKey

/-- The key the bucket is stored under. -/
def BucketName.redisKey (name : BucketName) : String :=
  constructBucketKey name.domain name.prefixKey name.key

/-- The policies a request is checked against. -/
def policiesFor (cache : ConfigCache) (request : CheckRequest) : List RatePolicy :=
  cache.getPolicies request.name.domain request.name.prefixKey

namespace RateLimiterService

variable (p : Platform) (cache : ConfigCache) (call : RedisCall)

def consumeAndCheckLimit (request : CheckRequest) (s : ServiceState) :
    Except Status CheckResponse × ServiceState :=
  let name := request.name
  let cost := request.cost.getD 1
  let policies := policiesFor cache request
  match checkLimit p call name.domain name.prefixKey name.key policies cost s with
  | (.error e, s) => (.error e.toStatus, s)
  | (.ok decision, s) =>
      let recorded := (((s.metrics.recordRequest name.domain name.prefixKey
        decision.allowed).recordTokensConsumed name.domain name.prefixKey
        cost).recordRemainingCapacity name.domain name.prefixKey
        decision.remainingCapacity).recordLimitingIndex name.domain name.prefixKey
        decision.limitingRateIndex
      let metrics :=
        if decision.allowed then recorded
        else recorded.recordDenied name.domain name.prefixKey decision.denyCount
      (.ok ⟨decision.allowed, decision.remainingCapacity, decision.limitingRateIndex,
        decision.denyCount⟩, ⟨s.store, metrics⟩)

def getCurrentConfig : ConfigResponse := ⟨cache.getFullConfig.domains⟩

def getBucketStatus (request : StatusRequest) (s : ServiceState) : Except Status StatusResponse :=
  let name := bucketName request.domain request.limitKey
  match Limitr.getBucketStatus p call name.domain name.prefixKey name.key s with
  | .error e => .error e.toStatus
  | .ok status => .ok ⟨status.levels, status.lastUpdateTimestamp, status.denyCount⟩

/-- The server answers that it is up; Redis is not asked. -/
def healthCheck : HealthCheckResponse := ⟨ServingStatus.serving.code, "Server is healthy"⟩

end RateLimiterService

/-! ## Runs -/

/-- A request for tokens, the cache in force, and the call of Redis it makes. -/
structure Arrival where
  cache : ConfigCache
  request : CheckRequest
  call : RedisCall

/-- The key an arrival goes to. -/
def Arrival.redisKey (a : Arrival) : String := a.request.name.redisKey

/-- The pairs of flow rate and burst an arrival sends. -/
def Arrival.pairs (a : Arrival) : List (F64 × Int64) :=
  (policiesFor a.cache a.request).map fun policy =>
    (policy.flowRatePerSecond, policy.burstCapacity)

/-- The slot an arrival leaves under its key. -/
def Arrival.slotLeft (p : Platform) (a : Arrival) (slot : Slot) : Slot :=
  slotAfterCall p a.call (a.request.cost.getD 1) a.pairs slot

/-- The service handles one arrival. -/
def serve (p : Platform) (s : ServiceState) (a : Arrival) :
    Except Status CheckResponse × ServiceState :=
  RateLimiterService.consumeAndCheckLimit p a.cache a.call a.request s

/-- The service before any request. -/
def ServiceState.start : ServiceState := ⟨fun _ => none, .start⟩

/-- What a run of arrivals leads to. -/
def served (p : Platform) (arrivals : List Arrival) : ServiceState :=
  final (serve p) .start arrivals

variable (p : Platform) (a : Arrival) (s : ServiceState)

/-- **What an arrival does to the store.** -/
theorem serve_store : (serve p s a).2.store =
    s.store.set a.redisKey (a.slotLeft p (s.store a.redisKey)) := by
  have hstore := checkLimit_store p a.call (a.request.cost.getD 1) s a.request.name.domain
    a.request.name.prefixKey a.request.name.key (policiesFor a.cache a.request)
  unfold serve RateLimiterService.consumeAndCheckLimit
  dsimp only
  refine Eq.trans ?_ hstore
  generalize checkLimit p a.call a.request.name.domain a.request.name.prefixKey
    a.request.name.key (policiesFor a.cache a.request) (a.request.cost.getD 1) s = result
  obtain ⟨decision, s'⟩ := result
  cases decision with
  | error e => rfl
  | ok decision => rfl

/-- An answer depends on the slot of the arrival's own key alone. -/
theorem serve_congr {s s' : ServiceState} (h : s.store a.redisKey = s'.store a.redisKey) :
    (serve p s a).1 = (serve p s' a).1 := by
  have hdecision := checkLimit_congr p a.call (a.request.cost.getD 1) h
    (policiesFor a.cache a.request)
  unfold serve RateLimiterService.consumeAndCheckLimit
  dsimp only
  revert hdecision
  generalize checkLimit p a.call a.request.name.domain a.request.name.prefixKey
    a.request.name.key (policiesFor a.cache a.request) (a.request.cost.getD 1) s = result
  generalize checkLimit p a.call a.request.name.domain a.request.name.prefixKey
    a.request.name.key (policiesFor a.cache a.request) (a.request.cost.getD 1) s' = result'
  obtain ⟨decision, t⟩ := result
  obtain ⟨decision', t'⟩ := result'
  intro heq
  dsimp only at heq
  subst heq
  cases decision with
  | error e => rfl
  | ok decision => rfl

/-! ## Slots hold buckets -/

/-- Every slot holds nothing or a packed bucket, and the property holds of it. -/
def Stores (p : Platform) (inv : Kept → Prop) (s : ServiceState) : Prop :=
  ∀ key, ∃ kept, s.store key = slotOf p kept ∧ inv kept

variable {p} {a} {s}

/-- With valid policies an arrival is one visit, or none when Redis is not
reached. -/
theorem slotLeft_slotOf {P : ValidPolicies} (hP : P.raw = policiesFor a.cache a.request)
    (kept : Kept) : a.slotLeft p (slotOf p kept) = slotOf p kept ∨
      a.slotLeft p (slotOf p kept) =
        slotOf p (visit p P kept ⟨a.request.cost.getD 1, a.call.time⟩).2 := by
  have hpairs : a.pairs = P.pairs := by rw [Arrival.pairs, ← hP, ValidPolicies.pairs]
  have hvisit : (execute p (slotOf p kept) ⟨a.pairs, a.request.cost.getD 1, a.call.time⟩).2 =
      slotOf p (visit p P kept ⟨a.request.cost.getD 1, a.call.time⟩).2 := by
    rw [hpairs]
    exact congrArg Prod.snd
      (execute_slotOf p P kept ⟨a.request.cost.getD 1, a.call.time⟩)
  unfold Arrival.slotLeft slotAfterCall
  cases a.call.link with
  | down error => exact Or.inl rfl
  | lost error => exact Or.inr hvisit
  | up => exact Or.inr hvisit

/-- What an arrival makes of what is stored: whatever held of every key holds on,
and what its visit establishes holds of its own key. -/
theorem serve_stores_of_visit {inv inv' : Kept → Prop} (h : Stores p inv s)
    (hcache : a.cache.Valid) (hlater : ∀ kept, inv kept → inv' kept)
    (hvisit : ∀ (P : ValidPolicies) kept, P.raw = policiesFor a.cache a.request →
      s.store a.redisKey = slotOf p kept → inv kept →
        inv' (visit p P kept ⟨a.request.cost.getD 1, a.call.time⟩).2) :
    Stores p inv' (serve p s a).2 := by
  intro key
  rw [serve_store, Store.set]
  by_cases hkey : key = a.redisKey
  · rw [if_pos hkey]
    obtain ⟨P, hP⟩ := hcache a.request.name.domain a.request.name.prefixKey
    obtain ⟨kept, hkept, hinv⟩ := h a.redisKey
    have hleft := hvisit P kept hP hkept hinv
    rw [hkept]
    rcases slotLeft_slotOf hP kept with hslot | hslot
    · exact ⟨kept, hslot, hlater kept hinv⟩
    · exact ⟨_, hslot, hleft⟩
  · rw [if_neg hkey]
    obtain ⟨kept, hkept, hinv⟩ := h key
    exact ⟨kept, hkept, hlater kept hinv⟩

section Invariants

variable {Time : Type} [Preorder Time] (clock : RawTime → Time) (inv : Time → Kept → Prop)
  {t : Time}

/-- A property of keys that every visit establishes anew, and that lasts, is
kept by every arrival. -/
theorem serve_stores
    (hvisit : ∀ (P : ValidPolicies) t kept (r : Request), inv t kept → t ≤ clock r.time →
      inv (clock r.time) (visit p P kept r).2)
    (hlater : ∀ t t' kept, t ≤ t' → inv t kept → inv t' kept)
    (h : Stores p (inv t) s) (hcache : a.cache.Valid) (ht : t ≤ clock a.call.time) :
    Stores p (inv (clock a.call.time)) (serve p s a).2 :=
  serve_stores_of_visit h hcache (fun kept hinv => hlater _ _ kept ht hinv)
    (fun P kept _ _ hinv => hvisit P _ kept ⟨a.request.cost.getD 1, a.call.time⟩ hinv ht)

/-- **What holds of every key after a run.** -/
theorem served_stores {arrivals : List Arrival}
    (hvisit : ∀ (P : ValidPolicies) t kept (r : Request), inv t kept → t ≤ clock r.time →
      inv (clock r.time) (visit p P kept r).2)
    (hlater : ∀ t t' kept, t ≤ t' → inv t kept → inv t' kept) (hnone : inv t none)
    (hstart : ∀ a ∈ arrivals, t ≤ clock a.call.time)
    (hclock : arrivals.Pairwise (fun a b => clock a.call.time ≤ clock b.call.time))
    (hcaches : ∀ a ∈ arrivals, a.cache.Valid) :
    ∃ t', Stores p (inv t') (served p arrivals) := by
  have hpreserves : Preserves (serve p) (fun a => clock a.call.time)
      (fun t s => Stores p (inv t) s) (fun a => a.cache.Valid) :=
    fun t s a h hcache ht => serve_stores clock inv hvisit hlater h hcache ht
  have hempty : Stores p (inv t) .start := fun _ => ⟨none, rfl, hnone⟩
  have hall : ∀ a ∈ arrivals ++ [], t ≤ clock a.call.time := by simpa using hstart
  have hpairs : (arrivals ++ []).Pairwise
      (fun a b : Arrival => clock a.call.time ≤ clock b.call.time) := by
    rwa [List.append_nil]
  obtain ⟨t', hstores, _⟩ := final_invariant hpreserves hempty hall hpairs hcaches
  exact ⟨t', hstores⟩

end Invariants

/-- A property of keys that every visit keeps, whatever the clock. -/
theorem served_stores_always (inv : Kept → Prop) {arrivals : List Arrival}
    (hvisit : ∀ (P : ValidPolicies) kept (r : Request), inv kept → inv (visit p P kept r).2)
    (hnone : inv none) (hcaches : ∀ a ∈ arrivals, a.cache.Valid) :
    Stores p inv (served p arrivals) := by
  obtain ⟨_, hstores⟩ := served_stores (fun _ => ()) (fun _ => inv) (t := ())
    (fun P _ kept r h _ => hvisit P kept r h) (fun _ _ _ _ h => h) hnone (fun _ _ => le_rfl)
    (List.pairwise_of_forall fun _ _ => le_rfl) hcaches
  exact hstores

/-- What every visit keeps holds of the key of every arrival when it is served. -/
theorem served_firings_always (inv : Kept → Prop) {arrivals : List Arrival}
    (hvisit : ∀ (P : ValidPolicies) kept (r : Request), inv kept → inv (visit p P kept r).2)
    (hnone : inv none) (hcaches : ∀ a ∈ arrivals, a.cache.Valid) :
    ∀ x ∈ trace (serve p) .start arrivals,
      (∃ kept, x.before.store x.input.redisKey = slotOf p kept ∧ inv kept) ∧
        x.input.cache.Valid ∧ x = fire (serve p) x.before x.input := by
  have hpreserves : Preserves (serve p) (fun _ => ()) (fun _ s => Stores p inv s)
      (fun a => a.cache.Valid) :=
    fun _ s a h hcache _ => serve_stores_of_visit h hcache (fun _ hinv => hinv)
      (fun P kept _ _ hinv => hvisit P kept _ hinv)
  have hempty : Stores p inv .start := fun _ => ⟨none, rfl, hnone⟩
  intro x hx
  obtain ⟨_, hstores, _, hcache, hfire⟩ := trace_invariant hpreserves (t := ()) hempty
    (fun _ _ => le_rfl) (List.pairwise_of_forall fun _ _ => le_rfl) hcaches x hx
  exact ⟨hstores x.input.redisKey, hcache, hfire⟩

end Limitr
