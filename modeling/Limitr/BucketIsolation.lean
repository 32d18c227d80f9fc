import Limitr.RateLimiterService
import Limitr.ReferenceHost

/-!
# Isolation of buckets

A request belongs to a domain, a prefix and an actual key, and its bucket is
stored under the three joined by colons.  The prefix has no colon, since the
limit key was cut at its first one; the domain and the actual key may have any
number, and nothing is escaped.

Two different triples share a Redis key exactly when the domain of one runs over
domain and prefix of the other (`redisKey_eq_iff`).  If none does, the arrivals
for one triple can be left out of any run without changing what is stored for
the other or any answer to it; if one does, a single arrival is enough to
change it (`isolated_iff`).
-/

namespace Limitr

open MachineRuns SeparatedNames

/-- The names as texts to be joined. -/
def BucketName.names (name : BucketName) : Names Char :=
  ⟨name.domain.toList, name.prefixKey.toList, name.key.toList⟩

/-- The domain of `other` runs over the domain and the prefix of `name`. -/
def BucketName.OverrunBy (name other : BucketName) : Prop :=
  Overruns ':' name.names other.names

/-- What is stored for `name` and every answer to it are, in every run, what
they would be if the arrivals for `other` had never come. -/
def Isolated (p : Platform) (name other : BucketName) : Prop :=
  ∀ arrivals : List Arrival,
    (served p arrivals).store name.redisKey =
        (served p (arrivals.filter fun a => !decide (a.request.name = other))).store
          name.redisKey ∧
      watchedOutputs (serve p) (fun a => decide (a.request.name = name)) .start arrivals =
        watchedOutputs (serve p) (fun a => decide (a.request.name = name)) .start
          (arrivals.filter fun a => !decide (a.request.name = other))

/-! ## When two names share a key -/

theorem colon_not_mem_splitLimitKey (limitKey : String) :
    ':' ∉ (splitLimitKey limitKey).1.toList := by
  unfold splitLimitKey
  cases hcut : cut ':' limitKey.toList with
  | none =>
      change ':' ∉ "default".toList
      decide
  | some parts =>
      rw [String.toList_ofList]
      exact (cut_eq_some_iff.mp hcut).1

theorem redisKey_toList (name : BucketName) :
    name.redisKey.toList = "bucket:".toList ++ name.names.joined ':' := by
  have hcolon : ":".toList = [':'] := rfl
  simp [BucketName.redisKey, constructBucketKey, Names.joined, BucketName.names, hcolon]

/-- **Two requests share a key** exactly when they come to the same triple or
the domain of one runs over domain and prefix of the other. -/
theorem redisKey_eq_iff (a b : CheckRequest) :
    a.name.redisKey = b.name.redisKey ↔
      a.name = b.name ∨ a.name.OverrunBy b.name ∨ b.name.OverrunBy a.name := by
  have hnames : a.name.names = b.name.names ↔ a.name = b.name := by
    constructor
    · intro h
      obtain ⟨hdomain, hprefix, hkey⟩ := Names.mk.inj h
      cases ha : a.name
      cases hb : b.name
      rw [ha, hb] at hdomain hprefix hkey
      rw [BucketName.mk.injEq]
      exact ⟨String.toList_inj.mp hdomain, String.toList_inj.mp hprefix,
        String.toList_inj.mp hkey⟩
    · intro h
      rw [h]
  rw [← String.toList_inj, redisKey_toList, redisKey_toList, List.append_cancel_left_eq,
    joined_eq_iff (colon_not_mem_splitLimitKey a.limitKey)
      (colon_not_mem_splitLimitKey b.limitKey), hnames]
  rfl

/-! ## Isolation -/

/-- Names with different keys are isolated. -/
theorem isolated_of_redisKey_ne {p : Platform} {name other : BucketName}
    (hne : name.redisKey ≠ other.redisKey) : Isolated p name other := by
  intro arrivals
  refine unwinding (fun s : ServiceState => s.store name.redisKey)
    (fun a => decide (a.request.name = other)) _ ?_ ?_ rfl arrivals
  · intro s a ha
    have hother : a.request.name = other := of_decide_eq_true ha
    have hkey : name.redisKey ≠ a.redisKey := by
      rw [Arrival.redisKey, hother]
      exact hne
    constructor
    · rw [serve_store, Store.set, if_neg hkey]
    · apply decide_eq_false
      intro h
      apply hne
      rw [← hother, ← h]
  · intro s s' a _ hview
    constructor
    · rw [serve_store, serve_store, Store.set, Store.set]
      by_cases hkey : name.redisKey = a.redisKey
      · rw [if_pos hkey, if_pos hkey, ← hkey, hview]
      · rw [if_neg hkey, if_neg hkey, hview]
    · intro ha
      have hname : a.request.name = name := of_decide_eq_true ha
      apply serve_congr
      rw [Arrival.redisKey, hname]
      exact hview

/-- A cache with one policy for every key, a token a second. -/
def oneTokenCache : ConfigCache :=
  .new ⟨[], "default", "default", ValidPolicies.oneToken.raw⟩

theorem oneTokenCache_valid : oneTokenCache.Valid :=
  fun _ _ => ⟨.oneToken, rfl⟩

/-- A request for one token at the start of time. -/
def firstArrival (request : CheckRequest) : Arrival :=
  ⟨oneTokenCache, { request with cost := some 1 }, ⟨.up, .ofSeconds 0⟩⟩

/-- It is one visit to an absent key. -/
theorem firstArrival_slot (p : Platform) (request : CheckRequest) :
    (served p [firstArrival request]).store request.name.redisKey =
      slotOf p (visit p .oneToken none ⟨1, .ofSeconds 0⟩).2 := by
  have hslot : (firstArrival request).slotLeft p none =
      (execute p (slotOf p none) (ValidPolicies.oneToken.call ⟨1, .ofSeconds 0⟩)).2 := rfl
  have hkey : (firstArrival request).redisKey = request.name.redisKey := rfl
  have hstart : ServiceState.start.store (firstArrival request).redisKey = none := rfl
  rw [served, final_cons, final_nil, serve_store, Store.set, hkey, if_pos rfl, ← hkey, hstart,
    hslot, execute_slotOf]

/-- It leaves something under its key. -/
theorem firstArrival_stores (p : Platform) (request : CheckRequest) :
    (served p [firstArrival request]).store request.name.redisKey ≠ none := by
  have hsetex : setexSeconds (.ofSeconds 0)
      (.fin ((Bucket.fresh (RawTime.ofSeconds 0).now).expireTime (RawTime.ofSeconds 0).now
        (Request.mk 1 (.ofSeconds 0)).tokens ValidPolicies.oneToken.policies)) = .ok 1 := by
    decide +kernel
  have hstored : (visit p .oneToken none ⟨1, .ofSeconds 0⟩).2 ≠ none := by
    simp [visit, expireKept, foundBucket, hsetex]
  rw [firstArrival_slot]
  intro h
  exact hstored (Option.map_eq_none_iff.mp h)

/-- Names that share a key are not isolated. -/
theorem not_isolated_of_redisKey_eq {p : Platform} {name : BucketName} (request : CheckRequest)
    (h : name.redisKey = request.name.redisKey) : ¬Isolated p name request.name := by
  intro hisolated
  have hstore := (hisolated [firstArrival request]).1
  have hname : (firstArrival request).request.name = request.name := rfl
  rw [List.filter_cons_of_neg (by simp [hname]), List.filter_nil, h] at hstore
  exact firstArrival_stores p request hstore

/-- **Isolation.**  Two requests that come to different triples are isolated
from each other exactly when neither domain runs over domain and prefix of the
other. -/
theorem isolated_iff (p : Platform) {a b : CheckRequest} (hne : a.name ≠ b.name) :
    Isolated p a.name b.name ↔ ¬a.name.OverrunBy b.name ∧ ¬b.name.OverrunBy a.name := by
  have hkeys := redisKey_eq_iff a b
  rw [or_iff_right hne] at hkeys
  rw [← not_or, ← hkeys]
  exact ⟨fun h heq => not_isolated_of_redisKey_eq b heq h, isolated_of_redisKey_ne⟩

/-- Two keys of one domain and prefix. -/
theorem isolated_iff_on_one_prefix :
    Isolated referenceHost (bucketName (some "a") "b:c") (bucketName (some "a") "b:d") ↔
      ¬(bucketName (some "a") "b:c").OverrunBy (bucketName (some "a") "b:d") ∧
        ¬(bucketName (some "a") "b:d").OverrunBy (bucketName (some "a") "b:c") :=
  isolated_iff referenceHost (a := ⟨some "a", "b:c", none⟩) (b := ⟨some "a", "b:d", none⟩)
    (by decide)

/-- **Two tenants on one bucket.**  The key `b:c:d` of the domain `a` and the
key `c:d` of the domain `a:b` come to different triples and one bucket. -/
theorem colliding_domains_not_isolated :
    bucketName (some "a") "b:c:d" ≠ bucketName (some "a:b") "c:d" ∧
      ¬Isolated referenceHost (bucketName (some "a") "b:c:d") (bucketName (some "a:b") "c:d") :=
  ⟨by decide, not_isolated_of_redisKey_eq ⟨some "a:b", "c:d", none⟩ (by decide)⟩

end Limitr
