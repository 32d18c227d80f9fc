import Limitr.BucketIsolation
import Limitr.RateLimiterService
import Limitr.ReferenceHost

/-!
# Reading a bucket's status back

The script packs three values one after another; the Rust side decodes one
array of three.  What it meets first is the number of seconds, so decoding
fails on every state the script can write (`decodeBucketState_pack`), and the
handler answers with an empty status.

The empty status happens to be right for a bucket without levels, with a deny
count of zero, written in the first second of time (`status_reads_back_iff`).
No run leaves such a bucket unless its clock goes back: whoever is denied on a
bucket without levels has asked for more than a burst, which counts.
-/

namespace Limitr

open FluidLevel

/-- The status gives back what the bucket holds. -/
structure ReadsBack (status : StatusResponse) (b : Bucket) : Prop where
  levels : status.levels.map BucketLevel.currentLevel = b.tokenLevels.map F64.fin
  denyCount : F64.ofInt status.denyCount.toInt = .fin b.denyCount
  lastUpdate : status.lastUpdateTimestamp = (F64.fin b.lastTime).toI64

variable {p : Platform} {kept : Kept} {s : ServiceState} {request : StatusRequest}
  {time : RawTime}

/-! ## The status is empty -/

/-- **Nothing the script packs is decoded.** -/
theorem decodeBucketState_pack (b : Bucket) :
    ∃ e, decodeBucketState p (p.pack b.state.values) = .error e := by
  have hpack : p.pack b.state.values = p.encode b.state.lastTime ++
      ([b.state.denyCount, b.state.tokenLevels].flatMap p.encode) := rfl
  have hnumber : ¬b.state.lastTime.IsTriple := by
    intro h
    obtain ⟨_, _, _, h⟩ := h
    cases h
  obtain ⟨e, he⟩ := p.fromSlice_other b.state.lastTime
    ([b.state.denyCount, b.state.tokenLevels].flatMap p.encode) trivial hnumber
  exact ⟨.serializationError ("Failed to decode bucket state: " ++ e), by
    rw [decodeBucketState, hpack, he]⟩

/-- The limiter finds an empty status, whatever is kept. -/
theorem getBucketStatus_eq_empty {domain prefixKey key : String}
    (h : s.store (constructBucketKey domain prefixKey key) = slotOf p kept) :
    getBucketStatus p ⟨.up, time⟩ domain prefixKey key s = .ok .empty := by
  have hstate : getBucketState p ⟨.up, time⟩ (constructBucketKey domain prefixKey key) s =
      .ok ((expireKept p kept time).map fun k => p.pack k.bucket.state.values) := by
    simp only [getBucketState, h, expire_slotOf]
    cases expireKept p kept time with
    | none => rfl
    | some k => rfl
  unfold getBucketStatus
  rw [hstate]
  cases expireKept p kept time with
  | none => rfl
  | some k =>
      obtain ⟨e, he⟩ := decodeBucketState_pack (p := p) k.bucket
      simp [bind, Except.bind, he, pure, Except.pure]

/-- **The handler answers with an empty status.** -/
theorem status_eq_empty
    (h : s.store (bucketName request.domain request.limitKey).redisKey = slotOf p kept) :
    RateLimiterService.getBucketStatus p ⟨.up, time⟩ request s = .ok ⟨[], 0, 0⟩ := by
  unfold RateLimiterService.getBucketStatus
  dsimp only
  rw [getBucketStatus_eq_empty h]
  rfl

/-- The bucket an empty status is right for. -/
theorem readsBack_empty_iff {b : Bucket} (hlast : 0 ≤ b.lastTime) :
    ReadsBack ⟨[], 0, 0⟩ b ↔ b.tokenLevels = [] ∧ b.denyCount = 0 ∧ b.lastTime < 1 := by
  rw [← F64.toI64_eq_zero_iff hlast]
  constructor
  · intro h
    have hdeny : F64.fin 0 = F64.fin b.denyCount := h.denyCount
    exact ⟨List.map_eq_nil_iff.mp h.levels.symm, (F64.fin.inj hdeny).symm, h.lastUpdate.symm⟩
  · intro h
    obtain ⟨hlevels, hdeny, hzero⟩ := h
    exact ⟨by rw [hlevels]; rfl, by rw [hdeny]; rfl, hzero.symm⟩

/-! ## What runs leave -/

/-- The bucket was stamped with the time it was written at. -/
def Stamped (kept : Kept) : Prop :=
  ∀ k, kept = some k → k.bucket.lastTime = k.writtenAt.now

theorem stamped_none : Stamped none := fun _ h => (nomatch h)

theorem visit_stamped {P : ValidPolicies} {r : Request} (h : Stamped kept) :
    Stamped (visit p P kept r).2 := by
  have hcases := visit_cases p P kept r
  generalize visit p P kept r = result at hcases ⊢
  cases hcases with
  | aborted hsetex => exact fun k hk => h k (eq_some_of_expireKept hk)
  | committed expire hexpire hroom =>
      intro k hk
      cases hk
      rfl
  | held expire hexpire hfull =>
      intro k hk
      cases hk
      rfl

/-- The bucket was written no later than `t`, and if it has no levels it counts
a denial. -/
def Counted (t : ℚ) (kept : Kept) : Prop :=
  ∀ k, kept = some k → k.bucket.lastTime ≤ t ∧ (k.bucket.tokenLevels = [] → 0 < k.bucket.denyCount)

theorem counted_none {t : ℚ} : Counted t none := fun _ h => (nomatch h)

/-- A denied request on a bucket without levels asks for more than some burst. -/
theorem tokens_pos_of_full {P : ValidPolicies} {r : Request} {b : Bucket}
    (hlast : b.lastTime ≤ r.now) (hlevels : b.tokenLevels = [])
    (hfull : ∃ x ∈ P.policies.zipIdx, x.1.burst < b.nextLevel r.now r.tokens x) :
    0 < r.tokens := by
  obtain ⟨x, _, hover⟩ := hfull
  have hzero : b.leakedLevel r.now x.1 x.2 = 0 := by
    have hlevel : b.level x.2 = 0 := by simp [Bucket.level, hlevels]
    rw [Bucket.leakedLevel, hlevel]
    exact drain_zero_level (le_of_lt x.1.flow_pos) (sub_nonneg.mpr hlast)
  rw [Bucket.nextLevel, hzero, zero_add] at hover
  exact lt_trans x.1.burst_rat_pos hover

theorem visit_counted {P : ValidPolicies} {r : Request} {t : ℚ} (h : Counted t kept)
    (ht : t ≤ r.now) : Counted r.now (visit p P kept r).2 := by
  have hleft : Counted t (expireKept p kept r.time) :=
    fun k hk => h k (eq_some_of_expireKept hk)
  have hfound : (foundBucket (expireKept p kept r.time) r.now).lastTime ≤ r.now ∧
      ((foundBucket (expireKept p kept r.time) r.now).tokenLevels = [] →
        0 ≤ (foundBucket (expireKept p kept r.time) r.now).denyCount) := by
    cases hkept : expireKept p kept r.time with
    | none => exact ⟨le_rfl, fun _ => le_rfl⟩
    | some k =>
        obtain ⟨hlast, hcount⟩ := hleft k hkept
        exact ⟨le_trans hlast ht, fun hlevels => le_of_lt (hcount hlevels)⟩
  have hcases := visit_cases p P kept r
  generalize visit p P kept r = result at hcases ⊢
  cases hcases with
  | aborted hsetex =>
      intro k hk
      obtain ⟨hlast, hcount⟩ := hleft k hk
      exact ⟨le_trans hlast ht, hcount⟩
  | committed expire hexpire hroom =>
      intro k hk
      cases hk
      refine ⟨le_rfl, fun hlevels => ?_⟩
      exact absurd hlevels (by simpa [Bucket.commit] using P.nonempty)
  | held expire hexpire hfull =>
      intro k hk
      cases hk
      refine ⟨le_rfl, fun hlevels => ?_⟩
      have htokens := tokens_pos_of_full hfound.1 hlevels hfull
      exact add_pos_of_nonneg_of_pos (hfound.2 hlevels) htokens

/-- A present slot holds a bucket, which the script reads. -/
theorem exists_bucket_of_present
    (hpresent : p.expire (slotOf p kept) time ≠ none) :
    ∃ k, kept = some k ∧
      readState p (p.expire (slotOf p kept) time) time = k.bucket.state := by
  rw [expire_slotOf] at hpresent ⊢
  cases hleft : expireKept p kept time with
  | none => exact absurd (by rw [hleft]; rfl) hpresent
  | some k =>
      refine ⟨k, eq_some_of_expireKept hleft, ?_⟩
      rw [readState_slotOf]
      rfl

/-- **Status after a run.**  As long as the key is present, the status reads
back what was stored exactly when no level is stored, the deny count is zero
and the bucket was written in the first second of time; and in no run whose
clock does not go back. -/
theorem status_reads_back_iff (p : Platform) (arrivals : List Arrival)
    (request : StatusRequest) (time : RawTime) (hcaches : ∀ a ∈ arrivals, a.cache.Valid)
    (hpresent : p.expire ((served p arrivals).store
      (bucketName request.domain request.limitKey).redisKey) time ≠ none) :
    ∃ (b : Bucket) (status : StatusResponse),
      readState p (p.expire ((served p arrivals).store
        (bucketName request.domain request.limitKey).redisKey) time) time = b.state ∧
      RateLimiterService.getBucketStatus p ⟨.up, time⟩ request (served p arrivals) =
        .ok status ∧
      (ReadsBack status b ↔ b.tokenLevels = [] ∧ b.denyCount = 0 ∧ b.lastTime < 1) ∧
      (arrivals.Pairwise (fun a a' => a.call.time.now ≤ a'.call.time.now) →
        ¬ReadsBack status b) := by
  obtain ⟨kept, hkept, hstamped⟩ := served_stores_always (p := p) Stamped
    (fun _ _ _ => visit_stamped) stamped_none hcaches
    (bucketName request.domain request.limitKey).redisKey
  rw [hkept] at hpresent ⊢
  obtain ⟨k, hk, hread⟩ := exists_bucket_of_present hpresent
  have hlast : 0 ≤ k.bucket.lastTime := by
    rw [hstamped k hk]
    exact k.writtenAt.now_nonneg
  have hiff := readsBack_empty_iff hlast
  refine ⟨k.bucket, ⟨[], 0, 0⟩, hread, status_eq_empty hkept, hiff, ?_⟩
  intro hclock hreads
  obtain ⟨hlevels, hdeny, _⟩ := hiff.mp hreads
  obtain ⟨t, hstores⟩ := served_stores RawTime.now Counted (t := 0) (p := p)
    (fun _ _ _ _ h ht => visit_counted h ht)
    (fun _ _ _ hle h k hk => ⟨le_trans (h k hk).1 hle, (h k hk).2⟩) counted_none
    (fun a _ => a.call.time.now_nonneg) hclock hcaches
  obtain ⟨kept', hkept', hcounted⟩ :=
    hstores (bucketName request.domain request.limitKey).redisKey
  rw [hkept] at hkept'
  rw [hkept'] at hpresent hread
  obtain ⟨k', hk', hread'⟩ := exists_bucket_of_present hpresent
  have hsame : k.bucket = k'.bucket := Bucket.state_injective (hread.symm.trans hread')
  rw [hsame] at hlevels hdeny
  exact absurd hdeny (ne_of_gt ((hcounted k' hk').2 hlevels))

/-- The status after a single check. -/
theorem status_reads_back_iff_after_one_check :
    ∃ (b : Bucket) (status : StatusResponse),
      readState referenceHost (referenceHost.expire
        ((served referenceHost [firstArrival ⟨some "a", "b:c", none⟩]).store
          (bucketName (some "a") "b:c").redisKey) (.ofSeconds 0)) (.ofSeconds 0) = b.state ∧
      RateLimiterService.getBucketStatus referenceHost ⟨.up, .ofSeconds 0⟩ ⟨some "a", "b:c"⟩
        (served referenceHost [firstArrival ⟨some "a", "b:c", none⟩]) = .ok status ∧
      (ReadsBack status b ↔ b.tokenLevels = [] ∧ b.denyCount = 0 ∧ b.lastTime < 1) := by
  have hpresent : (referenceHost.expire
      ((served referenceHost [firstArrival ⟨some "a", "b:c", none⟩]).store
        (bucketName (some "a") "b:c").redisKey) (.ofSeconds 0)).isSome = true := by
    decide +kernel
  obtain ⟨b, status, hread, hstatus, hiff, _⟩ := status_reads_back_iff referenceHost
    [firstArrival ⟨some "a", "b:c", none⟩] ⟨some "a", "b:c"⟩ (.ofSeconds 0)
    (by simpa [firstArrival] using oneTokenCache_valid) (Option.isSome_iff_ne_none.mp hpresent)
  exact ⟨b, status, hread, hstatus, hiff⟩

/-- **A level that was stored and is not reported.**  One token has been
consumed at the start of time; the status has no level. -/
theorem status_loses_level :
    ∃ b : Bucket, b.tokenLevels = [1] ∧
      readState referenceHost (referenceHost.expire
        ((served referenceHost [firstArrival ⟨some "a", "b:c", none⟩]).store
          (bucketName (some "a") "b:c").redisKey) (.ofSeconds 0)) (.ofSeconds 0) = b.state ∧
      RateLimiterService.getBucketStatus referenceHost ⟨.up, .ofSeconds 0⟩ ⟨some "a", "b:c"⟩
        (served referenceHost [firstArrival ⟨some "a", "b:c", none⟩]) = .ok ⟨[], 0, 0⟩ ∧
      ¬ReadsBack ⟨[], 0, 0⟩ b := by
  have hslot := firstArrival_slot referenceHost ⟨some "a", "b:c", none⟩
  have hbucket : foundBucket (expireKept referenceHost
      (visit referenceHost .oneToken none ⟨1, .ofSeconds 0⟩).2 (.ofSeconds 0))
      (RawTime.ofSeconds 0).now = ⟨0, 0, [1]⟩ := by
    decide +kernel
  refine ⟨⟨0, 0, [1]⟩, rfl, ?_, status_eq_empty hslot, fun h => nomatch h.levels⟩
  change readState referenceHost (referenceHost.expire ((served referenceHost
    [firstArrival ⟨some "a", "b:c", none⟩]).store
      (CheckRequest.mk (some "a") "b:c" none).name.redisKey) (.ofSeconds 0)) (.ofSeconds 0) = _
  rw [hslot, expire_slotOf, readState_slotOf, hbucket]

end Limitr
