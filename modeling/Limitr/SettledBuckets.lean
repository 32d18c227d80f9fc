import Limitr.KeptBucket

/-!
# What holds of a bucket all along a run

Along a run under one list of policies a kept bucket stays `Settled`: its time
is the time it was written, no level is above its burst, and its time to live
is long enough for every burst to leak away.

A key that Redis drops therefore held nothing any more.  The level a policy
finds at a time, `leakedAt`, is the same whether or not the key was dropped
(`leakedAt_expireKept`), and it drains like one vessel from any time to any
later one (`leakedAt_drain`).
-/

namespace Limitr

open FluidLevel RunningExtremes MachineRuns

/-- The level a policy at a position finds at a time. -/
def leakedAt (kept : Kept) (x : ValidPolicy × ℕ) (t : ℚ) : ℚ :=
  (foundBucket kept t).leakedLevel t x.1 x.2

@[simp] theorem leakedAt_none (x : ValidPolicy × ℕ) (t : ℚ) : leakedAt none x t = 0 := by
  simp [leakedAt, foundBucket, Bucket.leakedLevel, Bucket.fresh, Bucket.level]

theorem leakedAt_some (k : KeptBucket) (x : ValidPolicy × ℕ) (t : ℚ) :
    leakedAt (some k) x t =
      drain x.1.flow (k.bucket.level x.2) (t - k.bucket.lastTime) := rfl

theorem leakedAt_nonneg (kept : Kept) (x : ValidPolicy × ℕ) (t : ℚ) :
    0 ≤ leakedAt kept x t := drain_nonneg

/-- What a run under `P` makes sure of whenever it writes a bucket. -/
structure Settled (P : ValidPolicies) (t : ℚ) (k : KeptBucket) : Prop where
  lastTime_eq : k.bucket.lastTime = k.writtenAt.now
  lastTime_le : k.bucket.lastTime ≤ t
  level_le : ∀ x ∈ P.policies.zipIdx, k.bucket.level x.2 ≤ x.1.burst
  outlives : ∀ x ∈ P.policies.zipIdx, x.1.burst ≤ x.1.flow * k.expireSeconds

/-- The bucket under a key is settled, if there is one. -/
def SettledKept (P : ValidPolicies) (t : ℚ) (kept : Kept) : Prop :=
  ∀ k, kept = some k → Settled P t k

variable {p : Platform} {P : ValidPolicies} {kept : Kept} {t s : ℚ} {x : ValidPolicy × ℕ}

theorem settledKept_none : SettledKept P t none := fun _ h => (nomatch h)

theorem SettledKept.expireKept (h : SettledKept P t kept) (now : RawTime) :
    SettledKept P t (expireKept p kept now) := by
  intro k hk
  exact h k (eq_some_of_expireKept hk)

/-! ## Levels and times to live -/

/-- The committed bucket holds the next level of each policy at its position. -/
theorem commit_level {b : Bucket} {now cost : ℚ} {policies : List ValidPolicy}
    (hx : x ∈ policies.zipIdx) :
    (b.commit now cost policies).level x.2 = b.nextLevel now cost x := by
  have hget : policies.zipIdx[x.2]? = some x := by
    have hpolicy := List.mem_zipIdx_iff_getElem?.mp hx
    simp [List.getElem?_zipIdx, hpolicy]
  simp [Bucket.level, Bucket.commit, List.getD, hget]

/-- The time to live covers the burst and the next level of every policy. -/
theorem le_flow_mul_expireTime {b : Bucket} {now cost : ℚ} {policies : List ValidPolicy}
    (hx : x ∈ policies.zipIdx) :
    max x.1.burst (b.nextLevel now cost x) ≤ x.1.flow * b.expireTime now cost policies := by
  have hceil : (b.timeToLive now cost x : ℤ) ≤ b.expireTime now cost policies :=
    le_runningMax (List.mem_map_of_mem hx)
  have hdiv : max x.1.burst (b.nextLevel now cost x) / x.1.flow ≤
      b.expireTime now cost policies :=
    le_trans (Int.le_ceil _) (Int.cast_le.mpr hceil)
  rw [mul_comm]
  exact (div_le_iff₀ x.1.flow_pos).mp hdiv

/-- A key lives for at least a second. -/
theorem expireTime_pos (P : ValidPolicies) (b : Bucket) (now cost : ℚ) :
    0 < b.expireTime now cost P.policies := by
  obtain ⟨x, hx⟩ := P.exists_mem_zipIdx
  have hcover : x.1.burst ≤ x.1.flow * b.expireTime now cost P.policies :=
    le_trans (le_max_left _ _) (le_flow_mul_expireTime hx)
  have hpos : 0 < x.1.flow * b.expireTime now cost P.policies :=
    lt_of_lt_of_le x.1.burst_rat_pos hcover
  have hexpire : (0 : ℚ) < b.expireTime now cost P.policies :=
    pos_of_mul_pos_right hpos (le_of_lt x.1.flow_pos)
  exact_mod_cast hexpire

/-- A found bucket keeps within the bursts, whether it was kept or is fresh. -/
theorem SettledKept.found_level_le (h : SettledKept P t kept) (hx : x ∈ P.policies.zipIdx)
    (now : ℚ) : (foundBucket kept now).level x.2 ≤ x.1.burst := by
  cases kept with
  | none =>
      have hfresh : (foundBucket none now).level x.2 = 0 := by
        simp [foundBucket, Bucket.fresh, Bucket.level]
      rw [hfresh]
      exact le_of_lt x.1.burst_rat_pos
  | some k => exact (h k rfl).level_le x hx

theorem SettledKept.found_lastTime_le (h : SettledKept P t kept) {now : ℚ} (hnow : t ≤ now) :
    (foundBucket kept now).lastTime ≤ now := by
  cases kept with
  | none => exact le_rfl
  | some k => exact le_trans (h k rfl).lastTime_le hnow

/-- **A visit leaves a settled bucket.** -/
theorem visit_settled {request : Request} (h : SettledKept P t kept) (ht : t ≤ request.now) :
    SettledKept P request.now (visit p P kept request).2 := by
  have hleft := h.expireKept (p := p) request.time
  have houtlives : ∀ (expire : ℕ), (expire : ℤ) =
      (foundBucket (expireKept p kept request.time) request.now).expireTime request.now
        request.tokens P.policies →
      ∀ x ∈ P.policies.zipIdx, x.1.burst ≤ x.1.flow * expire := by
    intro expire hexpire x hx
    have hcast : (expire : ℚ) = ((expire : ℤ) : ℚ) := (Int.cast_natCast expire).symm
    rw [hcast, hexpire]
    exact le_trans (le_max_left _ _) (le_flow_mul_expireTime hx)
  have hfound := fun x hx => hleft.found_level_le (x := x) hx request.now
  have hcases := visit_cases p P kept request
  generalize visit p P kept request = result at hcases ⊢
  cases hcases with
  | aborted hsetex =>
      intro k hk
      exact { hleft k hk with lastTime_le := le_trans (hleft k hk).lastTime_le ht }
  | committed expire hexpire hroom =>
      intro k hk
      cases hk
      refine ⟨rfl, le_rfl, ?_, houtlives expire hexpire⟩
      intro x hx
      rw [commit_level hx]
      exact hroom x hx
  | held expire hexpire hfull =>
      intro k hk
      cases hk
      exact ⟨rfl, le_rfl, hfound, houtlives expire hexpire⟩

/-! ## Leaking is one process -/

/-- A settled bucket has leaked away once its time to live has passed. -/
theorem Settled.leakedLevel_eq_zero {k : KeptBucket} (h : Settled P t k)
    (hpassed : k.writtenAt.now + k.expireSeconds ≤ s) (hx : x ∈ P.policies.zipIdx) :
    k.bucket.leakedLevel s x.1 x.2 = 0 := by
  have helapsed : (k.expireSeconds : ℚ) ≤ s - k.bucket.lastTime := by
    rw [h.lastTime_eq]
    linarith
  have hlevel : k.bucket.level x.2 ≤ x.1.flow * (s - k.bucket.lastTime) :=
    calc k.bucket.level x.2
        ≤ x.1.burst := h.level_le x hx
      _ ≤ x.1.flow * k.expireSeconds := h.outlives x hx
      _ ≤ x.1.flow * (s - k.bucket.lastTime) :=
          mul_le_mul_of_nonneg_left helapsed (le_of_lt x.1.flow_pos)
  exact drain_eq_zero hlevel

/-- **Dropping a key changes no level.**  What has expired has leaked away. -/
theorem leakedAt_expireKept (h : SettledKept P t kept) {now : RawTime}
    (hx : x ∈ P.policies.zipIdx) (hs : now.now ≤ s) :
    leakedAt (expireKept p kept now) x s = leakedAt kept x s := by
  cases kept with
  | none => rfl
  | some k =>
      cases hdropped : p.dropped k.writtenAt k.expireSeconds now with
      | false => simp [expireKept, Option.filter, hdropped]
      | true =>
          have hpassed := le_trans (p.dropped_after _ _ _ hdropped) hs
          have hleft : expireKept p (some k) now = none := by
            simp [expireKept, Option.filter, hdropped]
          rw [hleft, leakedAt_none]
          exact ((h k rfl).leakedLevel_eq_zero hpassed hx).symm

/-- The level at a later time is the level at an earlier one, drained. -/
theorem leakedAt_drain (kept : Kept) (x : ValidPolicy × ℕ) (hs : t ≤ s) :
    leakedAt kept x s = drain x.1.flow (leakedAt kept x t) (s - t) := by
  have hflow : 0 ≤ x.1.flow := le_of_lt x.1.flow_pos
  have helapsed : 0 ≤ s - t := sub_nonneg.mpr hs
  cases kept with
  | none => rw [leakedAt_none, leakedAt_none, drain_zero_level hflow helapsed]
  | some k =>
      have hsplit : s - k.bucket.lastTime = t - k.bucket.lastTime + (s - t) := by ring
      rw [leakedAt_some, leakedAt_some, drain_drain hflow helapsed, hsplit]

/-- At the time of its write a bucket holds its levels, clipped at zero. -/
theorem leakedAt_written (b : Bucket) (writtenAt : RawTime) (expire : ℕ)
    (x : ValidPolicy × ℕ) :
    leakedAt (some ⟨b, writtenAt, expire⟩) x b.lastTime = max 0 (b.level x.2) := by
  rw [leakedAt_some, sub_self, drain_zero_elapsed]

/-- The level the script leaks to is the level at the time of the request. -/
theorem found_leakedLevel (h : SettledKept P t kept) (now : RawTime)
    (hx : x ∈ P.policies.zipIdx) :
    (foundBucket (expireKept p kept now) now.now).leakedLevel now.now x.1 x.2 =
      leakedAt kept x now.now :=
  leakedAt_expireKept h hx le_rfl

theorem levelsFound_eq_leakedAt (h : SettledKept P t kept) (time : RawTime) :
    levelsFound p P.pairs (slotOf p kept) time =
      .ok (P.policies.zipIdx.map fun x => .fin (leakedAt kept x time.now)) := by
  rw [levelsFound_slotOf, List.map_congr_left fun x hx =>
    congrArg F64.fin (found_leakedLevel h time hx)]

/-- The least a held level can be: it was there, leaked, before. -/
theorem leakedLevel_le_level {b : Bucket} {now : ℚ} (hlast : b.lastTime ≤ now)
    (policy : ValidPolicy) (i : ℕ) : b.leakedLevel now policy i ≤ max 0 (b.level i) := by
  have hflow : 0 ≤ policy.flow := le_of_lt policy.flow_pos
  exact drain_le hflow (sub_nonneg.mpr hlast) (le_max_left _ _) (le_max_right _ _)

/-! ## Runs -/

/-- `Settled` is preserved by every visit whose clock has not gone back. -/
theorem visit_preserves (p : Platform) (P : ValidPolicies) :
    Preserves (visit p P) Request.now (SettledKept P) (fun _ => True) :=
  fun _ _ _ hsettled _ ht => visit_settled hsettled ht

/-- Where a run stops, the bucket is settled for whatever comes. -/
theorem final_settled {requests rest : List Request}
    (hclock : (requests ++ rest).Pairwise (fun r r' => r.now ≤ r'.now)) :
    ∃ t, SettledKept P t (final (visit p P) none requests) ∧ ∀ r ∈ rest, t ≤ r.now :=
  final_invariant (visit_preserves p P) settledKept_none
    (fun r _ => r.time.now_nonneg) hclock (fun _ _ => trivial)

/-- An invariant of visits holds at every execution of a run. -/
theorem executions_invariant {inv : ℚ → Kept → Prop} {allowed : Request → Prop}
    (hstep : Preserves (visit p P) Request.now inv allowed) (hnone : inv 0 none)
    {requests : List Request} (hclock : requests.Pairwise (fun r r' => r.now ≤ r'.now))
    (hallowed : ∀ r ∈ requests, allowed r) :
    ∀ e ∈ executions p none (requests.map P.call), ∃ kept request t, inv t kept ∧
      t ≤ request.now ∧ allowed request ∧
      e = Firing.map (slotOf p) P.call (fire (visit p P) kept request) := by
  intro e he
  rw [executions_none_eq] at he
  obtain ⟨v, hv, rfl⟩ := List.mem_map.mp he
  obtain ⟨t, hinv, ht, hr, hfire⟩ := trace_invariant hstep hnone
    (fun r _ => r.time.now_nonneg) hclock hallowed v hv
  exact ⟨v.before, v.input, t, hinv, ht, hr, by rw [← hfire]⟩

/-- **Every execution of a run** is a visit to a settled bucket. -/
theorem executions_settled {requests : List Request}
    (hclock : requests.Pairwise (fun r r' => r.now ≤ r'.now)) :
    ∀ e ∈ executions p none (requests.map P.call), ∃ kept request t, SettledKept P t kept ∧
      t ≤ request.now ∧ e = Firing.map (slotOf p) P.call (fire (visit p P) kept request) := by
  intro e he
  obtain ⟨kept, request, t, hsettled, ht, _, hfire⟩ := executions_invariant
    (visit_preserves p P) settledKept_none hclock (fun _ _ => trivial) e he
  exact ⟨kept, request, t, hsettled, ht, hfire⟩

end Limitr
