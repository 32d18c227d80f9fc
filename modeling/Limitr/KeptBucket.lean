import Limitr.BucketModel

/-!
# Buckets under a key

What Redis keeps under a bucket key is either nothing or a packed bucket with
its write time and its time to live.  `visit` is one request on such a key,
told in buckets; `execute_slotOf` proves that executing the script on the
packed bytes does the same, so a run of the script is a run of `visit` seen
through `slotOf` (`executions_eq`).

What one visit can do is said once, in `visit_cases`: it is aborted by `SETEX`
and leaves what it found, or it commits the next levels, or it holds the old
ones.
-/

namespace Limitr

open FluidLevel RunningExtremes MachineRuns

/-- A bucket under its key. -/
structure KeptBucket where
  bucket : Bucket
  writtenAt : RawTime
  expireSeconds : ℕ

/-- What is kept under a key, nothing when the key is absent. -/
abbrev Kept := Option KeptBucket

section Slots

variable (p : Platform)

/-- The entry Redis holds for a kept bucket. -/
def KeptBucket.entry (k : KeptBucket) : Entry :=
  ⟨.string (p.pack k.bucket.state.values), k.writtenAt, k.expireSeconds⟩

def slotOf (kept : Kept) : Slot := kept.map (KeptBucket.entry p)

/-- What is kept once Redis has dropped what has expired. -/
def expireKept (kept : Kept) (now : RawTime) : Kept :=
  kept.filter fun k => !p.dropped k.writtenAt k.expireSeconds now

/-- The bucket the script works on: a fresh one where the key is absent. -/
def foundBucket (kept : Kept) (now : ℚ) : Bucket :=
  (kept.map KeptBucket.bucket).getD (.fresh now)

/-- One request on a key, told in buckets. -/
def visit (P : ValidPolicies) (kept : Kept) (request : Request) :
    Except LuaError ScriptOutcome × Kept :=
  let left := expireKept p kept request.time
  let b := foundBucket left request.now
  match setexSeconds request.time
      (.fin (b.expireTime request.now request.tokens P.policies)) with
  | .error e => (.error e, left)
  | .ok expire =>
      (.ok (b.outcome request.now request.tokens P.policies),
        some ⟨b.step request.now request.tokens P.policies, request.time, expire⟩)

/-- One request for any number of tokens, told in buckets. -/
def consume (P : ValidPolicies) (time : RawTime) (kept : Kept) (tokens : ℚ) :
    Except LuaError ScriptOutcome × Kept :=
  let left := expireKept p kept time
  let b := foundBucket left time.now
  match setexSeconds time (.fin (b.expireTime time.now tokens P.policies)) with
  | .error e => (.error e, left)
  | .ok expire =>
      (.ok (b.outcome time.now tokens P.policies),
        some ⟨b.step time.now tokens P.policies, time, expire⟩)

end Slots

variable {p : Platform} {P : ValidPolicies} {kept : Kept} {request : Request}

/-! ## The script does what `visit` does -/

/-- Expiry looks only at the times of an entry. -/
theorem expire_slotOf (now : RawTime) :
    p.expire (slotOf p kept) now = slotOf p (expireKept p kept now) := by
  cases kept with
  | none => rfl
  | some k =>
      cases hdropped : p.dropped k.writtenAt k.expireSeconds now <;>
        simp [slotOf, expireKept, Platform.expire, KeptBucket.entry, Option.filter, hdropped]

/-- What is left after expiry was there before. -/
theorem eq_some_of_expireKept {now : RawTime} {k : KeptBucket}
    (h : expireKept p kept now = some k) : kept = some k :=
  (Option.filter_eq_some_iff.mp h).1

/-- The state the script starts from where there is none. -/
theorem fresh_state (time : RawTime) : (Bucket.fresh time.now).state = .fresh time := by
  simp [Bucket.fresh, Bucket.state, StoredState.fresh, scriptNow_eq]

/-- The values the script packs can be unpacked. -/
theorem packable_state (b : Bucket) : ∀ v ∈ b.state.values, v.Packable := by
  intro v hv
  simp only [StoredState.values, Bucket.state, List.mem_cons, List.not_mem_nil, or_false] at hv
  rcases hv with rfl | rfl | rfl
  · trivial
  · trivial
  · intro element helement
    obtain ⟨level, _, rfl⟩ := List.mem_map.mp helement
    exact ⟨_, rfl⟩

/-- **The stored state is read back.** -/
theorem readState_slotOf (kept : Kept) (time : RawTime) :
    readState p (slotOf p kept) time = (foundBucket kept time.now).state := by
  cases kept with
  | none => exact (fresh_state time).symm
  | some k =>
      have hunpack : p.unpack (p.pack k.bucket.state.values) = some k.bucket.state.values :=
        p.unpack_encode _ (packable_state k.bucket)
      simp only [slotOf, Option.map_some, KeptBucket.entry, readState, hunpack]
      rfl

/-- The levels the loop finds in a stored bucket. -/
theorem leakedLevels_eq (b : Bucket) (time : RawTime) :
    leakedLevels p P.pairs b.state time =
      .ok (P.policies.zipIdx.map fun x => .fin (b.leakedLevel time.now x.1 x.2)) := by
  have hsweep := sweep_eq p P b ⟨0, time⟩
  have htokens : (⟨0, time⟩ : Request).tokens = 0 := by simp [Request.tokens]
  rw [htokens] at hsweep
  unfold leakedLevels
  rw [show buildArgs 0 P.pairs = (P.call ⟨0, time⟩).argv from rfl, hsweep]
  simp [bind, Except.bind, pure, Except.pure, Bucket.loopState, Bucket.nextLevel]

/-- The levels the loop finds under a key. -/
theorem levelsFound_slotOf (kept : Kept) (time : RawTime) :
    levelsFound p P.pairs (slotOf p kept) time =
      .ok (P.policies.zipIdx.map fun x =>
        .fin ((foundBucket (expireKept p kept time) time.now).leakedLevel time.now x.1 x.2)) := by
  rw [levelsFound, expire_slotOf, readState_slotOf, leakedLevels_eq]

/-- What a list over the policies holds at a position. -/
theorem getD_zipIdx_map {i : ℕ} {policy : ValidPolicy} (h : P.policies[i]? = some policy)
    (f : ValidPolicy × ℕ → F64) : (P.policies.zipIdx.map f).getD i 0 = f (policy, i) := by
  simp [List.getD, h]

/-- A visit is a request for the tokens of its cost. -/
theorem visit_eq_consume (request : Request) :
    visit p P kept request = consume p P request.time kept request.tokens := rfl

/-- One execution of the script is one request for the tokens its cost reads as. -/
theorem executeArgs_slotOf (kept : Kept) (time : RawTime) {cost : ArgText} {tokens : ℚ}
    (hcost : cost.toNumber = .fin tokens) :
    executeArgs p (slotOf p kept) (argsOf cost P.pairs) time =
      ((consume p P time kept tokens).1, slotOf p (consume p P time kept tokens).2) := by
  have hscript := leakyBucket_of_reads p _ time (argsOf_readsPolicies P hcost)
    (readState_slotOf (expireKept p kept time) time)
  unfold executeArgs consume
  rw [expire_slotOf]
  simp only [hscript, Bucket.outcome]
  cases setexSeconds time (.fin ((foundBucket (expireKept p kept time) time.now).expireTime
      time.now tokens P.policies)) with
  | error e => rfl
  | ok expire => rfl

/-- **One execution of the script is one visit.** -/
theorem execute_slotOf (p : Platform) (P : ValidPolicies) (kept : Kept) (request : Request) :
    execute p (slotOf p kept) (P.call request) =
      ((visit p P kept request).1, slotOf p (visit p P kept request).2) := by
  have hcost : (ArgText.i32 request.cost).toNumber = .fin request.tokens := rfl
  rw [visit_eq_consume, ← executeArgs_slotOf kept request.time hcost]
  exact (executeArgs_call p (slotOf p kept) (P.call request)).symm

theorem execute_simulates (p : Platform) (P : ValidPolicies) :
    Simulates (visit p P) (execute p) (slotOf p) P.call :=
  execute_slotOf p P

/-- The executions of a run on a key are its visits. -/
theorem executions_eq (p : Platform) (P : ValidPolicies) (kept : Kept)
    (requests : List Request) :
    executions p (slotOf p kept) (requests.map P.call) =
      (trace (visit p P) kept requests).map (Firing.map (slotOf p) P.call) :=
  (execute_simulates p P).trace_eq kept requests

theorem executions_none_eq (p : Platform) (P : ValidPolicies) (requests : List Request) :
    executions p none (requests.map P.call) =
      (trace (visit p P) none requests).map (Firing.map (slotOf p) P.call) :=
  executions_eq p P none requests

/-- The slot a run from an absent key leads to. -/
def slotAfter (p : Platform) (P : ValidPolicies) (history : List Request) : Slot :=
  finalSlot p none (history.map P.call)

/-- What is kept after it. -/
def keptAfter (p : Platform) (P : ValidPolicies) (history : List Request) : Kept :=
  final (visit p P) none history

theorem slotAfter_eq (p : Platform) (P : ValidPolicies) (history : List Request) :
    slotAfter p P history = slotOf p (keptAfter p P history) :=
  (execute_simulates p P).final_eq none history

/-! ## What a visit can do -/

theorem setexSeconds_eq_ok {now : RawTime} {e : ℤ} {expire : ℕ}
    (h : setexSeconds now (.fin e) = .ok expire) : (expire : ℤ) = e := by
  rw [setexSeconds_int] at h
  by_cases hrange : 1 ≤ e ∧ e * 1000 + now.millis ≤ maxI64
  · rw [if_pos hrange] at h
    have hexpire : e.toNat = expire := Except.ok.inj h
    rw [← hexpire, Int.toNat_of_nonneg (by omega)]
  · rw [if_neg hrange] at h
    cases h

/-- The three ways a visit can go, from the bucket it found. -/
inductive VisitCase (p : Platform) (P : ValidPolicies) (kept : Kept) (request : Request)
    (b : Bucket) : Except LuaError ScriptOutcome × Kept → Prop
  | aborted
      (hsetex : setexSeconds request.time
        (.fin (b.expireTime request.now request.tokens P.policies)) = .error .invalidExpire) :
      VisitCase p P kept request b
        (.error .invalidExpire, expireKept p kept request.time)
  | committed (expire : ℕ)
      (hexpire : (expire : ℤ) = b.expireTime request.now request.tokens P.policies)
      (hroom : ∀ x ∈ P.policies.zipIdx,
        b.nextLevel request.now request.tokens x ≤ x.1.burst) :
      VisitCase p P kept request b
        (.ok ⟨⟨.fin (b.expireTime request.now request.tokens P.policies),
            (b.commit request.now request.tokens P.policies).state⟩,
          ⟨1, .fin (b.limiting request.now request.tokens P.policies).1,
            (b.limiting request.now request.tokens P.policies).2 + 1⟩⟩,
          some ⟨b.commit request.now request.tokens P.policies, request.time, expire⟩)
  | held (expire : ℕ)
      (hexpire : (expire : ℤ) = b.expireTime request.now request.tokens P.policies)
      (hfull : ∃ x ∈ P.policies.zipIdx,
        x.1.burst < b.nextLevel request.now request.tokens x) :
      VisitCase p P kept request b
        (.ok ⟨⟨.fin (b.expireTime request.now request.tokens P.policies),
            (b.hold request.now request.tokens).state⟩,
          ⟨0, .fin (b.hold request.now request.tokens).denyCount,
            (b.limiting request.now request.tokens P.policies).2 + 1⟩⟩,
          some ⟨b.hold request.now request.tokens, request.time, expire⟩)

/-- **One visit.** -/
theorem visit_cases (p : Platform) (P : ValidPolicies) (kept : Kept) (request : Request) :
    VisitCase p P kept request (foundBucket (expireKept p kept request.time) request.now)
      (visit p P kept request) := by
  simp only [visit]
  generalize foundBucket (expireKept p kept request.time) request.now = b
  cases hsetex : setexSeconds request.time
      (.fin (b.expireTime request.now request.tokens P.policies)) with
  | error e =>
      have he : e = .invalidExpire := by
        rw [setexSeconds_int] at hsetex
        split at hsetex
        · cases hsetex
        · exact (Except.error.inj hsetex).symm
      subst he
      exact .aborted hsetex
  | ok expire =>
      have hexpire := setexSeconds_eq_ok hsetex
      by_cases hroom : 0 ≤ (b.limiting request.now request.tokens P.policies).1
      · simp only [Bucket.outcome, Bucket.step, if_pos hroom]
        exact .committed expire hexpire ((b.limiting_nonneg_iff P _ _).mp hroom)
      · have hfull : ∃ x ∈ P.policies.zipIdx,
            x.1.burst < b.nextLevel request.now request.tokens x := by
          simpa [Bucket.limiting_nonneg_iff] using hroom
        simp only [Bucket.outcome, Bucket.step, if_neg hroom]
        exact .held expire hexpire hfull

/-- A property of stored deny counts that zero has is one of the count a visit finds. -/
theorem found_denyCount (holds : ℚ → Prop) (hzero : holds 0)
    (h : ∀ k, kept = some k → holds k.bucket.denyCount) (time : RawTime) :
    holds (foundBucket (expireKept p kept time) time.now).denyCount := by
  cases hleft : expireKept p kept time with
  | none => exact hzero
  | some k => exact h k (eq_some_of_expireKept hleft)

/-- A visit stores no deny count but zero and, when some policy is full, the one it
found with its cost added. -/
theorem visit_denyCount (holds : ℚ → Prop) (hzero : holds 0)
    (h : ∀ k, kept = some k → holds k.bucket.denyCount)
    (hdenied : (∃ x ∈ P.policies.zipIdx, x.1.burst <
        (foundBucket (expireKept p kept request.time) request.now).nextLevel request.now
          request.tokens x) →
      holds (foundBucket (expireKept p kept request.time) request.now).denyCount →
      holds ((foundBucket (expireKept p kept request.time) request.now).denyCount +
        request.tokens)) :
    ∀ k, (visit p P kept request).2 = some k → holds k.bucket.denyCount := by
  have hfound := found_denyCount (p := p) holds hzero h request.time
  have hcases := visit_cases p P kept request
  generalize visit p P kept request = result at hcases ⊢
  intro k hk
  cases hcases with
  | aborted hsetex => exact h k (eq_some_of_expireKept hk)
  | committed expire hexpire hroom =>
      cases hk
      exact hzero
  | held expire hexpire hfull =>
      cases hk
      exact hdenied hfull hfound

/-- What a visit writes is what it leaves. -/
theorem visit_write {outcome : ScriptOutcome} (h : (visit p P kept request).1 = .ok outcome) :
    ∃ k, (visit p P kept request).2 = some k ∧ k.writtenAt = request.time ∧
      outcome.write = ⟨.fin k.expireSeconds, k.bucket.state⟩ := by
  have hcast : ∀ {expire : ℕ} {e : ℤ}, (expire : ℤ) = e → (e : ℚ) = expire := by
    intro expire e he
    rw [← he]
    exact Int.cast_natCast expire
  have hcases := visit_cases p P kept request
  generalize visit p P kept request = result at hcases h ⊢
  cases hcases with
  | aborted hsetex => cases h
  | committed expire hexpire hroom =>
      cases h
      exact ⟨_, rfl, rfl, by rw [hcast hexpire]⟩
  | held expire hexpire hfull =>
      cases h
      exact ⟨_, rfl, rfl, by rw [hcast hexpire]⟩

end Limitr
