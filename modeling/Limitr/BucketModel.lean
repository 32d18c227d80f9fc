import Limitr.BucketScript
import Limitr.Configuration
import Limitr.FluidLevel
import Limitr.RunningExtremes

/-!
# The bucket the script keeps

A `Bucket` is the stored state with its numbers read: a time, a deny count and
one level for each policy.  On a bucket the script's loop has a closed form:
every level drains for the elapsed time, the cost is added to each, the room
left is the least over the policies, and the time to live the greatest.  The
decision is then one line, `Bucket.outcome`.

`leakyBucket_of_reads` proves that the script computes exactly this from an
argument vector that spells out the policies, for every list of valid policies
and every number of stored levels, so the rest of the development speaks of
buckets and never of Lua values.
-/

namespace Limitr

open FluidLevel RunningExtremes

/-- The stored state in numbers. -/
structure Bucket where
  lastTime : ℚ
  denyCount : ℚ
  tokenLevels : List ℚ
  deriving DecidableEq

/-- `free_capacity` for the least room found so far, infinite before any. -/
def capacityOf : Option (ℚ × ℕ) → F64
  | none => F64.inf false
  | some best => F64.fin best.1

/-- `limiting_index` for the least room found so far; Lua counts from one. -/
def indexOf : Option (ℚ × ℕ) → ℕ
  | none => 0
  | some best => best.2 + 1

/-- The strict comparison of the loop keeps the first of several least rooms. -/
theorem capacityOf_keepSmaller (best : Option (ℚ × ℕ)) (room : ℚ) (i : ℕ) :
    capacityOf (keepSmaller best room i) =
        (if F64.fin room < capacityOf best then F64.fin room else capacityOf best) ∧
      indexOf (keepSmaller best room i) =
        (if F64.fin room < capacityOf best then i + 1 else indexOf best) := by
  cases best with
  | none => simp [keepSmaller, capacityOf, indexOf]
  | some best =>
      by_cases hlt : room < best.1
      · simp [keepSmaller, capacityOf, indexOf, hlt]
      · simp [keepSmaller, capacityOf, indexOf, hlt]

namespace Bucket

/-- The level at a position, zero where none is stored. -/
def level (b : Bucket) (i : ℕ) : ℚ := b.tokenLevels.getD i 0

/-- The bucket as the script stores it. -/
def state (b : Bucket) : StoredState where
  lastTime := .number (.fin b.lastTime)
  denyCount := .number (.fin b.denyCount)
  tokenLevels := .array (b.tokenLevels.map fun l => .number (.fin l))

/-- A bucket no request has touched. -/
def fresh (now : ℚ) : Bucket := ⟨now, 0, []⟩

section Step

variable (b : Bucket) (now cost : ℚ)

/-- The level of the policy at position `i` after leaking since the last write. -/
def leakedLevel (policy : ValidPolicy) (i : ℕ) : ℚ :=
  drain policy.flow (b.level i) (now - b.lastTime)

/-- The level with the cost added. -/
def nextLevel (x : ValidPolicy × ℕ) : ℚ := b.leakedLevel now x.1 x.2 + cost

/-- The room the policy leaves. -/
def remaining (x : ValidPolicy × ℕ) : ℚ := x.1.burst - b.nextLevel now cost x

/-- The seconds the policy asks the key to live. -/
def timeToLive (x : ValidPolicy × ℕ) : ℤ :=
  ⌈max x.1.burst (b.nextLevel now cost x) / x.1.flow⌉

/-- The least room and the first position that leaves it, `(0, 0)` of nothing. -/
def limiting (policies : List ValidPolicy) : ℚ × ℕ :=
  (firstMin (policies.zipIdx.map (b.remaining now cost))).getD (0, 0)

/-- The time to live of the key. -/
def expireTime (policies : List ValidPolicy) : ℤ :=
  runningMax 0 (policies.zipIdx.map (b.timeToLive now cost))

/-- The bucket an allowed request leaves. -/
def commit (policies : List ValidPolicy) : Bucket where
  lastTime := now
  denyCount := 0
  tokenLevels := policies.zipIdx.map (b.nextLevel now cost)

/-- The bucket a denied request leaves. -/
def hold : Bucket where
  lastTime := now
  denyCount := b.denyCount + cost
  tokenLevels := b.tokenLevels

/-- The bucket a request leaves. -/
def step (policies : List ValidPolicy) : Bucket :=
  if 0 ≤ (b.limiting now cost policies).1 then b.commit now cost policies else b.hold now cost

/-- What the script answers and writes. -/
def outcome (policies : List ValidPolicy) : ScriptOutcome where
  write := ⟨.fin (b.expireTime now cost policies), (b.step now cost policies).state⟩
  reply :=
    if 0 ≤ (b.limiting now cost policies).1 then
      ⟨1, .fin (b.limiting now cost policies).1, (b.limiting now cost policies).2 + 1⟩
    else ⟨0, .fin (b.hold now cost).denyCount, (b.limiting now cost policies).2 + 1⟩

/-- The variables of the loop once it has walked over `policies`. -/
def loopState (policies : List ValidPolicy) : LoopState where
  nextLevels := policies.zipIdx.map fun x => .fin (b.nextLevel now cost x)
  expireTime := .fin (b.expireTime now cost policies)
  freeCapacity := capacityOf (firstMin (policies.zipIdx.map (b.remaining now cost)))
  limitingIndex := indexOf (firstMin (policies.zipIdx.map (b.remaining now cost)))

end Step

end Bucket

@[simp] theorem Bucket.hold_level (b : Bucket) (now cost : ℚ) (i : ℕ) :
    (b.hold now cost).level i = b.level i := rfl

/-- A stored state holds one bucket only. -/
theorem Bucket.state_injective : Function.Injective Bucket.state := by
  intro b b' h
  have hlevels : Function.Injective fun l : ℚ => LuaValue.number (.fin l) := by
    intro l l' hl
    injection hl with hl
    injection hl
  obtain ⟨hlast, hdeny, htokens⟩ := StoredState.mk.inj h
  injection hlast with hlast
  injection hlast with hlast
  injection hdeny with hdeny
  injection hdeny with hdeny
  injection htokens with htokens
  cases b
  cases b'
  simp only [Bucket.mk.injEq]
  exact ⟨hlast, hdeny, hlevels.list_map htokens⟩

/-! ## The script on a bucket -/

/-- The pairs the client sends for a list of policies. -/
def ValidPolicies.pairs (P : ValidPolicies) : List (F64 × Int64) :=
  P.raw.map fun policy => (policy.flowRatePerSecond, policy.burstCapacity)

/-- A request on the key of the policies. -/
structure Request where
  cost : Int32
  time : RawTime

/-- The tokens a request asks for. -/
def Request.tokens (request : Request) : ℚ := request.cost.toInt

theorem Request.tokens_nonneg {request : Request} (h : 0 ≤ request.cost.toInt) :
    0 ≤ request.tokens := by
  unfold Request.tokens
  exact_mod_cast h

theorem Request.tokens_neg {request : Request} (h : request.cost.toInt < 0) :
    request.tokens < 0 := by
  unfold Request.tokens
  exact_mod_cast h

/-- The time at which Redis runs the request. -/
abbrev Request.now (request : Request) : ℚ := request.time.now

/-- The call of the script a request comes to. -/
def ValidPolicies.call (P : ValidPolicies) (request : Request) : Call :=
  ⟨P.pairs, request.cost, request.time⟩

theorem ValidPolicies.pairs_getElem? {P : ValidPolicies} {i : ℕ} {policy : ValidPolicy}
    (h : P.policies[i]? = some policy) :
    P.pairs[i]? = some (.fin policy.flow, policy.policy.burstCapacity) := by
  simp [ValidPolicies.pairs, ValidPolicies.raw, h, policy.flow_eq]

section Loop

variable (p : Platform) (b : Bucket) (now cost : ℚ) {argv : List ArgText}

/-- Reading a stored level, or zero past the end. -/
theorem index_tokenLevels (i : ℕ) :
    ∃ v, b.state.tokenLevels.index (i + 1) = .ok v ∧
      p.toNumber v.orZero = .ok (.fin (b.level i)) := by
  refine ⟨_, rfl, ?_⟩
  cases h : b.tokenLevels[i]? with
  | none => simp [Bucket.level, List.getD, h, LuaValue.orZero]
  | some l => simp [Bucket.level, List.getD, h, LuaValue.orZero]

/-- Walking over one policy more. -/
theorem zipIdx_concat (policies : List ValidPolicy) (policy : ValidPolicy) :
    (policies ++ [policy]).zipIdx = policies.zipIdx ++ [(policy, policies.length)] := by
  simp [List.zipIdx_append]

/-- One round of the loop appends one policy to those walked over. -/
theorem iteration_eq (policies : List ValidPolicy) (policy : ValidPolicy)
    (hflow : numberArg argv (2 * (policies.length + 1)) = .ok (.fin policy.flow))
    (hburst : numberArg argv (2 * (policies.length + 1) + 1) = .ok (.fin policy.burst)) :
    iteration p argv (.fin cost) (.fin (now - b.lastTime)) b.state.tokenLevels
        (b.loopState now cost policies) (policies.length + 1) =
      .ok (b.loopState now cost (policies ++ [policy])) := by
  obtain ⟨v, hindex, hnumber⟩ := index_tokenLevels p b policies.length
  have hne : policy.flow ≠ 0 := ne_of_gt policy.flow_pos
  have hnext : F64.max 0 (.fin (b.level policies.length) -
      .fin (now - b.lastTime) * .fin policy.flow) + .fin cost =
      .fin (b.nextLevel now cost (policy, policies.length)) := by
    simp [Bucket.nextLevel, Bucket.leakedLevel, drain, mul_comm]
  have hremaining : F64.fin policy.burst - .fin (b.nextLevel now cost (policy, policies.length)) =
      .fin (b.remaining now cost (policy, policies.length)) := F64.fin_sub_fin _ _
  have hexpire : F64.max (.fin (b.expireTime now cost policies)) (F64.ceil (F64.max
      (.fin policy.burst) (.fin (b.nextLevel now cost (policy, policies.length))) /
        .fin policy.flow)) = .fin (b.expireTime now cost (policies ++ [policy])) := by
    rw [F64.max_fin_fin, F64.fin_div_fin _ _ hne, F64.ceil_fin, F64.max_fin_fin,
      Bucket.expireTime, Bucket.expireTime, zipIdx_concat, List.map_append, List.map_singleton,
      runningMax_concat, Int.cast_max]
    rfl
  have hbest : firstMin ((policies ++ [policy]).zipIdx.map (b.remaining now cost)) =
      keepSmaller (firstMin (policies.zipIdx.map (b.remaining now cost)))
        (b.remaining now cost (policy, policies.length)) policies.length := by
    rw [zipIdx_concat, List.map_append, List.map_singleton, firstMin_concat, List.length_map,
      List.length_zipIdx]
  obtain ⟨hcapacity, hindexOf⟩ := capacityOf_keepSmaller
    (firstMin (policies.zipIdx.map (b.remaining now cost)))
    (b.remaining now cost (policy, policies.length)) policies.length
  simp only [iteration, hflow, hburst, hindex, hnumber, bind, Except.bind, pure, Except.pure,
    hnext, hremaining, Except.ok.injEq]
  rw [← hbest] at hcapacity hindexOf
  rw [LoopState.mk.injEq]
  exact ⟨by simp [Bucket.loopState, zipIdx_concat], hexpire, hcapacity.symm, hindexOf.symm⟩

/-- **The loop over a list of policies.**  What holds before the first round, and
is carried by a round from the policies walked over to one policy more, holds
after the loop when its arguments spell the list out. -/
theorem foldlM_iteration_rule {cost delta : F64} {tokenLevels : LuaValue}
    (inv : List ValidPolicy → LoopState → Prop) (hstart : inv [] .start)
    (hround : ∀ (policies : List ValidPolicy) (policy : ValidPolicy) s, inv policies s →
      numberArg argv (2 * (policies.length + 1)) = .ok (.fin policy.flow) →
      numberArg argv (2 * (policies.length + 1) + 1) = .ok (.fin policy.burst) →
      ∃ s', iteration p argv cost delta tokenLevels s (policies.length + 1) = .ok s' ∧
        inv (policies ++ [policy]) s')
    (policies : List ValidPolicy)
    (hread : ∀ i policy, policies[i]? = some policy →
      numberArg argv (2 * (i + 1)) = .ok (.fin policy.flow) ∧
        numberArg argv (2 * (i + 1) + 1) = .ok (.fin policy.burst)) :
    ∃ s, (List.range' 1 policies.length).foldlM (iteration p argv cost delta tokenLevels) .start =
      .ok s ∧ inv policies s := by
  induction policies using List.reverseRecOn with
  | nil => exact ⟨.start, rfl, hstart⟩
  | append_singleton policies policy ih =>
      have hpolicy : (policies ++ [policy])[policies.length]? = some policy := by simp
      have hrest : ∀ (i : ℕ) (q : ValidPolicy), policies[i]? = some q →
          (policies ++ [policy])[i]? = some q := by
        intro i q hq
        rw [List.getElem?_append_left (List.getElem?_eq_some_iff.mp hq).1]
        exact hq
      obtain ⟨s, hs, hinv⟩ := ih fun i q hq => hread i q (hrest i q hq)
      obtain ⟨hflow, hburst⟩ := hread policies.length policy hpolicy
      obtain ⟨s', hround', hinv'⟩ := hround policies policy s hinv hflow hburst
      refine ⟨s', ?_, hinv'⟩
      rw [List.length_append, List.length_singleton, List.range'_1_concat, List.foldlM_append, hs,
        Nat.add_comm 1 policies.length]
      simp only [List.foldlM_cons, List.foldlM_nil, bind, Except.bind, hround', pure, Except.pure]

/-- On a bucket the loop walks over the whole list. -/
theorem foldlM_iteration_eq (policies : List ValidPolicy)
    (hread : ∀ i policy, policies[i]? = some policy →
      numberArg argv (2 * (i + 1)) = .ok (.fin policy.flow) ∧
        numberArg argv (2 * (i + 1) + 1) = .ok (.fin policy.burst)) :
    (List.range' 1 policies.length).foldlM
        (iteration p argv (.fin cost) (.fin (now - b.lastTime)) b.state.tokenLevels) .start =
      .ok (b.loopState now cost policies) := by
  obtain ⟨s, hloop, hs⟩ := foldlM_iteration_rule p
    (fun policies s => s = b.loopState now cost policies) rfl
    (fun policies policy s hs hflow hburst =>
      ⟨_, hs ▸ iteration_eq p b now cost policies policy hflow hburst, rfl⟩) policies hread
  rw [hloop, hs]

end Loop

/-- The script's reads of an argument vector: one round for each policy, with
its flow rate and its burst, and nothing past the end. -/
structure ReadsPolicies (P : ValidPolicies) (cost : ℚ) (argv : List ArgText) : Prop where
  rounds : forRange (argv.length / 2) = List.range' 1 P.policies.length
  within : ∀ i ∈ forRange (argv.length / 2), 2 * i + 1 ≤ argv.length
  cost_eq : numberArg argv 1 = .ok (.fin cost)
  flow_eq : ∀ i policy, P.policies[i]? = some policy →
    numberArg argv (2 * (i + 1)) = .ok (.fin policy.flow)
  burst_eq : ∀ i policy, P.policies[i]? = some policy →
    numberArg argv (2 * (i + 1) + 1) = .ok (.fin policy.burst)

variable (p : Platform) (P : ValidPolicies) (b : Bucket) (request : Request)

/-- The client's argument vector is read as the list of policies. -/
theorem call_readsPolicies : ReadsPolicies P request.tokens (P.call request).argv := by
  have hlength : P.pairs.length = P.policies.length := by
    simp [ValidPolicies.pairs, ValidPolicies.raw]
  have hrange : forRange ((P.call request).argv.length / 2) =
      List.range' 1 P.policies.length := by
    rw [← hlength]
    exact forRange_args request.cost P.pairs
  have hargs : (P.call request).argv.length = 2 * P.policies.length + 1 := by
    rw [← hlength]
    exact length_buildArgs request.cost P.pairs
  refine ⟨hrange, ?_, numberArg_cost request.cost P.pairs, ?_, ?_⟩
  · intro i hi
    rw [hrange, List.mem_range'_1] at hi
    rw [hargs]
    omega
  · intro i policy hpolicy
    exact (numberArg_pair (ValidPolicies.pairs_getElem? hpolicy)).1
  · intro i policy hpolicy
    exact (numberArg_pair (ValidPolicies.pairs_getElem? hpolicy)).2

/-- The argument vector is read the same whatever text the cost has. -/
theorem argsOf_readsPolicies {cost : ArgText} {tokens : ℚ} (hcost : cost.toNumber = .fin tokens) :
    ReadsPolicies P tokens (argsOf cost P.pairs) := by
  obtain ⟨hrounds, hwithin, _, hflow, hburst⟩ := call_readsPolicies P ⟨0, .ofSeconds 0⟩
  have hlength : (argsOf cost P.pairs).length = (P.call ⟨0, .ofSeconds 0⟩).argv.length := rfl
  have hrest : ∀ j, numberArg (argsOf cost P.pairs) (j + 2) =
      numberArg (P.call ⟨0, .ofSeconds 0⟩).argv (j + 2) := fun _ => rfl
  refine ⟨?_, ?_, ?_, ?_, ?_⟩
  · rw [hlength]
    exact hrounds
  · rw [hlength]
    exact hwithin
  · rw [← hcost]
    rfl
  · intro i policy hpolicy
    exact (hrest (2 * i)).trans (hflow i policy hpolicy)
  · intro i policy hpolicy
    exact (hrest (2 * i + 1)).trans (hburst i policy hpolicy)

/-- The least room is found at some policy of the list. -/
theorem Bucket.limiting_spec (now cost : ℚ) :
    firstMin (P.policies.zipIdx.map (b.remaining now cost)) =
        some (b.limiting now cost P.policies) ∧
      IsFirstMin (P.policies.zipIdx.map (b.remaining now cost))
        (b.limiting now cost P.policies).1 (b.limiting now cost P.policies).2 := by
  have hne : P.policies.zipIdx.map (b.remaining now cost) ≠ [] := by
    simpa using P.nonempty
  obtain ⟨m, k, hmin⟩ := exists_firstMin hne
  have hlimiting : b.limiting now cost P.policies = (m, k) := by
    rw [Bucket.limiting, hmin, Option.getD_some]
  rw [hlimiting]
  exact ⟨hmin, firstMin_spec hmin⟩

/-- **The admission test.**  The least room is nonnegative exactly when every
policy has room for its next level. -/
theorem Bucket.limiting_nonneg_iff (now cost : ℚ) :
    0 ≤ (b.limiting now cost P.policies).1 ↔
      ∀ x ∈ P.policies.zipIdx, b.nextLevel now cost x ≤ x.1.burst := by
  rw [(b.limiting_spec P now cost).2.le_iff 0]
  simp only [List.forall_mem_map, Bucket.remaining, sub_nonneg]

section Reading

variable {P} {cost : ℚ} {argv : List ArgText} (time : RawTime)

/-- **The loop of the script** in closed form. -/
theorem sweep_of_reads (hreads : ReadsPolicies P cost argv) :
    sweep p argv b.state time = .ok (b.loopState time.now cost P.policies) := by
  have hloop : (List.range' 1 P.policies.length).foldlM
      (iteration p argv (.fin cost) (.fin (time.now - b.lastTime)) b.state.tokenLevels) .start =
      .ok (b.loopState time.now cost P.policies) :=
    foldlM_iteration_eq p b time.now cost P.policies
      (fun i policy h => ⟨hreads.flow_eq i policy h, hreads.burst_eq i policy h⟩)
  have hdelta : scriptNow time - F64.fin b.lastTime = F64.fin (time.now - b.lastTime) := by
    rw [scriptNow_eq, F64.fin_sub_fin]
  have htime : p.toNumber b.state.lastTime = .ok (.fin b.lastTime) := rfl
  unfold sweep
  rw [hreads.rounds]
  simp only [hreads.cost_eq, htime, bind, Except.bind, hdelta, hloop]

/-- The end of the script, from the loop's closed form. -/
theorem conclude_of_reads (hreads : ReadsPolicies P cost argv) :
    conclude p argv b.state time (b.loopState time.now cost P.policies) =
      .ok (b.outcome time.now cost P.policies) := by
  have hdeny : p.toNumber b.state.denyCount = .ok (.fin b.denyCount) := rfl
  have hcapacity : (b.loopState time.now cost P.policies).freeCapacity =
      .fin (b.limiting time.now cost P.policies).1 := by
    rw [Bucket.loopState, (b.limiting_spec P time.now cost).1, capacityOf]
  have hindex : (b.loopState time.now cost P.policies).limitingIndex =
      (b.limiting time.now cost P.policies).2 + 1 := by
    rw [Bucket.loopState, (b.limiting_spec P time.now cost).1, indexOf]
  have htest : (0 : F64) ≤ .fin (b.limiting time.now cost P.policies).1 ↔
      0 ≤ (b.limiting time.now cost P.policies).1 := by
    simp
  unfold conclude Bucket.outcome Bucket.step
  simp only [hreads.cost_eq, hdeny, hcapacity, hindex, htest, scriptNow_eq, bind, Except.bind]
  by_cases hroom : 0 ≤ (b.limiting time.now cost P.policies).1
  · simp only [if_pos hroom, pure, Except.pure]
    simp [Bucket.state, Bucket.commit, Bucket.loopState]
  · simp only [if_neg hroom, pure, Except.pure]
    simp [Bucket.state, Bucket.hold, Bucket.loopState]

/-- **The script on a bucket.**  Reading a state that holds a bucket, the
script answers and writes `Bucket.outcome`. -/
theorem leakyBucket_of_reads (hreads : ReadsPolicies P cost argv) {slot : Slot}
    (hread : readState p slot time = b.state) :
    leakyBucket p argv time slot = .ok (b.outcome time.now cost P.policies) := by
  unfold leakyBucket
  rw [hread]
  simp only [sweep_of_reads p b time hreads, bind, Except.bind]
  exact conclude_of_reads p b time hreads

end Reading

theorem sweep_eq : sweep p (P.call request).argv b.state request.time =
    .ok (b.loopState request.now request.tokens P.policies) :=
  sweep_of_reads p b request.time (call_readsPolicies P request)

theorem leakyBucket_eq {slot : Slot} (hread : readState p slot request.time = b.state) :
    leakyBucket p (P.call request).argv request.time slot =
      .ok (b.outcome request.now request.tokens P.policies) :=
  leakyBucket_of_reads p b request.time (call_readsPolicies P request) hread

end Limitr
