import Limitr.ReferenceHost
import Limitr.SettledBuckets

/-!
# Requests at the same reading of the clock

Between two requests at one reading nothing leaks, so that two allowed requests
in a row leave what a single one for the sum of their costs leaves, and reply as
it does.  A whole list of them therefore merges into one request
(`simultaneous_requests_merge`), whatever the bucket they start from, and their
order does not matter.

The sum of the costs need not be a cost a client can send, so the single request
is an execution of the script on any text that reads as the sum.
-/

namespace Limitr

open FluidLevel RunningExtremes MachineRuns

/-- The script ran to its return and allowed the request. -/
def Allowed (output : Except LuaError ScriptOutcome) : Prop :=
  output.map (fun outcome => outcome.reply.allowed) = .ok 1

instance (output : Except LuaError ScriptOutcome) : Decidable (Allowed output) :=
  inferInstanceAs (Decidable (_ = _))

/-- The executions of requests with these costs at one reading, in order. -/
def together (p : Platform) (P : ValidPolicies) (slot : Slot) (time : RawTime)
    (costs : List Int32) : List Execution :=
  executions p slot (costs.map fun cost => P.call ⟨cost, time⟩)

/-- The slot they leave. -/
def slotTogether (p : Platform) (P : ValidPolicies) (slot : Slot) (time : RawTime)
    (costs : List Int32) : Slot :=
  finalSlot p slot (costs.map fun cost => P.call ⟨cost, time⟩)

variable {p : Platform} {P : ValidPolicies} {kept : Kept} {time : RawTime}

/-! ## Two requests merge -/

section Buckets

variable (b : Bucket) {now c c' : ℚ} {x : ValidPolicy × ℕ}

/-- After a committed request the next one adds to its cost. -/
theorem commit_nextLevel (hx : x ∈ P.policies.zipIdx) (hc : 0 ≤ c) :
    (b.commit now c P.policies).nextLevel now c' x = b.nextLevel now (c + c') x := by
  have hnonneg : 0 ≤ b.nextLevel now c x := add_nonneg drain_nonneg hc
  have hlast : (b.commit now c P.policies).lastTime = now := rfl
  rw [Bucket.nextLevel, Bucket.leakedLevel, commit_level hx, hlast, sub_self, drain_zero_elapsed,
    max_eq_right hnonneg, Bucket.nextLevel, Bucket.nextLevel, add_assoc]

/-- What an allowed request makes of a bucket depends on the next levels only. -/
theorem commit_limiting (hc : 0 ≤ c) :
    (b.commit now c P.policies).limiting now c' P.policies =
      b.limiting now (c + c') P.policies := by
  have hremaining : P.policies.zipIdx.map ((b.commit now c P.policies).remaining now c') =
      P.policies.zipIdx.map (b.remaining now (c + c')) := by
    apply List.map_congr_left
    intro x hx
    rw [Bucket.remaining, Bucket.remaining, commit_nextLevel b hx hc]
  rw [Bucket.limiting, Bucket.limiting, hremaining]

theorem commit_expireTime (hc : 0 ≤ c) :
    (b.commit now c P.policies).expireTime now c' P.policies =
      b.expireTime now (c + c') P.policies := by
  have hlive : P.policies.zipIdx.map ((b.commit now c P.policies).timeToLive now c') =
      P.policies.zipIdx.map (b.timeToLive now (c + c')) := by
    apply List.map_congr_left
    intro x hx
    rw [Bucket.timeToLive, Bucket.timeToLive, commit_nextLevel b hx hc]
  rw [Bucket.expireTime, Bucket.expireTime, hlive]

theorem commit_commit (hc : 0 ≤ c) :
    (b.commit now c P.policies).commit now c' P.policies = b.commit now (c + c') P.policies := by
  have hlevels : P.policies.zipIdx.map ((b.commit now c P.policies).nextLevel now c') =
      P.policies.zipIdx.map (b.nextLevel now (c + c')) :=
    List.map_congr_left fun x hx => commit_nextLevel b hx hc
  rw [Bucket.commit, hlevels]
  rfl

/-- With room for more there is room for less. -/
theorem limiting_nonneg_of_le (hc : c ≤ c')
    (h : 0 ≤ (b.limiting now c' P.policies).1) : 0 ≤ (b.limiting now c P.policies).1 := by
  rw [b.limiting_nonneg_iff P] at h ⊢
  intro x hx
  exact le_trans (add_le_add_right hc _) (h x hx)

/-- While there is room the bursts alone set the time to live. -/
theorem expireTime_eq_of_room (hc : 0 ≤ (b.limiting now c P.policies).1)
    (hc' : 0 ≤ (b.limiting now c' P.policies).1) :
    b.expireTime now c P.policies = b.expireTime now c' P.policies := by
  rw [b.limiting_nonneg_iff P] at hc hc'
  have hlive : P.policies.zipIdx.map (b.timeToLive now c) =
      P.policies.zipIdx.map (b.timeToLive now c') := by
    apply List.map_congr_left
    intro x hx
    rw [Bucket.timeToLive, Bucket.timeToLive, max_eq_left (hc x hx), max_eq_left (hc' x hx)]
  rw [Bucket.expireTime, Bucket.expireTime, hlive]

end Buckets

/-- Nothing is dropped at the reading it was written at. -/
theorem expireKept_written (b : Bucket) (time : RawTime) {expire : ℕ} (hexpire : 0 < expire) :
    expireKept p (some ⟨b, time, expire⟩) time = some ⟨b, time, expire⟩ := by
  have hkept : p.dropped time expire time = false := by
    by_contra hdropped
    have hpassed := p.dropped_after time expire time (Bool.not_eq_false _ ▸ hdropped)
    have hpos : (0 : ℚ) < expire := Nat.cast_pos.mpr hexpire
    linarith
  simp [expireKept, Option.filter, hkept]

/-- The bucket a request at this reading works on. -/
def bucketAt (p : Platform) (kept : Kept) (time : RawTime) : Bucket :=
  foundBucket (expireKept p kept time) time.now

/-- An allowed request found room and a time to live that `SETEX` takes, and
leaves the committed bucket. -/
theorem consume_allowed_iff (kept : Kept) (tokens : ℚ) :
    Allowed (consume p P time kept tokens).1 ↔
      0 ≤ ((bucketAt p kept time).limiting time.now tokens P.policies).1 ∧
        ∃ expire, setexSeconds time
          (.fin ((bucketAt p kept time).expireTime time.now tokens P.policies)) = .ok expire := by
  unfold Allowed consume bucketAt
  dsimp only
  cases hsetex : setexSeconds time (.fin ((foundBucket (expireKept p kept time) time.now).expireTime
      time.now tokens P.policies)) with
  | error e => simp [Except.map]
  | ok expire =>
      by_cases hroom : 0 ≤ ((foundBucket (expireKept p kept time) time.now).limiting time.now
          tokens P.policies).1
      · simp [Except.map, Bucket.outcome, hroom]
      · simp [Except.map, Bucket.outcome, hroom]

theorem consume_of_allowed {tokens : ℚ} {expire : ℕ}
    (hroom : 0 ≤ ((bucketAt p kept time).limiting time.now tokens P.policies).1)
    (hsetex : setexSeconds time
      (.fin ((bucketAt p kept time).expireTime time.now tokens P.policies)) = .ok expire) :
    consume p P time kept tokens =
      (.ok ⟨⟨.fin ((bucketAt p kept time).expireTime time.now tokens P.policies),
          ((bucketAt p kept time).commit time.now tokens P.policies).state⟩,
        ⟨1, .fin ((bucketAt p kept time).limiting time.now tokens P.policies).1,
          ((bucketAt p kept time).limiting time.now tokens P.policies).2 + 1⟩⟩,
        some ⟨(bucketAt p kept time).commit time.now tokens P.policies, time, expire⟩) := by
  unfold consume
  unfold bucketAt at hroom hsetex ⊢
  dsimp only
  rw [hsetex]
  dsimp only
  rw [Bucket.outcome, Bucket.step, if_pos hroom, if_pos hroom]

/-- The bucket found after an allowed request at the same reading. -/
theorem bucketAt_consume {tokens : ℚ} {expire : ℕ}
    (hroom : 0 ≤ ((bucketAt p kept time).limiting time.now tokens P.policies).1)
    (hsetex : setexSeconds time
      (.fin ((bucketAt p kept time).expireTime time.now tokens P.policies)) = .ok expire) :
    bucketAt p (consume p P time kept tokens).2 time =
      (bucketAt p kept time).commit time.now tokens P.policies := by
  have hlive := setexSeconds_eq_ok hsetex
  have hpos := expireTime_pos P (bucketAt p kept time) time.now tokens
  rw [consume_of_allowed hroom hsetex]
  rw [bucketAt, expireKept_written _ time (by omega)]
  rfl

/-- **Two requests at one reading merge.** -/
theorem consume_merges (p : Platform) (P : ValidPolicies) (time : RawTime) :
    Merges (fun c c' : ℚ => c + c') (fun c => 0 ≤ c) Allowed (consume p P time) := by
  constructor
  · intro c c' hc hc'
    exact add_nonneg hc hc'
  · intro kept c c' hc hc'
    constructor
    · intro h
      obtain ⟨hfirst, hsecond⟩ := h
      obtain ⟨hroom, expire, hsetex⟩ := (consume_allowed_iff kept c).mp hfirst
      have hfound := bucketAt_consume hroom hsetex
      rw [consume_allowed_iff, hfound, commit_limiting _ hc, commit_expireTime _ hc] at hsecond
      exact (consume_allowed_iff kept (c + c')).mpr hsecond
    · intro h
      obtain ⟨hroom, expire, hsetex⟩ := (consume_allowed_iff kept (c + c')).mp h
      have hless := limiting_nonneg_of_le _ (le_add_of_nonneg_right hc' : c ≤ c + c') hroom
      have hsame := expireTime_eq_of_room _ hless hroom
      rw [← hsame] at hsetex
      refine ⟨(consume_allowed_iff kept c).mpr ⟨hless, expire, hsetex⟩, ?_⟩
      rw [consume_allowed_iff, bucketAt_consume hless hsetex, commit_limiting _ hc,
        commit_expireTime _ hc, ← hsame]
      exact ⟨hroom, expire, hsetex⟩
  · intro kept c c' hc hc' h
    obtain ⟨hroom, expire, hsetex⟩ := (consume_allowed_iff kept (c + c')).mp h
    have hless := limiting_nonneg_of_le _ (le_add_of_nonneg_right hc' : c ≤ c + c') hroom
    have hsetex' := hsetex
    rw [← expireTime_eq_of_room _ hless hroom] at hsetex'
    have hfound := bucketAt_consume hless hsetex'
    rw [consume_of_allowed hroom hsetex, @consume_of_allowed _ _ _ _ _ expire, hfound,
      commit_limiting _ hc, commit_expireTime _ hc, commit_commit _ hc]
    · rw [hfound, commit_limiting _ hc]
      exact hroom
    · rw [hfound, commit_expireTime _ hc]
      exact hsetex

/-! ## Any number of requests merge -/

/-- The executions at one reading are visits at it. -/
theorem visit_simulates (p : Platform) (P : ValidPolicies) (time : RawTime) :
    Simulates (fun kept cost => visit p P kept ⟨cost, time⟩) (execute p) (slotOf p)
      (fun cost => P.call ⟨cost, time⟩) :=
  fun kept cost => execute_slotOf p P kept ⟨cost, time⟩

/-- So are requests for the tokens of their costs. -/
theorem visit_simulates_consume (p : Platform) (P : ValidPolicies) (time : RawTime) :
    Simulates (fun kept cost => visit p P kept ⟨cost, time⟩) (consume p P time) id
      (fun cost => (cost.toInt : ℚ)) :=
  fun _ _ => rfl

/-- Adding up the tokens one cost after another gives the sum of the costs. -/
theorem foldl_tokens (start : ℚ) (costs : List Int32) :
    (costs.map fun c => (c.toInt : ℚ)).foldl (fun c c' => c + c') start =
      start + ((costs.map Int32.toInt).sum : ℤ) := by
  induction costs generalizing start with
  | nil => simp
  | cons c costs ih =>
      rw [List.map_cons, List.foldl_cons, ih, List.map_cons, List.sum_cons, Int.cast_add, add_assoc]

/-- **Requests at one reading merge.** -/
theorem together_merges (p : Platform) (P : ValidPolicies) (kept : Kept) (time : RawTime)
    {costs : List Int32} (hne : costs ≠ []) (hcosts : ∀ c ∈ costs, 0 ≤ c.toInt) {total : ArgText}
    (htotal : total.toNumber = F64.ofInt (costs.map Int32.toInt).sum) :
    ((∀ e ∈ together p P (slotOf p kept) time costs, Allowed e.output) ↔
        Allowed (executeArgs p (slotOf p kept) (argsOf total P.pairs) time).1) ∧
      (Allowed (executeArgs p (slotOf p kept) (argsOf total P.pairs) time).1 →
        ∃ last, (together p P (slotOf p kept) time costs).getLast? = some last ∧
          (last.output, last.after) = executeArgs p (slotOf p kept) (argsOf total P.pairs) time ∧
          slotTogether p P (slotOf p kept) time costs = last.after) := by
  obtain ⟨c, cs, rfl⟩ := List.exists_cons_of_ne_nil hne
  have hmerges := consume_merges p P time
  obtain ⟨hc, hcs⟩ := List.forall_mem_cons.mp hcosts
  have hfit : (0 : ℚ) ≤ (c.toInt : ℚ) := Int.cast_nonneg hc
  have hfits : ∀ q ∈ cs.map (fun c' => (c'.toInt : ℚ)), 0 ≤ q := by
    intro q hq
    obtain ⟨c', hc', rfl⟩ := List.mem_map.mp hq
    exact Int.cast_nonneg (hcs c' hc')
  have hsum : (((c :: cs).map Int32.toInt).sum : ℚ) =
      (cs.map fun c' => (c'.toInt : ℚ)).foldl (fun c c' => c + c') (c.toInt : ℚ) := by
    rw [foldl_tokens, List.map_cons, List.sum_cons, Int.cast_add]
  have hsingle := executeArgs_slotOf (p := p) (P := P) kept time htotal
  rw [hsum] at hsingle
  have hvisits : together p P (slotOf p kept) time (c :: cs) = _ :=
    (visit_simulates p P time).trace_eq kept (c :: cs)
  have hslot : slotTogether p P (slotOf p kept) time (c :: cs) = _ :=
    (visit_simulates p P time).final_eq kept (c :: cs)
  have hconsumes := (visit_simulates_consume p P time).trace_eq kept (c :: cs)
  have hkept := (visit_simulates_consume p P time).final_eq kept (c :: cs)
  have hgood := hmerges.trace_good_iff (s := kept) hfit hfits
  rw [id_eq, List.map_cons] at hconsumes hkept
  rw [hconsumes, List.forall_mem_map] at hgood
  rw [hsingle, hvisits, hslot]
  constructor
  · rw [List.forall_mem_map, ← hgood]
    rfl
  · intro hallowed
    obtain ⟨x, hlast, houtput, hafter, hend⟩ := hmerges.last_eq hfit hfits hallowed
    rw [hconsumes, List.getLast?_map] at hlast
    obtain ⟨y, hy, rfl⟩ := Option.map_eq_some_iff.mp hlast
    refine ⟨Firing.map (slotOf p) _ y, by rw [List.getLast?_map, hy]; rfl, ?_, ?_⟩
    · rw [← houtput, ← hafter]
      rfl
    · exact congrArg (slotOf p) (hkept.symm.trans (hend.trans hafter.symm))

/-- **Requests at one reading of the clock.**  From any bucket, requests at costs
of at least zero are all allowed exactly when one for the sum of their costs is;
then the last one replies and writes what that one does, and leaves the same
under the key.  In another order they are all allowed just when they are in this
one, and then leave the same. -/
theorem simultaneous_requests_merge (p : Platform) (P : ValidPolicies) (kept : Kept)
    (time : RawTime) {costs : List Int32} (hne : costs ≠ []) (hcosts : ∀ c ∈ costs, 0 ≤ c.toInt) :
    (∀ total : ArgText, total.toNumber = F64.ofInt (costs.map Int32.toInt).sum →
      ((∀ e ∈ together p P (slotOf p kept) time costs, Allowed e.output) ↔
          Allowed (executeArgs p (slotOf p kept) (argsOf total P.pairs) time).1) ∧
        (Allowed (executeArgs p (slotOf p kept) (argsOf total P.pairs) time).1 →
          ∃ last, (together p P (slotOf p kept) time costs).getLast? = some last ∧
            (last.output, last.after) =
              executeArgs p (slotOf p kept) (argsOf total P.pairs) time ∧
            slotTogether p P (slotOf p kept) time costs = last.after)) ∧
    ∀ costs' : List Int32, costs'.Perm costs →
      ((∀ e ∈ together p P (slotOf p kept) time costs', Allowed e.output) ↔
          ∀ e ∈ together p P (slotOf p kept) time costs, Allowed e.output) ∧
        ((∀ e ∈ together p P (slotOf p kept) time costs, Allowed e.output) →
          slotTogether p P (slotOf p kept) time costs' =
            slotTogether p P (slotOf p kept) time costs) := by
  refine ⟨fun _ htotal => together_merges p P kept time hne hcosts htotal, ?_⟩
  intro costs' hperm
  have hne' : costs' ≠ [] := fun h => hne (List.nil_perm.mp (h ▸ hperm))
  have hcosts' : ∀ c ∈ costs', 0 ≤ c.toInt := fun c hc => hcosts c (hperm.mem_iff.mp hc)
  have hsum : (costs'.map Int32.toInt).sum = (costs.map Int32.toInt).sum :=
    (hperm.map Int32.toInt).sum_eq
  obtain ⟨total, htotal⟩ : ∃ total : ArgText,
      total.toNumber = F64.ofInt (costs.map Int32.toInt).sum := ⟨.f64 _, rfl⟩
  obtain ⟨hall, hlast⟩ := together_merges p P kept time hne hcosts htotal
  rw [← hsum] at htotal
  obtain ⟨hall', hlast'⟩ := together_merges p P kept time hne' hcosts' htotal
  constructor
  · rw [hall, hall']
  · intro hallowed
    obtain ⟨last, _, hout, hslot⟩ := hlast (hall.mp hallowed)
    obtain ⟨last', _, hout', hslot'⟩ := hlast' (hall.mp hallowed)
    rw [hslot, hslot']
    exact congrArg Prod.snd (hout'.trans hout.symm)

/-- Requests for two tokens and for three are one for five. -/
theorem simultaneous_requests_merge_two_and_three :
    (∀ e ∈ together referenceHost .fiveTokens (slotOf referenceHost none) (.ofSeconds 0) [2, 3],
        Allowed e.output) ↔
      Allowed (executeArgs referenceHost (slotOf referenceHost none)
        (argsOf (.i32 5) ValidPolicies.fiveTokens.pairs) (.ofSeconds 0)).1 := by
  have hcosts : ∀ c ∈ [(2 : Int32), 3], 0 ≤ c.toInt :=
    List.forall_mem_cons.mpr ⟨by decide, List.forall_mem_singleton.mpr (by decide)⟩
  have hmerge := simultaneous_requests_merge referenceHost .fiveTokens none (.ofSeconds 0)
    (List.cons_ne_nil _ _) hcosts
  exact (hmerge.1 (.i32 5) (by decide +kernel)).1

end Limitr
