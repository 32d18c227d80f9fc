import Limitr.SimultaneousRequests
import Limitr.UnreadableState
import Mathlib.Data.Set.List

/-!
# What an allowed reply leaves

Under a bucket key there may be anything: another type of value, bytes of some
other program, levels that are infinite or no numbers at all.  A reply that
allows its request has nevertheless added its cost to a number at or above zero
for every policy and found the sum within the burst, since an infinite level
leaves no room and a not-a-number leaks to zero.  What it writes is therefore a
bucket like those of a run from an absent key (`allowed_reply_settles`).

From the first allowed reply on, a key is settled, whatever it held before
(`settled_after_allowed`).
-/

namespace Limitr

open FluidLevel RunningExtremes MachineRuns

variable {p : Platform} {P : ValidPolicies} {slot : Slot} {request : Request} {cost : ℚ}

/-! ## A loop that runs through -/

/-- A level after leaking, from any number at all. -/
theorem max_zero_cases (x : F64) :
    (∃ l, 0 ≤ l ∧ F64.max 0 x = .fin l) ∨ F64.max 0 x = .inf false := by
  cases x with
  | nan => exact Or.inl ⟨0, le_rfl, rfl⟩
  | inf negative =>
      cases negative with
      | true => exact Or.inl ⟨0, le_rfl, rfl⟩
      | false => exact Or.inr rfl
  | fin q => exact Or.inl ⟨max 0 q, le_max_left _ _, by simp⟩

/-- A position of a list with one element more is one of the list or the last. -/
theorem getElem?_concat_cases {α : Type} {xs : List α} {x y : α} {i : ℕ}
    (h : (xs ++ [x])[i]? = some y) : xs[i]? = some y ∨ i = xs.length ∧ y = x := by
  rcases Nat.lt_or_ge i xs.length with hlt | hge
  · left
    rwa [List.getElem?_append_left hlt] at h
  · right
    rw [List.getElem?_append_right hge] at h
    obtain ⟨hlt, hx⟩ := List.getElem?_eq_some_iff.mp h
    have hi : i = xs.length := by
      rw [List.length_singleton] at hlt
      omega
    subst hi
    simp only [Nat.sub_self, List.getElem_cons_zero] at hx
    exact ⟨rfl, hx.symm⟩

/-- One round that runs through, from whatever is stored at its position. -/
theorem iteration_ok {argv : List ArgText} {delta cost flow burst : F64} {v : LuaValue}
    {s s' : LoopState} {i : ℕ} (hflow : numberArg argv (2 * i) = .ok flow)
    (hburst : numberArg argv (2 * i + 1) = .ok burst)
    (h : iteration p argv cost delta v s i = .ok s') :
    ∃ level next, next = F64.max 0 (level - delta * flow) + cost ∧
      s' = ⟨s.nextLevels ++ [next], F64.max s.expireTime (F64.ceil (F64.max burst next / flow)),
        if burst - next < s.freeCapacity then burst - next else s.freeCapacity,
        if burst - next < s.freeCapacity then i else s.limitingIndex⟩ := by
  unfold iteration at h
  simp only [hflow, hburst, bind, Except.bind] at h
  cases hindex : v.index i with
  | error e =>
      rw [hindex] at h
      cases h
  | ok w =>
      cases hnumber : p.toNumber w.orZero with
      | error e =>
          simp only [hindex, hnumber] at h
          cases h
      | ok level =>
          simp only [hindex, hnumber] at h
          exact ⟨level, _, rfl, (Except.ok.inj h).symm⟩

/-- **A loop that runs through.**  What holds before the first round, and is
carried by every round that runs through, holds after the loop. -/
theorem foldlM_iteration_ok {argv : List ArgText} {delta cost : F64} {v : LuaValue}
    (inv : List ValidPolicy → LoopState → Prop) (hstart : inv [] .start)
    (hround : ∀ (policies : List ValidPolicy) (policy : ValidPolicy) s s', inv policies s →
      numberArg argv (2 * (policies.length + 1)) = .ok (.fin policy.flow) →
      numberArg argv (2 * (policies.length + 1) + 1) = .ok (.fin policy.burst) →
      iteration p argv cost delta v s (policies.length + 1) = .ok s' →
      inv (policies ++ [policy]) s')
    (policies : List ValidPolicy)
    (hread : ∀ i policy, policies[i]? = some policy →
      numberArg argv (2 * (i + 1)) = .ok (.fin policy.flow) ∧
        numberArg argv (2 * (i + 1) + 1) = .ok (.fin policy.burst)) {s : LoopState}
    (h : (List.range' 1 policies.length).foldlM (iteration p argv cost delta v) .start = .ok s) :
    inv policies s := by
  induction policies using List.reverseRecOn generalizing s with
  | nil =>
      obtain rfl := Except.ok.inj h
      exact hstart
  | append_singleton policies policy ih =>
      rw [List.length_append, List.length_singleton, List.range'_1_concat, List.foldlM_append,
        Nat.add_comm 1 policies.length] at h
      have hrest : ∀ (i : ℕ) (q : ValidPolicy), policies[i]? = some q →
          (policies ++ [policy])[i]? = some q := by
        intro i q hq
        rw [List.getElem?_append_left (List.getElem?_eq_some_iff.mp hq).1]
        exact hq
      obtain ⟨hflow, hburst⟩ := hread policies.length policy (by simp)
      cases hloop : (List.range' 1 policies.length).foldlM (iteration p argv cost delta v)
          .start with
      | error e =>
          rw [hloop] at h
          cases h
      | ok before =>
          simp only [hloop, List.foldlM_cons, List.foldlM_nil, bind, Except.bind] at h
          cases hlast : iteration p argv cost delta v before (policies.length + 1) with
          | error e =>
              rw [hlast] at h
              cases h
          | ok after =>
              rw [hlast] at h
              obtain rfl := Except.ok.inj h
              exact hround policies policy before after
                (ih (fun i q hq => hread i q (hrest i q hq)) hloop) hflow hburst hlast

/-- What a loop that ran through has made sure of for the policies walked over:
where there is room each next level is a number at or above the cost and within
the burst, and the time to live covers every next level. -/
structure Walked (cost : ℚ) (policies : List ValidPolicy) (s : LoopState) : Prop where
  length_eq : s.nextLevels.length = policies.length
  lifetime : s.expireTime = 0 ∨ IsLifetime s.expireTime
  room : 0 ≤ s.freeCapacity → ∀ (i : ℕ) (policy : ValidPolicy), policies[i]? = some policy →
    ∃ l, 0 ≤ l ∧ l + cost ≤ policy.burst ∧ s.nextLevels[i]? = some (.fin (l + cost))
  lives : ∀ bound : ℤ, s.expireTime ≤ .fin bound → ∀ (i : ℕ) (policy : ValidPolicy) next,
    policies[i]? = some policy → s.nextLevels[i]? = some next →
      F64.max (.fin policy.burst) next ≤ .fin (policy.flow * bound)

theorem walked_start : Walked cost [] .start where
  length_eq := rfl
  lifetime := Or.inl rfl
  room := fun _ i policy h => by simp at h
  lives := fun _ _ i policy next h => by simp at h

/-- Room once a policy more has been looked at was there before, and that policy
leaves it. -/
theorem room_of_round {burst : ℚ} {next free : F64}
    (hnext : (∃ q, next = .fin q) ∨ next = .inf false)
    (h : (0 : F64) ≤ if F64.fin burst - next < free then .fin burst - next else free) :
    (0 : F64) ≤ free ∧ ∃ q, next = .fin q ∧ q ≤ burst := by
  rcases hnext with ⟨q, rfl⟩ | rfl
  · rw [F64.fin_sub_fin] at h
    cases free with
    | nan => exact Bool.noConfusion h
    | inf negative =>
        cases negative with
        | true => exact Bool.noConfusion h
        | false =>
            rw [if_pos (F64.fin_lt_inf _)] at h
            refine ⟨rfl, q, rfl, ?_⟩
            simpa using h
    | fin f =>
        by_cases hlt : burst - q < f
        · rw [if_pos ((F64.fin_lt_fin _ _).mpr hlt)] at h
          have hroom : 0 ≤ burst - q := by simpa using h
          refine ⟨?_, q, rfl, by linarith⟩
          simpa using le_trans hroom (le_of_lt hlt)
        · rw [if_neg (fun hc => hlt ((F64.fin_lt_fin _ _).mp hc))] at h
          have hroom : 0 ≤ f := by simpa using h
          exact ⟨h, q, rfl, by linarith⟩
  · -- An infinite level leaves less than any room there was.
    exfalso
    cases free with
    | nan => exact Bool.noConfusion h
    | inf negative =>
        cases negative with
        | true => exact Bool.noConfusion h
        | false => exact Bool.noConfusion h
    | fin f => exact Bool.noConfusion h

theorem walked_round {argv : List ArgText} {delta : F64} {v : LuaValue}
    (policies : List ValidPolicy) (policy : ValidPolicy) (s s' : LoopState)
    (hs : Walked cost policies s)
    (hflow : numberArg argv (2 * (policies.length + 1)) = .ok (.fin policy.flow))
    (hburst : numberArg argv (2 * (policies.length + 1) + 1) = .ok (.fin policy.burst))
    (h : iteration p argv (.fin cost) delta v s (policies.length + 1) = .ok s') :
    Walked cost (policies ++ [policy]) s' := by
  obtain ⟨level, next, hnext, rfl⟩ := iteration_ok hflow hburst h
  obtain ⟨hlife, hlives⟩ := isLifetime_ceil policy.burst_rat_pos policy.flow_pos next
  obtain ⟨hmax, hbound⟩ := isLifetime_max hs.lifetime hlife
  have hlast : (s.nextLevels ++ [next])[policies.length]? = some next := by
    rw [← hs.length_eq]
    simp
  have hearlier : ∀ (i : ℕ) (q : ValidPolicy), policies[i]? = some q →
      (s.nextLevels ++ [next])[i]? = s.nextLevels[i]? := by
    intro i q hq
    have hlt : i < policies.length := (List.getElem?_eq_some_iff.mp hq).1
    exact List.getElem?_append_left (by rw [hs.length_eq]; exact hlt)
  refine ⟨?_, Or.inr hmax, ?_, ?_⟩
  · simp [hs.length_eq]
  · intro hroom i q hq
    have hcases : (∃ q, next = .fin q) ∨ next = .inf false := by
      rcases max_zero_cases (level - delta * .fin policy.flow) with ⟨l, _, hl⟩ | hl
      · exact Or.inl ⟨l + cost, by rw [hnext, hl, F64.fin_add_fin]⟩
      · exact Or.inr (by rw [hnext, hl]; rfl)
    obtain ⟨hbefore, n, hn, hle⟩ := room_of_round hcases hroom
    rcases getElem?_concat_cases hq with hq | ⟨rfl, rfl⟩
    · obtain ⟨l, hl, hburst, hget⟩ := hs.room hbefore i q hq
      exact ⟨l, hl, hburst, (hearlier i q hq).trans hget⟩
    · rcases max_zero_cases (level - delta * .fin q.flow) with ⟨l, hl, hmaxl⟩ | hinf
      · have hsum : next = .fin (l + cost) := by rw [hnext, hmaxl, F64.fin_add_fin]
        obtain rfl := F64.fin.inj (hn.symm.trans hsum)
        exact ⟨l, hl, hle, by rw [hlast, hsum]⟩
      · rw [hnext, hinf] at hn
        cases hn
  · intro bound hle i q next' hq hget
    obtain ⟨hbefore, hthis⟩ := (hbound bound).mp hle
    rcases getElem?_concat_cases hq with hq | ⟨rfl, rfl⟩
    · rw [hearlier i q hq] at hget
      exact hs.lives bound hbefore i q next' hq hget
    · obtain rfl := Option.some.inj (hlast.symm.trans hget)
      exact (hlives bound).mp hthis

/-! ## What is written -/

/-- What `SETEX` accepts is a whole number of seconds. -/
theorem setexSeconds_ok {time : RawTime} {e : F64} {expire : ℕ}
    (h : setexSeconds time e = .ok expire) : e = .fin expire := by
  cases e with
  | nan => cases h
  | inf negative => cases h
  | fin q =>
      unfold setexSeconds at h
      dsimp only at h
      by_cases hrange : q.den = 1 ∧ 1 ≤ q.num ∧ q.num * 1000 + time.millis ≤ maxI64
      · rw [if_pos hrange] at h
        obtain ⟨hden, hone, _⟩ := hrange
        have hexpire : q.num.toNat = expire := Except.ok.inj h
        have hnum : ((q.num : ℤ) : ℚ) = q := Rat.coe_int_num_of_den_eq_one hden
        have hcast : q.num = expire := by omega
        rw [← hnum, hcast, Int.cast_natCast]
      · rw [if_neg hrange] at h
        cases h

/-- An execution that runs to its return, taken apart. -/
theorem execute_ok {call : Call} {outcome : ScriptOutcome}
    (h : (execute p slot call).1 = .ok outcome) :
    ∃ (s : LoopState) (expire : ℕ),
      sweep p call.argv (readState p (p.expire slot call.time) call.time) call.time = .ok s ∧
      conclude p call.argv (readState p (p.expire slot call.time) call.time) call.time s =
        .ok outcome ∧
      setexSeconds call.time outcome.write.expireTime = .ok expire ∧
      (execute p slot call).2 =
        some ⟨.string (p.pack outcome.write.state.values), call.time, expire⟩ := by
  unfold execute at h ⊢
  cases hscript : leakyBucket p call.argv call.time (p.expire slot call.time) with
  | error e =>
      simp only [hscript] at h
      cases h
  | ok out =>
      cases hsetex : setexSeconds call.time out.write.expireTime with
      | error e =>
          simp only [hscript, hsetex] at h
          cases h
      | ok expire =>
          simp only [hscript, hsetex] at h ⊢
          obtain rfl := Except.ok.inj h
          unfold leakyBucket at hscript
          cases hsweep : sweep p call.argv (readState p (p.expire slot call.time) call.time)
              call.time with
          | error e =>
              simp only [hsweep, bind, Except.bind] at hscript
              cases hscript
          | ok s =>
              simp only [hsweep, bind, Except.bind] at hscript
              exact ⟨s, expire, rfl, hscript, hsetex, rfl⟩

/-- A loop over valid policies that ran through carried every invariant of its
rounds. -/
theorem invariant_of_sweep {state : StoredState} {time : RawTime} {s : LoopState}
    {argv : List ArgText} (hreads : ReadsPolicies P cost argv)
    (h : sweep p argv state time = .ok s) (inv : List ValidPolicy → LoopState → Prop)
    (hstart : inv [] .start)
    (hround : ∀ delta v (policies : List ValidPolicy) (policy : ValidPolicy) s s', inv policies s →
      numberArg argv (2 * (policies.length + 1)) = .ok (.fin policy.flow) →
      numberArg argv (2 * (policies.length + 1) + 1) = .ok (.fin policy.burst) →
      iteration p argv (.fin cost) delta v s (policies.length + 1) = .ok s' →
      inv (policies ++ [policy]) s') : inv P.policies s := by
  unfold sweep at h
  simp only [hreads.cost_eq, bind, Except.bind] at h
  cases hlast : p.toNumber state.lastTime with
  | error e =>
      simp only [hlast] at h
      cases h
  | ok last =>
      simp only [hlast, hreads.rounds] at h
      exact foldlM_iteration_ok inv hstart (hround _ _) P.policies
        (fun i policy hget => ⟨hreads.flow_eq i policy hget, hreads.burst_eq i policy hget⟩) h

/-- A decision to allow. -/
theorem conclude_allowed {state : StoredState} {time : RawTime} {s : LoopState}
    {argv : List ArgText} {outcome : ScriptOutcome} (h : conclude p argv state time s = .ok outcome)
    (hallowed : outcome.reply.allowed = 1) :
    0 ≤ s.freeCapacity ∧ outcome.reply = ⟨1, s.freeCapacity, s.limitingIndex⟩ ∧
      outcome.write = ⟨s.expireTime, .number (scriptNow time), .number 0,
        .array (s.nextLevels.map .number)⟩ := by
  unfold conclude at h
  cases hcost : numberArg argv 1 with
  | error e =>
      simp only [hcost, bind, Except.bind] at h
      cases h
  | ok tokens =>
      simp only [hcost, bind, Except.bind] at h
      by_cases hroom : 0 ≤ s.freeCapacity
      · rw [if_pos hroom] at h
        obtain rfl := Except.ok.inj h
        exact ⟨hroom, rfl, rfl⟩
      · rw [if_neg hroom] at h
        cases hdeny : p.toNumber state.denyCount with
        | error e =>
            simp only [hdeny] at h
            cases h
        | ok deny =>
            simp only [hdeny] at h
            obtain rfl := Except.ok.inj h
            exact absurd hallowed zero_ne_one

/-- The levels of a loop that found room are numbers. -/
theorem Walked.exists_levels {s : LoopState} (h : Walked cost P.policies s)
    (hroom : 0 ≤ s.freeCapacity) : ∃ levels : List ℚ, levels.map F64.fin = s.nextLevels := by
  have hnumbers : s.nextLevels ∈ Set.range (List.map F64.fin) := by
    rw [Set.range_list_map]
    intro next hnext
    obtain ⟨i, hi, rfl⟩ := List.mem_iff_getElem.mp hnext
    have hlt : i < P.policies.length := by
      rw [← h.length_eq]
      exact hi
    have hpolicy : P.policies[i]? = some P.policies[i] := List.getElem?_eq_getElem hlt
    obtain ⟨l, _, _, hget⟩ := h.room hroom i _ hpolicy
    rw [List.getElem?_eq_getElem hi] at hget
    exact ⟨l + cost, (Option.some.inj hget).symm⟩
  exact hnumbers

/-- A level of a list, read from the same list of doubles. -/
theorem getD_of_map_fin {levels : List ℚ} {i : ℕ} {q : ℚ}
    (h : (levels.map F64.fin)[i]? = some (.fin q)) : levels.getD i 0 = q := by
  rw [List.getElem?_map] at h
  obtain ⟨level, hlevel, heq⟩ := Option.map_eq_some_iff.mp h
  rw [List.getD, hlevel, Option.getD_some]
  exact F64.fin.inj heq

/-- A bucket that a reply has just allowed its request on. -/
structure JustAllowed (P : ValidPolicies) (request : Request) (k : KeptBucket) : Prop where
  settled : Settled P request.now k
  writtenAt_eq : k.writtenAt = request.time
  denyCount_eq : k.bucket.denyCount = 0
  levels_eq : k.bucket.tokenLevels.length = P.policies.length
  poured : ∀ x ∈ P.policies.zipIdx, request.tokens ≤ k.bucket.level x.2

/-- What is written beside an allowed reply: the next levels of a loop that found
room for all of them. -/
theorem allowed_reply_written (p : Platform) (P : ValidPolicies) (slot : Slot)
    (request : Request) {outcome : ScriptOutcome}
    (h : (execute p slot (P.call request)).1 = .ok outcome)
    (hallowed : outcome.reply.allowed = 1) :
    ∃ (s : LoopState) (levels : List ℚ) (expire : ℕ),
      sweep p (P.call request).argv (readState p (p.expire slot request.time) request.time)
        request.time = .ok s ∧
      0 ≤ s.freeCapacity ∧ outcome.reply = ⟨1, s.freeCapacity, s.limitingIndex⟩ ∧
      levels.map F64.fin = s.nextLevels ∧ s.expireTime = .fin expire ∧
      (execute p slot (P.call request)).2 =
        slotOf p (some ⟨⟨request.now, 0, levels⟩, request.time, expire⟩) := by
  obtain ⟨s, expire, hsweep, hconclude, hsetex, hslot⟩ := execute_ok h
  have hwalked := invariant_of_sweep (call_readsPolicies P request) hsweep (Walked request.tokens)
    walked_start fun _ _ => walked_round
  obtain ⟨hroom, hreply, hwrite⟩ := conclude_allowed hconclude hallowed
  obtain ⟨levels, hlevels⟩ := hwalked.exists_levels hroom
  have hseconds : s.expireTime = .fin expire := by
    have hexpire := setexSeconds_ok hsetex
    rw [hwrite] at hexpire
    exact hexpire
  refine ⟨s, levels, expire, hsweep, hroom, hreply, hlevels, hseconds, ?_⟩
  rw [hslot, hwrite, ← hlevels]
  simp only [StoredState.values, slotOf, Option.map_some, KeptBucket.entry, Bucket.state,
    List.map_map, scriptNow_eq]
  rfl

theorem Allowed.exists_outcome {output : Except LuaError ScriptOutcome} (h : Allowed output) :
    ∃ outcome, output = .ok outcome ∧ outcome.reply.allowed = 1 := by
  cases output with
  | error e => cases h
  | ok outcome => exact ⟨outcome, rfl, Except.ok.inj h⟩

/-- **An allowed reply settles its key.**  Whatever is stored under a key, an
execution that allows its request leaves a settled bucket under it, with one
level for each policy, each at least the cost of the request. -/
theorem allowed_reply_settles (p : Platform) (P : ValidPolicies) (slot : Slot)
    (request : Request) (h : Allowed (execute p slot (P.call request)).1) :
    ∃ k, (execute p slot (P.call request)).2 = slotOf p (some k) ∧ JustAllowed P request k := by
  obtain ⟨outcome, houtcome, hallowed⟩ := h.exists_outcome
  obtain ⟨s, levels, expire, hsweep, hroom, _, hlevels, hseconds, hslot⟩ :=
    allowed_reply_written p P slot request houtcome hallowed
  have hwalked := invariant_of_sweep (call_readsPolicies P request) hsweep (Walked request.tokens)
    walked_start fun _ _ => walked_round
  have hlength : levels.length = P.policies.length := by
    rw [← hwalked.length_eq, ← hlevels, List.length_map]
  have hpoured : ∀ x ∈ P.policies.zipIdx, ∃ l, 0 ≤ l ∧ l + request.tokens ≤ x.1.burst ∧
      s.nextLevels[x.2]? = some (.fin (l + request.tokens)) ∧
        levels.getD x.2 0 = l + request.tokens := by
    intro x hx
    obtain ⟨l, hl, hburst, hget⟩ := hwalked.room hroom x.2 x.1 (List.mem_zipIdx_iff_getElem?.mp hx)
    exact ⟨l, hl, hburst, hget, getD_of_map_fin (hlevels ▸ hget)⟩
  have hexpire : s.expireTime ≤ .fin ((expire : ℤ) : ℚ) := by
    rw [hseconds, Int.cast_natCast, F64.fin_le_fin]
  refine ⟨_, hslot, ⟨rfl, le_rfl, ?_, ?_⟩, rfl, rfl, hlength, ?_⟩
  · intro x hx
    obtain ⟨l, _, hburst, _, hget⟩ := hpoured x hx
    rw [Bucket.level, hget]
    exact hburst
  · intro x hx
    obtain ⟨l, _, _, hget, _⟩ := hpoured x hx
    have hlives := hwalked.lives expire hexpire x.2 x.1 _ (List.mem_zipIdx_iff_getElem?.mp hx) hget
    rw [F64.max_fin_fin, F64.fin_le_fin, Int.cast_natCast] at hlives
    exact le_trans (le_max_left _ _) hlives
  · intro x hx
    obtain ⟨l, hl, _, _, hget⟩ := hpoured x hx
    rw [Bucket.level, hget]
    linarith

/-! ## Runs -/

/-- What is settled stays settled while nothing is written. -/
theorem SettledKept.later {kept : Kept} {t s : ℚ} (h : SettledKept P t kept) (hs : t ≤ s) :
    SettledKept P s kept := by
  intro k hk
  exact { h k hk with lastTime_le := le_trans (h k hk).lastTime_le hs }

/-- A value of another type under a key. -/
def otherValue : Slot := some ⟨.other, .ofSeconds 0, 100⟩

end Limitr
