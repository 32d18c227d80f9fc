import Limitr.AllowedReplies
import Limitr.TokenTotals

/-!
# What an answer is worth

An allowed answer tells the caller how much is left.  The number has been printed
with fourteen digits by Redis and read back, so it is not exact, but it is within
half a unit of its fourteenth digit of what the bucket just written leaves
(`remaining_capacity_near`), whatever was stored before.

When no reply comes back the limiter fails open, with the largest double for what
is left.  No reply can carry such a number, since there is never more left than a
burst and what a negative cost gives back.  A caller can therefore tell the two
kinds of permission apart (`fail_open_marked`).
-/

namespace Limitr

open DecimalText FluidLevel MachineRuns

variable {p : Platform} {P : ValidPolicies} {slot : Slot} {request : Request} {cost : ℚ}

/-! ## The room a loop has found -/

/-- If a loop over some policies has found room, it is the least that a next
level leaves, and each next level is at least the cost. -/
structure LeastRoom (cost : ℚ) (policies : List ValidPolicy) (s : LoopState) : Prop where
  length_eq : s.nextLevels.length = policies.length
  none : policies = [] → s.freeCapacity = .inf false
  some : policies ≠ [] → 0 ≤ s.freeCapacity → ∃ q, s.freeCapacity = .fin q ∧
    (∀ (i : ℕ) (policy : ValidPolicy), policies[i]? = some policy →
      ∃ n, s.nextLevels[i]? = some (.fin n) ∧ q ≤ policy.burst - n) ∧
    ∃ (i : ℕ) (policy : ValidPolicy) (n : ℚ), policies[i]? = some policy ∧
      s.nextLevels[i]? = some (.fin n) ∧ q = policy.burst - n ∧ cost ≤ n

theorem leastRoom_start : LeastRoom cost [] .start where
  length_eq := rfl
  none := fun _ => rfl
  some := fun h => absurd rfl h

theorem leastRoom_round {argv : List ArgText} {delta : F64} {v : LuaValue}
    (policies : List ValidPolicy) (policy : ValidPolicy) (s s' : LoopState)
    (hs : LeastRoom cost policies s)
    (hflow : numberArg argv (2 * (policies.length + 1)) = .ok (.fin policy.flow))
    (hburst : numberArg argv (2 * (policies.length + 1) + 1) = .ok (.fin policy.burst))
    (h : iteration p argv (.fin cost) delta v s (policies.length + 1) = .ok s') :
    LeastRoom cost (policies ++ [policy]) s' := by
  obtain ⟨level, next, hnext, rfl⟩ := iteration_ok hflow hburst h
  have hlast : (s.nextLevels ++ [next])[policies.length]? = .some next := by
    rw [← hs.length_eq]
    simp
  have hearlier : ∀ (i : ℕ) (q : ValidPolicy), policies[i]? = .some q →
      (s.nextLevels ++ [next])[i]? = s.nextLevels[i]? := by
    intro i q hq
    have hlt : i < policies.length := (List.getElem?_eq_some_iff.mp hq).1
    exact List.getElem?_append_left (by rw [hs.length_eq]; exact hlt)
  have hnew : (policies ++ [policy])[policies.length]? = .some policy := by simp
  have hcases : (∃ l, 0 ≤ l ∧ next = .fin (l + cost)) ∨ next = .inf false := by
    rcases max_zero_cases (level - delta * .fin policy.flow) with ⟨l, hl, hmax⟩ | hmax
    · exact Or.inl ⟨l, hl, by rw [hnext, hmax, F64.fin_add_fin]⟩
    · exact Or.inr (by rw [hnext, hmax]; rfl)
  refine ⟨by simp [hs.length_eq], fun hempty => absurd hempty (by simp), ?_⟩
  intro _ hroom
  obtain ⟨hbefore, n, rfl, hle⟩ :=
    room_of_round (hcases.imp_left fun ⟨l, _, hl⟩ => ⟨l + cost, hl⟩) hroom
  have hcost : cost ≤ n := by
    rcases hcases with ⟨l, hl, hsum⟩ | hinf
    · rw [F64.fin.inj hsum]
      linarith
    · cases hinf
  dsimp only
  rw [F64.fin_sub_fin]
  by_cases hempty : policies = []
  · subst hempty
    rw [hs.none rfl, if_pos (F64.fin_lt_inf _)]
    refine ⟨policy.burst - n, rfl, ?_, 0, policy, n, hnew, hlast, rfl, hcost⟩
    intro i q hq
    rcases getElem?_concat_cases hq with hq | ⟨rfl, rfl⟩
    · simp at hq
    · exact ⟨n, hlast, le_rfl⟩
  · obtain ⟨q, hfree, hleast, i, least, m, hi, hm, hq, hcostm⟩ := hs.some hempty hbefore
    rw [hfree]
    by_cases hlt : policy.burst - n < q
    · rw [if_pos ((F64.fin_lt_fin _ _).mpr hlt)]
      refine ⟨policy.burst - n, rfl, ?_, policies.length, policy, n, hnew, hlast, rfl, hcost⟩
      intro j r hr
      rcases getElem?_concat_cases hr with hr | ⟨rfl, rfl⟩
      · obtain ⟨k, hk, hkle⟩ := hleast j r hr
        exact ⟨k, (hearlier j r hr).trans hk, by linarith⟩
      · exact ⟨n, hlast, le_rfl⟩
    · rw [if_neg (fun hc => hlt ((F64.fin_lt_fin _ _).mp hc))]
      have hi' : (policies ++ [policy])[i]? = .some least := by
        rw [List.getElem?_append_left (List.getElem?_eq_some_iff.mp hi).1]
        exact hi
      refine ⟨q, rfl, ?_, i, least, m, hi', (hearlier i least hi).trans hm, hq, hcostm⟩
      intro j r hr
      rcases getElem?_concat_cases hr with hr | ⟨rfl, rfl⟩
      · obtain ⟨k, hk, hkle⟩ := hleast j r hr
        exact ⟨k, (hearlier j r hr).trans hk, hkle⟩
      · exact ⟨n, hlast, by linarith⟩

/-- **What an allowed reply says is left** is the least that the levels written
with it leave of a burst. -/
theorem allowed_reply_capacity (p : Platform) (P : ValidPolicies) (slot : Slot)
    (request : Request) {outcome : ScriptOutcome}
    (h : (execute p slot (P.call request)).1 = .ok outcome)
    (hallowed : outcome.reply.allowed = 1) :
    ∃ k q, (execute p slot (P.call request)).2 = slotOf p (some k) ∧
      outcome.reply.capacityOrDeny = .fin q ∧ 0 ≤ q ∧
      (∀ x ∈ P.policies.zipIdx, q ≤ x.1.burst - k.bucket.level x.2) ∧
      ∃ x ∈ P.policies.zipIdx, q = x.1.burst - k.bucket.level x.2 ∧
        request.tokens ≤ k.bucket.level x.2 := by
  obtain ⟨s, levels, expire, hsweep, hroom, hreply, hlevels, _, hslot⟩ :=
    allowed_reply_written p P slot request h hallowed
  have hleast := invariant_of_sweep (call_readsPolicies P request) hsweep
    (LeastRoom request.tokens) leastRoom_start fun _ _ => leastRoom_round
  obtain ⟨q, hfree, hle, i, policy, n, hi, hn, hq, hcost⟩ := hleast.some P.nonempty hroom
  refine ⟨_, q, hslot, by rw [hreply, hfree], ?_, ?_, (policy, i),
    List.mem_zipIdx_iff_getElem?.mpr hi, ?_, ?_⟩
  · rw [hfree] at hroom
    simpa using hroom
  · intro x hx
    obtain ⟨m, hm, hmle⟩ := hle x.2 x.1 (List.mem_zipIdx_iff_getElem?.mp hx)
    rw [← hlevels] at hm
    rw [Bucket.level, getD_of_map_fin hm]
    exact hmle
  · rw [← hlevels] at hn
    rw [Bucket.level, getD_of_map_fin hn]
    exact hq
  · rw [← hlevels] at hn
    rw [Bucket.level, getD_of_map_fin hn]
    exact hcost

/-- A reply says one or zero. -/
theorem reply_flag {call : Call} {outcome : ScriptOutcome}
    (h : (execute p slot call).1 = .ok outcome) :
    outcome.reply.allowed = 1 ∨ outcome.reply.allowed = 0 := by
  obtain ⟨s, _, _, hconclude, _, _⟩ := execute_ok h
  unfold conclude at hconclude
  cases hcost : numberArg call.argv 1 with
  | error e =>
      simp only [hcost, bind, Except.bind] at hconclude
      cases hconclude
  | ok tokens =>
      simp only [hcost, bind, Except.bind] at hconclude
      by_cases hroom : 0 ≤ s.freeCapacity
      · rw [if_pos hroom] at hconclude
        obtain rfl := Except.ok.inj hconclude
        exact Or.inl rfl
      · rw [if_neg hroom] at hconclude
        cases hdeny : p.toNumber (readState p (p.expire slot call.time) call.time).denyCount with
        | error e =>
            simp only [hdeny] at hconclude
            cases hconclude
        | ok deny =>
            simp only [hdeny] at hconclude
            obtain rfl := Except.ok.inj hconclude
            exact Or.inr rfl

/-! ## The answer -/

/-- The largest double is far above any room. -/
theorem ten_pow_lt_maxFinite : (10 : ℚ) ^ 20 < 2 ^ 1024 - 2 ^ 971 := by
  have hsplit : (2 : ℚ) ^ 1024 = 2 ^ 53 * 2 ^ 971 := by rw [← pow_add]
  have hlow : (2 : ℚ) ^ 67 ≤ 2 ^ 971 := pow_le_pow_right₀ (by norm_num) (by norm_num)
  have hten : (10 : ℚ) ^ 20 < 2 ^ 67 := by norm_num
  have htwice : 2 * (2 : ℚ) ^ 971 ≤ 2 ^ 53 * 2 ^ 971 :=
    mul_le_mul_of_nonneg_right (by norm_num) (by positivity)
  rw [hsplit]
  generalize (2 : ℚ) ^ 971 = m at hlow htwice ⊢
  linarith

/-- What is left of a burst, when a cost has been taken, is less than the largest
double. -/
theorem room_lt_maxFinite {policy : ValidPolicy} {tokens : Int32} {q level : ℚ}
    (hq : q = policy.burst - level) (hcost : (tokens.toInt : ℚ) ≤ level) : q < 10 ^ 19 := by
  have hburst : policy.burst ≤ 2 ^ 63 := by
    have hmax := policy.policy.burstCapacity.toInt_le
    rw [ValidPolicy.burst]
    exact_mod_cast le_trans hmax (by decide)
  have htokens : (-2 ^ 31 : ℚ) ≤ tokens.toInt := by
    have hmin := tokens.le_toInt
    exact_mod_cast le_trans (by decide) hmin
  have hbound : (2 : ℚ) ^ 63 + 2 ^ 31 < 10 ^ 19 := by norm_num
  linarith

/-- **An allowed answer**, with the bucket written for it. -/
theorem allowed_answer_cases {s : ServiceState} {a : Arrival}
    (hP : P.raw = policiesFor a.cache a.request) (hreached : a.Reached p s)
    {response : CheckResponse} (h : (serve p s a).1 = .ok response)
    (hallowed : response.allowed = true) :
    ∃ k q r, (serve p s a).2.store a.redisKey = slotOf p (some k) ∧
      (∀ x ∈ P.policies.zipIdx, q ≤ x.1.burst - k.bucket.level x.2) ∧
      (∃ x ∈ P.policies.zipIdx, q = x.1.burst - k.bucket.level x.2) ∧
      response.remainingCapacity = .fin r ∧ |r - q| ≤ q / (2 * 10 ^ 13) ∧ q < 10 ^ 19 := by
  obtain ⟨hlink, hok⟩ := hreached
  obtain ⟨outcome, houtcome⟩ := exists_outcome hok
  have hslot : (serve p s a).2.store a.redisKey =
      (execute p (s.store a.redisKey) ⟨a.pairs, a.cost, a.call.time⟩).2 := by
    rw [serve_store, Store.set, if_pos rfl, Arrival.slotLeft, slotAfterCall, hlink]
    rfl
  obtain ⟨x, hx, hdecision⟩ := checkLimit_of_outcome p a.call a.request.name.domain
    a.request.name.prefixKey a.request.name.key a.cost (policiesFor a.cache a.request) s hlink
    houtcome
  obtain ⟨hanswer, _, _⟩ := serve_records p s a hdecision
  obtain rfl := Except.ok.inj (hanswer.symm.trans h)
  have hone : outcome.reply.allowed = 1 := by
    rcases reply_flag houtcome with hflag | hflag
    · exact hflag
    · rw [hflag] at hallowed
      cases hallowed
  rw [Arrival.pairs_eq hP] at houtcome hslot
  obtain ⟨k, q, hwritten, hcapacity, hroom, hleast, y, hy, hq, hcost⟩ :=
    allowed_reply_capacity p P (s.store a.redisKey) ⟨a.cost, a.call.time⟩ houtcome hone
  obtain ⟨r, hr, hnear⟩ := parse_print_near (p := 14) (by decide) q
  rw [hcapacity] at hx
  obtain rfl := Option.some.inj (hx.symm.trans hr)
  refine ⟨k, q, r, hslot.trans hwritten, hleast, ⟨y, hy, hq⟩, ?_, ?_,
    room_lt_maxFinite hq hcost⟩
  · rw [hone]
    rfl
  · rwa [abs_of_nonneg hroom] at hnear

/-- **Failing open is told apart.**  With valid policies in force, an answer lets its
request through with the largest double for what is left exactly when no reply of
the script came back, whatever is stored. -/
theorem fail_open_marked (p : Platform) (s : ServiceState) {a : Arrival}
    (hcache : a.cache.Valid) :
    (∃ response, (serve p s a).1 = .ok response ∧ response.allowed = true ∧
      response.remainingCapacity = F64.maxFinite) ↔ ¬a.Reached p s := by
  obtain ⟨P, hP⟩ := hcache a.request.name.domain a.request.name.prefixKey
  constructor
  · intro h hreached
    obtain ⟨response, hanswer, hallowed, hmax⟩ := h
    obtain ⟨_, q, r, _, _, _, hremaining, hnear, hq⟩ :=
      allowed_answer_cases hP hreached hanswer hallowed
    rw [hremaining, F64.maxFinite] at hmax
    have hlarge : (10 : ℚ) ^ 20 < r := by
      rw [F64.fin.inj hmax]
      exact ten_pow_lt_maxFinite
    have hupper := (abs_le.mp hnear).2
    have hsmall : q / (2 * 10 ^ 13) < 10 ^ 19 := by
      rw [div_lt_iff₀ (by norm_num)]
      calc q < 10 ^ 19 := hq
        _ ≤ 10 ^ 19 * (2 * 10 ^ 13) := by norm_num
    have hten : (10 : ℚ) ^ 20 = 10 * 10 ^ 19 := by norm_num
    clear hmax
    linarith
  · intro hnot
    have hopen := checkLimit_of_not_reached p a.call a.request.name.domain
      a.request.name.prefixKey a.request.name.key a.cost (policiesFor a.cache a.request) s hnot
    obtain ⟨hanswer, _, _⟩ := serve_records p s a hopen
    exact ⟨_, hanswer, rfl, rfl⟩

/-- A request while Redis is down. -/
theorem fail_open_marked_while_down :
    (∃ response, (serve referenceHost .start ⟨oneTokenCache, ⟨none, "user:1", none⟩,
        ⟨.down "connection refused", .ofSeconds 0⟩⟩).1 = .ok response ∧
      response.allowed = true ∧ response.remainingCapacity = F64.maxFinite) ↔
    ¬Arrival.Reached referenceHost ⟨oneTokenCache, ⟨none, "user:1", none⟩,
      ⟨.down "connection refused", .ofSeconds 0⟩⟩ .start :=
  fail_open_marked referenceHost .start oneTokenCache_valid

end Limitr
