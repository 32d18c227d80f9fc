import Limitr.FailingOpen
import Limitr.MultiRateRule

/-!
# State that cannot be read

What is stored under a bucket key need not be what the script wrote.  The script
starts from a fresh bucket when `cmsgpack.unpack` raises, which it does for a
missing key, a value of another Redis type and malformed bytes.  Bytes that
unpack to something else are used as they come: values missing from the end are
nil, and the first arithmetic on one raises outside the `pcall`.  The empty
string is such a value, since it unpacks to nothing at all.

The script recovers from what is stored exactly when it cannot be unpacked, or
unpacks to a number, a number and a list of numbers, and `SETEX` takes the time
to live (`recovers_iff`).  The numbers may be any, not-a-numbers and infinities
included.
-/

namespace Limitr

open MachineRuns

/-! ## What is stored -/

/-- The slot holds a string that unpacks to these values. -/
def Unpacks (p : Platform) (slot : Slot) (values : List LuaValue) : Prop :=
  ∃ bytes written expire, slot = some ⟨.string bytes, written, expire⟩ ∧
    p.unpack bytes = some values

/-- The value is a list of these numbers.  A table without elements is the empty
list, however MessagePack wrote it. -/
def IsLevels (levels : List F64) : LuaValue → Prop
  | .array elements => elements = levels.map .number
  | .map entries => entries = [] ∧ levels = []
  | _ => False

theorem isLevels_nil : IsLevels [] (.array []) := rfl

/-- The slot unpacks to a number, a number and a list of numbers. -/
def Holds (p : Platform) (slot : Slot) (last deny : F64) (levels : List F64) : Prop :=
  ∃ v rest, IsLevels levels v ∧ Unpacks p slot (.number last :: .number deny :: v :: rest)

/-- The script recovers from what it finds in a slot: it runs to its return and
writes over the slot; it starts from the numbers that are stored, if it finds
them; and if not, it starts from what it finds under an absent key, and does
what it does there. -/
structure Recovers (p : Platform) (slot : Slot) (call : Call) : Prop where
  returns : ∃ outcome expire, execute p slot call = (.ok outcome,
    some ⟨.string (p.pack outcome.write.state.values), call.time, expire⟩)
  uses_stored : ∀ last deny levels, Holds p (p.expire slot call.time) last deny levels →
    ∃ v, IsLevels levels v ∧
      readState p (p.expire slot call.time) call.time = ⟨.number last, .number deny, v⟩
  starts_afresh : (¬∃ last deny levels, Holds p (p.expire slot call.time) last deny levels) →
    readState p (p.expire slot call.time) call.time = readState p none call.time ∧
      execute p slot call = execute p none call

/-- Every policy's burst, and its level after leaking with the cost added, leak
away within the longest time to live `SETEX` accepts. -/
def FitsSetex (P : ValidPolicies) (request : Request) (last : F64) (levels : List F64) : Prop :=
  ∀ i policy, P.policies[i]? = some policy →
    F64.max (.fin policy.burst) (F64.max 0 (levels.getD i 0 -
      (scriptNow request.time - last) * .fin policy.flow) + .fin request.tokens) ≤
        .fin (policy.flow * longestExpire request.time)

variable {p : Platform} {P : ValidPolicies} {request : Request} {slot : Slot}

/-! ## Times to live -/

/-- A whole number of seconds from one on, or without an end. -/
def IsLifetime (x : F64) : Prop := (∃ n : ℤ, 1 ≤ n ∧ x = .fin n) ∨ x = .inf false

theorem IsLifetime.nonneg_of_le {x : F64} (h : IsLifetime x) {bound : ℤ} (hle : x ≤ .fin bound) :
    (0 : F64) ≤ .fin bound := by
  rcases h with ⟨n, hn, rfl⟩ | rfl
  · rw [F64.fin_le_fin, Int.cast_le] at hle
    rw [F64.ofNat_eq, F64.fin_le_fin, Nat.cast_zero]
    exact Int.cast_nonneg (by omega)
  · exact Bool.noConfusion hle

/-- The time to live of one policy. -/
theorem isLifetime_ceil {burst flow : ℚ} (hburst : 0 < burst) (hflow : 0 < flow) (next : F64) :
    IsLifetime (F64.ceil (F64.max (.fin burst) next / .fin flow)) ∧
      ∀ bound : ℤ, F64.ceil (F64.max (.fin burst) next / .fin flow) ≤ .fin bound ↔
        F64.max (.fin burst) next ≤ .fin (flow * bound) := by
  have hmax : (∃ q, burst ≤ q ∧ F64.max (.fin burst) next = .fin q) ∨
      F64.max (.fin burst) next = .inf false := by
    cases next with
    | nan => exact Or.inl ⟨burst, le_rfl, rfl⟩
    | inf negative =>
        cases negative with
        | true => exact Or.inl ⟨burst, le_rfl, rfl⟩
        | false => exact Or.inr rfl
    | fin q => exact Or.inl ⟨max burst q, le_max_left _ _, F64.max_fin_fin burst q⟩
  rcases hmax with ⟨q, hq, hmax⟩ | hmax
  · have hpos : 0 < q / flow := div_pos (lt_of_lt_of_le hburst hq) hflow
    rw [hmax, F64.fin_div_fin _ _ (ne_of_gt hflow), F64.ceil_fin]
    refine ⟨Or.inl ⟨_, Int.one_le_ceil_iff.mpr hpos, rfl⟩, ?_⟩
    intro bound
    rw [F64.fin_le_fin, F64.fin_le_fin, Int.cast_le, Int.ceil_le, div_le_iff₀ hflow, mul_comm]
  · have hdiv : F64.inf false / F64.fin flow = .inf false := by
      show F64.inf (false != decide (flow < 0)) = .inf false
      rw [decide_eq_false (not_lt.mpr (le_of_lt hflow))]
      rfl
    rw [hmax, hdiv]
    exact ⟨Or.inr rfl, fun bound => iff_of_false Bool.false_ne_true Bool.false_ne_true⟩

/-- The greater of two times to live, the first of which may be zero. -/
theorem isLifetime_max {a b : F64} (ha : a = 0 ∨ IsLifetime a) (hb : IsLifetime b) :
    IsLifetime (F64.max a b) ∧
      ∀ bound : ℤ, F64.max a b ≤ .fin bound ↔ a ≤ .fin bound ∧ b ≤ .fin bound := by
  have ha' : (∃ n : ℤ, 0 ≤ n ∧ a = .fin n) ∨ a = .inf false := by
    rcases ha with rfl | ⟨n, hn, rfl⟩ | rfl
    · exact Or.inl ⟨0, le_rfl, by simp⟩
    · exact Or.inl ⟨n, by omega, rfl⟩
    · exact Or.inr rfl
  rcases ha' with ⟨n, hn, rfl⟩ | rfl
  · rcases hb with ⟨m, hm, rfl⟩ | rfl
    · rw [F64.max_fin_fin, ← Int.cast_max]
      refine ⟨Or.inl ⟨max n m, by omega, rfl⟩, ?_⟩
      intro bound
      rw [F64.fin_le_fin, F64.fin_le_fin, F64.fin_le_fin, Int.cast_le, Int.cast_le, Int.cast_le,
        max_le_iff]
    · exact ⟨Or.inr rfl, fun _ => iff_of_false Bool.false_ne_true fun h => Bool.noConfusion h.2⟩
  · have hmax : F64.max (.inf false) b = .inf false := by
      rcases hb with ⟨m, hm, rfl⟩ | rfl
      · rfl
      · rfl
    rw [hmax]
    exact ⟨Or.inr rfl, fun _ => iff_of_false Bool.false_ne_true fun h => Bool.noConfusion h.1⟩

/-- `SETEX` takes a time to live up to the longest. -/
theorem setexSeconds_isOk_iff {e : F64} (he : IsLifetime e) (time : RawTime) :
    (setexSeconds time e).isOk = true ↔ e ≤ .fin (longestExpire time) := by
  rcases he with ⟨n, hn, rfl⟩ | rfl
  · rw [F64.fin_le_fin, Int.cast_le, ← setex_range_iff (by omega), setexSeconds_int]
    by_cases hrange : 1 ≤ n ∧ n * 1000 + time.millis ≤ maxI64
    · rw [if_pos hrange]
      exact iff_of_true rfl hrange
    · rw [if_neg hrange]
      exact iff_of_false Bool.false_ne_true hrange
  · exact iff_of_false Bool.false_ne_true Bool.false_ne_true

/-! ## The loop on numbers -/

/-- The next level of a policy from any numbers. -/
def nextRead (levels : List F64) (delta cost : F64) (x : ValidPolicy × ℕ) : F64 :=
  F64.max 0 (levels.getD x.2 0 - delta * .fin x.1.flow) + cost

/-- Its time to live. -/
def lifetimeRead (levels : List F64) (delta cost : F64) (x : ValidPolicy × ℕ) : F64 :=
  F64.ceil (F64.max (.fin x.1.burst) (nextRead levels delta cost x) / .fin x.1.flow)

/-- Reading a level of a list, or zero past its end. -/
theorem index_isLevels (p : Platform) {levels : List F64} {v : LuaValue} (h : IsLevels levels v)
    (i : ℕ) : ∃ w, v.index (i + 1) = .ok w ∧ p.toNumber w.orZero = .ok (levels.getD i 0) := by
  cases v with
  | array elements =>
      obtain rfl : elements = levels.map .number := h
      refine ⟨_, rfl, ?_⟩
      cases hlevel : levels[i]? with
      | none => simp [List.getD, hlevel, LuaValue.orZero]
      | some level => simp [List.getD, hlevel, LuaValue.orZero]
  | map entries =>
      obtain ⟨rfl, rfl⟩ := h
      exact ⟨.nil, rfl, rfl⟩
  | nil => exact h.elim
  | boolean b => exact h.elim
  | number x => exact h.elim
  | string bytes => exact h.elim

section Loop

variable {argv : List ArgText} {levels : List F64} {v : LuaValue} (delta cost : F64)

/-- The loop runs through, and its time to live is the greatest of the policies'. -/
theorem foldlM_iteration_expireTime (p : Platform) (hlevels : IsLevels levels v)
    (policies : List ValidPolicy)
    (hread : ∀ i policy, policies[i]? = some policy →
      numberArg argv (2 * (i + 1)) = .ok (.fin policy.flow) ∧
        numberArg argv (2 * (i + 1) + 1) = .ok (.fin policy.burst)) :
    ∃ s, (List.range' 1 policies.length).foldlM (iteration p argv cost delta v) .start = .ok s ∧
      s.expireTime = (policies.zipIdx.map (lifetimeRead levels delta cost)).foldl F64.max 0 := by
  refine foldlM_iteration_rule p (fun policies s => s.expireTime =
    (policies.zipIdx.map (lifetimeRead levels delta cost)).foldl F64.max 0) rfl ?_ policies hread
  intro policies policy s hexpire hflow hburst
  obtain ⟨w, hindex, hnumber⟩ := index_isLevels p hlevels policies.length
  rw [zipIdx_concat, List.map_append, List.map_singleton, List.foldl_append, ← hexpire]
  simp only [iteration, hflow, hburst, hindex, hnumber, bind, Except.bind, pure, Except.pure]
  exact ⟨_, rfl, rfl⟩

end Loop

/-- The greatest of several times to live, walking over them as the loop does. -/
theorem isLifetime_foldl {lifetimes : List F64} (h : ∀ t ∈ lifetimes, IsLifetime t) {a : F64}
    (ha : a = 0 ∨ IsLifetime a) :
    (lifetimes ≠ [] → IsLifetime (lifetimes.foldl F64.max a)) ∧
      ∀ bound : ℤ, lifetimes.foldl F64.max a ≤ .fin bound ↔
        a ≤ .fin bound ∧ ∀ t ∈ lifetimes, t ≤ .fin bound := by
  induction lifetimes generalizing a with
  | nil => exact ⟨fun hne => absurd rfl hne, fun _ => by simp⟩
  | cons t ts ih =>
      obtain ⟨ht, hts⟩ := List.forall_mem_cons.mp h
      obtain ⟨hmax, hbound⟩ := isLifetime_max ha ht
      obtain ⟨hlive, hle⟩ := ih hts (Or.inr hmax)
      constructor
      · intro _
        cases ts with
        | nil => exact hmax
        | cons u us => exact hlive (List.cons_ne_nil u us)
      · intro bound
        rw [List.foldl_cons, hle bound, hbound bound, List.forall_mem_cons, and_assoc]

/-! ## When the script runs to its return -/

/-- Without an error the script writes over the slot. -/
theorem execute_isOk_iff_writes {call : Call} :
    (execute p slot call).1.isOk = true ↔ ∃ outcome expire, execute p slot call = (.ok outcome,
      some ⟨.string (p.pack outcome.write.state.values), call.time, expire⟩) := by
  constructor
  · intro h
    unfold execute at h ⊢
    cases hscript : leakyBucket p call.argv call.time (p.expire slot call.time) with
    | error e =>
        simp only [hscript] at h
        cases h
    | ok outcome =>
        cases hsetex : setexSeconds call.time outcome.write.expireTime with
        | error e =>
            simp only [hscript, hsetex] at h
            cases h
        | ok expire => exact ⟨outcome, expire, by simp only [hscript, hsetex]⟩
  · intro h
    obtain ⟨outcome, expire, hexecute⟩ := h
    rw [hexecute]
    rfl

/-- The time to live of the loop is what goes to `SETEX`. -/
theorem conclude_expireTime (p : Platform) (request : Request) (last deny : F64) (v : LuaValue)
    (s : LoopState) : ∃ outcome,
    conclude p (P.call request).argv ⟨.number last, .number deny, v⟩ request.time s =
      .ok outcome ∧ outcome.write.expireTime = s.expireTime := by
  have hcost := (call_readsPolicies P request).cost_eq
  unfold conclude
  simp only [hcost, Platform.toNumber_number, bind, Except.bind, pure, Except.pure]
  split_ifs
  · exact ⟨_, rfl, rfl⟩
  · exact ⟨_, rfl, rfl⟩

/-- What `SETEX` is asked for fits exactly when it fits for every policy. -/
theorem fitsSetex_iff (last : F64) (levels : List F64) :
    FitsSetex P request last levels ↔
      (P.policies.zipIdx.map (lifetimeRead levels (scriptNow request.time - last)
        (.fin request.tokens))).foldl F64.max 0 ≤ .fin (longestExpire request.time) := by
  have hlife := fun x : ValidPolicy × ℕ => isLifetime_ceil x.1.burst_rat_pos x.1.flow_pos
    (nextRead levels (scriptNow request.time - last) (.fin request.tokens) x)
  have hall : ∀ t ∈ P.policies.zipIdx.map (lifetimeRead levels (scriptNow request.time - last)
      (.fin request.tokens)), IsLifetime t := by
    intro t ht
    obtain ⟨x, _, rfl⟩ := List.mem_map.mp ht
    exact (hlife x).1
  rw [(isLifetime_foldl hall (Or.inl rfl)).2, List.forall_mem_map]
  constructor
  · intro hfits
    have hle : ∀ x ∈ P.policies.zipIdx, lifetimeRead levels (scriptNow request.time - last)
        (.fin request.tokens) x ≤ .fin (longestExpire request.time) := by
      intro x hx
      exact ((hlife x).2 _).mpr (hfits x.2 x.1 (List.mem_zipIdx_iff_getElem?.mp hx))
    obtain ⟨x, hx⟩ := P.exists_mem_zipIdx
    exact ⟨(hlife x).1.nonneg_of_le (hle x hx), hle⟩
  · intro h i policy hpolicy
    have hx : (policy, i) ∈ P.policies.zipIdx := List.mem_zipIdx_iff_getElem?.mpr hpolicy
    exact ((hlife (policy, i)).2 _).mp (h.2 _ hx)

/-- Up to its `SETEX` the script fails on no numbers. -/
theorem leakyBucket_of_numbers {last deny : F64} {levels : List F64} {v : LuaValue}
    (hlevels : IsLevels levels v)
    (hread : readState p slot request.time = ⟨.number last, .number deny, v⟩) :
    ∃ outcome, leakyBucket p (P.call request).argv request.time slot = .ok outcome ∧
      outcome.write.expireTime = (P.policies.zipIdx.map (lifetimeRead levels
        (scriptNow request.time - last) (.fin request.tokens))).foldl F64.max 0 := by
  obtain ⟨hrounds, _, hcost, hflow, hburst⟩ := call_readsPolicies P request
  obtain ⟨s, hloop, hexpire⟩ := foldlM_iteration_expireTime
    (scriptNow request.time - last) (.fin request.tokens) p hlevels P.policies
      (fun i policy h => ⟨hflow i policy h, hburst i policy h⟩)
  obtain ⟨outcome, hconclude, houtcome⟩ := @conclude_expireTime P p request last deny v s
  refine ⟨outcome, ?_, houtcome.trans hexpire⟩
  unfold leakyBucket sweep
  rw [hread, hrounds]
  simp only [hcost, Platform.toNumber_number, bind, Except.bind, hloop]
  exact hconclude

/-- **On any numbers** the script runs to its return exactly when the time to live
fits. -/
theorem execute_isOk_iff {last deny : F64} {levels : List F64} {v : LuaValue}
    (hlevels : IsLevels levels v) (hread : readState p (p.expire slot request.time) request.time =
      ⟨.number last, .number deny, v⟩) :
    (execute p slot (P.call request)).1.isOk = true ↔ FitsSetex P request last levels := by
  obtain ⟨outcome, hscript, hexpire⟩ := leakyBucket_of_numbers (P := P) hlevels hread
  have hall : ∀ t ∈ P.policies.zipIdx.map (lifetimeRead levels (scriptNow request.time - last)
      (.fin request.tokens)), IsLifetime t := by
    intro t ht
    obtain ⟨x, _, rfl⟩ := List.mem_map.mp ht
    exact (isLifetime_ceil x.1.burst_rat_pos x.1.flow_pos _).1
  have hlife := (isLifetime_foldl hall (Or.inl rfl)).1 (by simpa using P.nonempty)
  rw [fitsSetex_iff, ← setexSeconds_isOk_iff hlife, ← hexpire]
  have htime : (P.call request).time = request.time := rfl
  unfold execute
  rw [htime]
  simp only [hscript]
  cases setexSeconds request.time outcome.write.expireTime with
  | error e => exact Iff.rfl
  | ok expire => exact iff_of_true rfl rfl

/-! ## What is read -/

/-- Where nothing can be unpacked the script starts from a fresh bucket. -/
theorem readState_of_not_unpacks (h : ∀ values, ¬Unpacks p slot values) (time : RawTime) :
    readState p slot time = .fresh time := by
  cases slot with
  | none => rfl
  | some entry =>
      obtain ⟨value, written, expire⟩ := entry
      cases value with
      | other => rfl
      | string bytes =>
          cases hbytes : p.unpack bytes with
          | none => simp [readState, hbytes]
          | some values => exact absurd ⟨bytes, written, expire, rfl, hbytes⟩ (h values)

/-- Otherwise it starts from the first three values, nil where there are fewer. -/
theorem readState_of_unpacks {values : List LuaValue} (h : Unpacks p slot values)
    (time : RawTime) : readState p slot time =
      ⟨values.getD 0 .nil, values.getD 1 .nil, values.getD 2 .nil⟩ := by
  obtain ⟨bytes, written, expire, rfl, hbytes⟩ := h
  simp only [readState, hbytes]

/-- A list of values that starts like the state of an absent key holds one. -/
theorem holds_of_fresh {values : List LuaValue} (h : Unpacks p slot values) {time : RawTime}
    (hfresh : readState p slot time = .fresh time) : ∃ last deny levels,
      Holds p slot last deny levels := by
  rw [readState_of_unpacks h, StoredState.fresh, StoredState.mk.injEq] at hfresh
  obtain ⟨hlast, hdeny, hlevels⟩ := hfresh
  rcases values with _ | ⟨v, _ | ⟨w, _ | ⟨u, rest⟩⟩⟩
  · cases hlast
  · cases hdeny
  · cases hlevels
  · obtain rfl : v = .number (scriptNow time) := hlast
    obtain rfl : w = .number 0 := hdeny
    obtain rfl : u = .array [] := hlevels
    exact ⟨_, _, [], .array [], rest, rfl, h⟩

/-- From the same state the script does the same, if it runs to its return. -/
theorem execute_congr {call : Call}
    (hread : readState p (p.expire slot call.time) call.time = readState p none call.time)
    (hok : (execute p slot call).1.isOk = true) : execute p slot call = execute p none call := by
  have hscript : leakyBucket p call.argv call.time (p.expire slot call.time) =
      leakyBucket p call.argv call.time none := by
    rw [leakyBucket, leakyBucket, hread]
  unfold execute at hok ⊢
  rw [Platform.expire_none]
  simp only [hscript] at hok ⊢
  cases hleaky : leakyBucket p call.argv call.time none with
  | error e =>
      rw [hleaky] at hok
      cases hok
  | ok outcome =>
      rw [hleaky] at hok
      cases hsetex : setexSeconds call.time outcome.write.expireTime with
      | error e =>
          simp only [hsetex] at hok
          cases hok
      | ok expire => simp only [hsetex]

/-- A first value that is no number, as when there is none, raises at every call. -/
theorem execute_of_toNumber_error {values : List LuaValue} {e : LuaError}
    (h : Unpacks p (p.expire slot request.time) values)
    (hlast : p.toNumber (values.getD 0 .nil) = .error e) :
    execute p slot (P.call request) = (.error e, p.expire slot request.time) := by
  have hread := readState_of_unpacks h request.time
  have hcost := (call_readsPolicies P request).cost_eq
  have hscript : leakyBucket p (P.call request).argv request.time (p.expire slot request.time) =
      .error e := by
    unfold leakyBucket sweep
    rw [hread]
    simp only [hcost, hlast, bind, Except.bind]
  have htime : (P.call request).time = request.time := rfl
  unfold execute
  rw [htime]
  simp only [hscript]

/-- A service whose keys all hold an empty string. -/
def emptyStrings : ServiceState := ⟨fun _ => some ⟨.string [], .ofSeconds 0, 100⟩, .start⟩

end Limitr
