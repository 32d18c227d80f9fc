import Limitr.TokenTotals

/-!
# Denials and the sign of the deny count

The deny count of a denied request is the stored one with the cost added.  It is
cast to an unsigned integer for the metrics, so a denial whose deny count is not
positive moves the counter to the far end of its range.

With policies that never change a request of a cost at or below zero finds room.
After a reload to a smaller burst it need not, and then it is denied with
whatever its cost makes of the stored count.  Every denial of a run is positive
and counted as it is exactly when each request without room brings the stored
count above zero and the counter has space left for it
(`denials_positive_iff`).
-/

namespace Limitr

open DecimalText MachineRuns

variable {p : Platform} {P : ValidPolicies} {kept : Kept}

/-- The deny count the script finds under a key. -/
def storedDenyCount (p : Platform) (slot : Slot) (time : RawTime) : Except LuaError F64 :=
  p.toNumber (readState p (p.expire slot time) time).denyCount

/-- If an answered arrival finds no room, its cost brings the stored deny count
above zero. -/
def Arrival.DeniesAboveZero (p : Platform) (a : Arrival) (s : ServiceState) : Prop :=
  a.Reached p s → ¬a.HasRoom p s → ∃ count,
    storedDenyCount p (s.store a.redisKey) a.call.time = .ok count ∧
      0 < count + F64.ofInt a.cost.toInt

/-- If an answered arrival finds no room, what its cost makes of the stored deny
count does not take the counter past its range. -/
def Arrival.CounterFits (p : Platform) (a : Arrival) (s : ServiceState) : Prop :=
  a.Reached p s → ¬a.HasRoom p s → ∀ count sent,
    storedDenyCount p (s.store a.redisKey) a.call.time = .ok count →
      parse (tostring (count + F64.ofInt a.cost.toInt)) = some sent →
        (s.metrics.denyCountTotal a.label).toNat + sent.toI64.toInt < 2 ^ 64

/-- A denied answer carries a positive deny count and nothing left; the cast
keeps the count, and the counter grows by it. -/
def DeniesPositively (x : Served) : Prop :=
  ∀ response, x.output = .ok response → response.allowed = false →
    0 < response.denyCount.toInt ∧ response.remainingCapacity < 0 ∧
      (response.denyCount.toUInt64.toNat : ℤ) = response.denyCount.toInt ∧
      ((x.after.metrics.denyCountTotal x.input.label).toNat : ℤ) =
        (x.before.metrics.denyCountTotal x.input.label).toNat + response.denyCount.toInt

/-! ## One denial -/

/-- A whole number keeps its sign on the way to the caller. -/
theorem read_pos_iff {n : ℤ} {x : F64} (hread : parse (tostring (.fin n)) = some x) :
    (0 < x.toI64.toInt ↔ 0 < n) ∧ (0 < n → -x < 0) := by
  obtain ⟨r, hr, hpos, hneg⟩ := parse_print_sign (p := 14) (by decide) (n : ℚ)
  obtain rfl := Option.some.inj (hread.symm.trans hr)
  have hone : 0 < n → 1 ≤ r := by
    intro h
    exact hpos (by exact_mod_cast h)
  constructor
  · rw [F64.toI64_pos_iff]
    constructor
    · intro h
      by_contra hn
      have hr := hneg (by exact_mod_cast not_lt.mp hn)
      linarith
    · exact hone
  · intro h
    have hr := hone h
    show F64.fin (-r) < F64.fin 0
    rw [F64.fin_lt_fin]
    linarith

/-- A positive deny count is kept by the cast. -/
theorem toNat_toUInt64 {n : Int64} (h : 0 < n.toInt) : (n.toUInt64.toNat : ℤ) = n.toInt := by
  have hle : 0 ≤ n := by
    rw [Int64.le_iff_toInt_le, Int64.toInt_zero]
    omega
  rw [Int64.toNat_toUInt64_of_le hle, Int64.toNatClampNeg, Int.toNat_of_nonneg (by omega)]

/-- The counter takes a positive deny count exactly when the sum is in its range. -/
theorem toNat_add_toUInt64_iff {n : Int64} (h : 0 < n.toInt) (counter : UInt64) :
    ((counter + n.toUInt64).toNat : ℤ) = counter.toNat + n.toInt ↔
      counter.toNat + n.toInt < 2 ^ 64 := by
  have hcast := toNat_toUInt64 h
  have hsum : (counter + n.toUInt64).toNat = (counter.toNat + n.toUInt64.toNat) % 2 ^ 64 :=
    UInt64.toNat_add counter n.toUInt64
  omega

/-- The bucket under a key counts denied tokens in whole numbers. -/
def CountsWhole (kept : Kept) : Prop :=
  ∀ k, kept = some k → ∃ n : ℤ, k.bucket.denyCount = n

theorem visit_countsWhole {request : Request} (h : CountsWhole kept) :
    CountsWhole (visit p P kept request).2 := by
  apply visit_denyCount (fun count => ∃ n : ℤ, count = n) ⟨0, Int.cast_zero.symm⟩ h
  intro _ hfound
  obtain ⟨n, hn⟩ := hfound
  refine ⟨n + request.cost.toInt, ?_⟩
  rw [hn, Int.cast_add]
  rfl

theorem storedDenyCount_slotOf (kept : Kept) (time : RawTime) :
    storedDenyCount p (slotOf p kept) time =
      .ok (.fin (foundBucket (expireKept p kept time) time.now).denyCount) := by
  rw [storedDenyCount, expire_slotOf, readState_slotOf]
  rfl

/-- **One arrival denies positively** exactly when, without room, its cost brings
the stored deny count above zero and the counter can take the result. -/
theorem fire_deniesPositively_iff {a : Arrival} {s : ServiceState}
    (hP : P.raw = policiesFor a.cache a.request) (hslot : s.store a.redisKey = slotOf p kept)
    (hwhole : CountsWhole kept) :
    DeniesPositively (fire (serve p) s a) ↔ a.DeniesAboveZero p s ∧ a.CounterFits p s := by
  obtain ⟨decision, hdecision, hfailed, hanswered⟩ := serve_cases hP hslot
  obtain ⟨houtput, _, hcounter⟩ := serve_records p s a hdecision
  obtain ⟨n, hn⟩ := found_denyCount (p := p) (fun count => ∃ n : ℤ, count = n)
    ⟨0, Int.cast_zero.symm⟩ hwhole a.call.time
  have hcount : storedDenyCount p (s.store a.redisKey) a.call.time = .ok (.fin n) := by
    rw [hslot, storedDenyCount_slotOf, hn]
  have hroom := Arrival.hasRoom_iff hP hslot
  have hallow : decision.allowed = true → DeniesPositively (fire (serve p) s a) := by
    intro hallowed response hresponse hdenied
    rw [fire_output, houtput] at hresponse
    obtain rfl := Except.ok.inj hresponse
    exact absurd hallowed (Bool.eq_false_iff.mp hdenied)
  by_cases hreached : a.Reached p s
  · obtain ⟨b, hcase⟩ := hanswered hreached
    cases hcase with
    | allowed x hread hfits =>
        refine iff_of_true (hallow rfl) ⟨?_, ?_⟩
        · exact fun _ hfull => absurd (hroom.mpr hfits) hfull
        · exact fun _ hfull => absurd (hroom.mpr hfits) hfull
    | denied x hread hfull =>
        have hnoroom : ¬a.HasRoom p s := by
          intro hhas
          obtain ⟨y, hy, hover⟩ := hfull
          exact absurd (hroom.mp hhas y hy) (not_le.mpr hover)
        have hsum : F64.fin n + F64.ofInt a.cost.toInt = .fin ((n + a.cost.toInt : ℤ) : ℚ) := by
          rw [F64.ofInt, F64.fin_add_fin, Int.cast_add]
        have hprinted : parse (tostring (F64.fin n + F64.ofInt a.cost.toInt)) = some x := by
          rw [hn] at hread
          exact hread
        have habove : 0 < F64.fin n + F64.ofInt a.cost.toInt ↔ 0 < n + a.cost.toInt := by
          rw [hsum, F64.ofNat_eq, F64.fin_lt_fin, Nat.cast_zero, Int.cast_pos]
        obtain ⟨hpos, hneg⟩ := read_pos_iff (hsum ▸ hprinted)
        have hafter : (fire (serve p) s a).after.metrics.denyCountTotal a.label =
            s.metrics.denyCountTotal a.label + x.toI64.toUInt64 := by
          rw [fire_after, hcounter, if_neg Bool.false_ne_true, atLabel, if_pos rfl]
        constructor
        · intro h
          obtain ⟨hdeny, _, _, hgrows⟩ := h _ houtput rfl
          rw [fire_input, hafter, fire_before] at hgrows
          refine ⟨fun _ _ => ⟨_, hcount, habove.mpr (hpos.mp hdeny)⟩, ?_⟩
          intro _ _ count sent hstored hsent
          obtain rfl := Except.ok.inj (hcount.symm.trans hstored)
          obtain rfl := Option.some.inj (hprinted.symm.trans hsent)
          exact (toNat_add_toUInt64_iff hdeny _).mp hgrows
        · intro h response hresponse _
          obtain rfl := Except.ok.inj (houtput.symm.trans hresponse)
          obtain ⟨count, hstored, hcost⟩ := h.1 hreached hnoroom
          obtain rfl := Except.ok.inj (hcount.symm.trans hstored)
          have hdeny := hpos.mpr (habove.mp hcost)
          refine ⟨hdeny, hneg (habove.mp hcost), toNat_toUInt64 hdeny, ?_⟩
          rw [fire_input, hafter, fire_before]
          exact (toNat_add_toUInt64_iff hdeny _).mpr
            (h.2 hreached hnoroom _ _ hstored hprinted)
  · refine iff_of_true (hallow ?_) ⟨?_, ?_⟩
    · rw [hfailed hreached]
      rfl
    · exact fun h => absurd h hreached
    · exact fun h => absurd h hreached

/-! ## Runs in which only positive costs are denied -/

/-- The deny count under a key is at or above zero. -/
def NonnegCount (kept : Kept) : Prop := ∀ k, kept = some k → 0 ≤ k.bucket.denyCount

/-- A visit that denies positive costs only keeps the deny count at or above zero. -/
theorem visit_nonnegCount {request : Request} (h : NonnegCount kept)
    (hroom : request.cost.toInt ≤ 0 →
      HasRoom p P.pairs request.cost (slotOf p kept) request.time) :
    NonnegCount (visit p P kept request).2 := by
  rw [hasRoom_slotOf] at hroom
  apply visit_denyCount (0 ≤ ·) le_rfl h
  intro hfull hfound
  have hcost : 0 < request.cost.toInt := by
    by_contra hcost
    obtain ⟨y, hy, hover⟩ := hfull
    exact absurd (hroom (not_lt.mp hcost) y hy) (not_le.mpr hover)
  exact add_nonneg hfound (Request.tokens_nonneg (le_of_lt hcost))

/-- As long as a cost at or below zero always finds room, every denial brings
the stored deny count above zero. -/
theorem deniesAboveZero_of_hasRoom {arrivals : List Arrival}
    (hcaches : ∀ a ∈ arrivals, a.cache.Valid)
    (hroom : ∀ x ∈ trace (serve p) .start arrivals,
      x.input.cost.toInt ≤ 0 → x.input.HasRoom p x.before) :
    ∀ x ∈ trace (serve p) .start arrivals, x.input.DeniesAboveZero p x.before := by
  have hstep : ∀ (past : List Served) s a, Stores p NonnegCount s →
      ((fire (serve p) s a).input.cache.Valid ∧ ((fire (serve p) s a).input.cost.toInt ≤ 0 →
        (fire (serve p) s a).input.HasRoom p (fire (serve p) s a).before)) →
      Stores p NonnegCount (serve p s a).2 := by
    intro _ s a h hgood
    refine serve_stores_of_visit h hgood.1 (fun _ hcount => hcount) ?_
    intro P kept hP hslot hcount
    apply visit_nonnegCount hcount
    intro hcost
    rw [← hslot, ← Arrival.pairs_eq hP]
    exact hgood.2 hcost
  intro x hx hreached hfull
  obtain ⟨before, after, hsplit⟩ := List.append_of_mem hx
  have hcache : ∀ y ∈ trace (serve p) .start arrivals, y.input.cache.Valid :=
    fun y hy => hcaches y.input (input_mem_of_mem_trace _ hy)
  have hstart : Stores p NonnegCount .start := fun _ => ⟨none, rfl, fun _ hk => nomatch hk⟩
  have hstores := (@history_split _ _ _ (serve p) (fun _ s => Stores p NonnegCount s)
    (fun y => y.input.cache.Valid ∧ (y.input.cost.toInt ≤ 0 → y.input.HasRoom p y.before)) hstep
    .start arrivals hstart (fun y hy => ⟨hcache y hy, hroom y hy⟩) _ _ _ hsplit).1
  obtain ⟨kept, hslot, hcount⟩ := hstores x.input.redisKey
  refine ⟨.fin (foundBucket (expireKept p kept x.input.call.time) x.input.call.time.now).denyCount,
    by rw [hslot, storedDenyCount_slotOf], ?_⟩
  have hpositive : 0 < x.input.cost.toInt := by
    by_contra hcost
    exact hfull (hroom x hx (not_lt.mp hcost))
  have hcast : (0 : ℚ) < x.input.cost.toInt := Int.cast_pos.mpr hpositive
  rw [F64.ofInt, F64.fin_add_fin, F64.ofNat_eq, F64.fin_lt_fin, Nat.cast_zero]
  exact add_pos_of_nonneg_of_pos
    (found_denyCount (0 ≤ ·) le_rfl hcount x.input.call.time) hcast

/-- A request for one of the tokens of a policy, at the start of time. -/
def Arrival.ofBurst (P : ValidPolicies) (cost : Int32) : Arrival :=
  ⟨.new ⟨[], "default", "default", P.raw⟩, ⟨none, "k", some cost⟩, ⟨.up, .ofSeconds 0⟩⟩

end Limitr
