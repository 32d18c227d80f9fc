import Limitr.ReferenceHost
import Limitr.SettledBuckets

/-!
# What a denied request does to later ones

A denied request stores the levels it found beside its own time.  What had
leaked since the last write is thereby filled up again, unless nothing can have
leaked: the request arrives at the stored time itself, or finds no level above
zero.  Such a request is `Quiet`.

A denied request keeps the leak exactly when it is quiet (`keepsLeak_iff`).
When every denied request is quiet, a run with a denied request and the run
without it stay in lockstep, and every later request sees the same decision
(`denied_inert_iff_quiet`).
-/

namespace Limitr

open FluidLevel RunningExtremes MachineRuns

/-- The script ran to its return and denied the request. -/
def Denied (output : Except LuaError ScriptOutcome) : Prop :=
  output.map (fun outcome => outcome.reply.allowed) = .ok 0

instance (output : Except LuaError ScriptOutcome) : Decidable (Denied output) :=
  inferInstanceAs (Decidable (_ = _))

/-- What a request sees: the flag, the limiting index, and the remaining
capacity when it is allowed. -/
def decision (output : Except LuaError ScriptOutcome) :
    Except LuaError (ℤ × ℕ × Option F64) :=
  output.map fun outcome => (outcome.reply.allowed, outcome.reply.limitingIndex,
    if outcome.reply.allowed = 1 then some outcome.reply.capacityOrDeny else none)

/-- If the execution denied its request, the levels found right after it are
those found right before it. -/
def KeepsLeak (p : Platform) (P : ValidPolicies) (e : Execution) : Prop :=
  Denied e.output →
    levelsFound p P.pairs e.after e.input.time = levelsFound p P.pairs e.before e.input.time

/-- The execution arrives at the time stored under its key, or finds no level
above zero there. -/
def Quiet (p : Platform) (P : ValidPolicies) (e : Execution) : Prop :=
  ∃ b : Bucket, readState p (p.expire e.before e.input.time) e.input.time = b.state ∧
    (b.lastTime = e.input.time.now ∨
      ∀ i policy, P.policies[i]? = some policy → b.level i ≤ 0)

variable {p : Platform} {P : ValidPolicies} {kept kept' : Kept} {request : Request} {t : ℚ}
  {x : ValidPolicy × ℕ}

/-! ## Told in buckets -/

/-- A quiet visit, told in buckets. -/
def QuietVisit (p : Platform) (P : ValidPolicies) (kept : Kept) (request : Request) : Prop :=
  (foundBucket (expireKept p kept request.time) request.now).lastTime = request.now ∨
    ∀ x ∈ P.policies.zipIdx,
      (foundBucket (expireKept p kept request.time) request.now).level x.2 ≤ 0

theorem quiet_visit_iff :
    Quiet p P (Firing.map (slotOf p) P.call (fire (visit p P) kept request)) ↔
      QuietVisit p P kept request := by
  have hread : readState p (p.expire (slotOf p kept) request.time) request.time =
      (foundBucket (expireKept p kept request.time) request.now).state := by
    rw [expire_slotOf, readState_slotOf]
  constructor
  · intro h
    obtain ⟨b, hb, hquiet⟩ := h
    have hfound := Bucket.state_injective (hread.symm.trans hb)
    subst hfound
    exact hquiet.imp_right fun h x hx => h x.2 x.1 (List.mem_zipIdx_iff_getElem?.mp hx)
  · intro hquiet
    exact ⟨_, hread, hquiet.imp_right fun h i policy hpolicy =>
      h (policy, i) (List.mem_zipIdx_iff_getElem?.mpr hpolicy)⟩

/-- A denied visit leaves the bucket it found, held. -/
theorem denied_visit (h : Denied (visit p P kept request).1) : ∃ expire,
    (visit p P kept request).2 = some ⟨(foundBucket (expireKept p kept request.time)
      request.now).hold request.now request.tokens, request.time, expire⟩ := by
  have hcases := visit_cases p P kept request
  generalize visit p P kept request = result at hcases h ⊢
  cases hcases with
  | aborted hsetex => cases h
  | committed expire hexpire hroom => cases h
  | held expire hexpire hfull => exact ⟨expire, rfl⟩

/-- The levels a denied visit leaves are those it found, unleaked. -/
theorem denied_leakedAt (h : Denied (visit p P kept request).1) :
    leakedAt (visit p P kept request).2 x request.now =
      max 0 ((foundBucket (expireKept p kept request.time) request.now).level x.2) := by
  obtain ⟨expire, hafter⟩ := denied_visit h
  rw [hafter]
  exact leakedAt_written _ request.time expire x

/-- **Which denials keep the leak.** -/
theorem keepsLeak_visit_iff (h : SettledKept P t kept) (ht : t ≤ request.now) :
    KeepsLeak p P (Firing.map (slotOf p) P.call (fire (visit p P) kept request)) ↔
      (Denied (visit p P kept request).1 → QuietVisit p P kept request) := by
  apply forall_congr'
  intro hdenied
  have hlast := (h.expireKept (p := p) request.time).found_lastTime_le ht
  have hbefore := levelsFound_eq_leakedAt (p := p) h request.time
  have hafter := levelsFound_eq_leakedAt (p := p) (visit_settled (p := p) h ht) request.time
  change levelsFound p P.pairs (slotOf p (visit p P kept request).2) request.time =
    levelsFound p P.pairs (slotOf p kept) request.time ↔ _
  rw [hbefore, hafter, Except.ok.injEq, List.map_inj_left]
  constructor
  · intro hkept
    by_contra hloud
    rw [QuietVisit, not_or] at hloud
    obtain ⟨hmoved, hlevels⟩ := hloud
    apply hlevels
    intro x hx
    have hsame := F64.fin.inj (hkept x hx)
    rw [denied_leakedAt hdenied, ← found_leakedLevel (p := p) h request.time hx] at hsame
    have hclip := (clip_eq_drain_iff x.1.flow_pos (sub_nonneg.mpr hlast)).mp hsame
    exact hclip.resolve_left fun hzero => hmoved (sub_eq_zero.mp hzero).symm
  · intro hquiet x hx
    rw [denied_leakedAt hdenied, ← found_leakedLevel (p := p) h request.time hx]
    apply congrArg F64.fin
    apply (clip_eq_drain_iff x.1.flow_pos (sub_nonneg.mpr hlast)).mpr
    exact hquiet.imp (fun hsame => sub_eq_zero.mpr hsame.symm) (fun hlevels => hlevels x hx)

/-! ## Two runs in lockstep -/

/-- Two keys at which every policy finds the same level. -/
structure Alike (P : ValidPolicies) (t : ℚ) (kept kept' : Kept) : Prop where
  settled : SettledKept P t kept
  settled' : SettledKept P t kept'
  leakedAt_eq : ∀ x ∈ P.policies.zipIdx, leakedAt kept x t = leakedAt kept' x t

theorem Alike.leakedAt_later (h : Alike P t kept kept') {s : ℚ} (hs : t ≤ s)
    (hx : x ∈ P.policies.zipIdx) : leakedAt kept x s = leakedAt kept' x s := by
  rw [leakedAt_drain kept x hs, leakedAt_drain kept' x hs, h.leakedAt_eq x hx]

/-- The script decides by the leaked levels alone. -/
theorem decide_congr {b b' : Bucket} {now : ℚ} (cost : ℚ)
    (h : ∀ x ∈ P.policies.zipIdx, b.leakedLevel now x.1 x.2 = b'.leakedLevel now x.1 x.2) :
    b.expireTime now cost P.policies = b'.expireTime now cost P.policies ∧
      b.limiting now cost P.policies = b'.limiting now cost P.policies := by
  have hnext : ∀ x ∈ P.policies.zipIdx, b.nextLevel now cost x = b'.nextLevel now cost x :=
    fun x hx => by rw [Bucket.nextLevel, Bucket.nextLevel, h x hx]
  have hlives : P.policies.zipIdx.map (b.timeToLive now cost) =
      P.policies.zipIdx.map (b'.timeToLive now cost) :=
    List.map_congr_left fun x hx => by rw [Bucket.timeToLive, Bucket.timeToLive, hnext x hx]
  have hrooms : P.policies.zipIdx.map (b.remaining now cost) =
      P.policies.zipIdx.map (b'.remaining now cost) :=
    List.map_congr_left fun x hx => by rw [Bucket.remaining, Bucket.remaining, hnext x hx]
  exact ⟨by rw [Bucket.expireTime, Bucket.expireTime, hlives],
    by rw [Bucket.limiting, Bucket.limiting, hrooms]⟩

/-- What a request sees on a bucket. -/
theorem decision_outcome (b : Bucket) (now cost : ℚ) :
    decision (.ok (b.outcome now cost P.policies)) =
      .ok (if 0 ≤ (b.limiting now cost P.policies).1 then
        (1, (b.limiting now cost P.policies).2 + 1,
          some (.fin (b.limiting now cost P.policies).1))
      else (0, (b.limiting now cost P.policies).2 + 1, none)) := by
  by_cases hroom : 0 ≤ (b.limiting now cost P.policies).1
  · simp [decision, Except.map, Bucket.outcome, hroom]
  · simp [decision, Except.map, Bucket.outcome, hroom]

/-- Alike keys decide alike. -/
theorem Alike.decision_eq (h : Alike P t kept kept') (ht : t ≤ request.now) :
    decision (visit p P kept request).1 = decision (visit p P kept' request).1 := by
  have hleaked : ∀ x ∈ P.policies.zipIdx,
      (foundBucket (expireKept p kept request.time) request.now).leakedLevel
          request.now x.1 x.2 =
        (foundBucket (expireKept p kept' request.time) request.now).leakedLevel
          request.now x.1 x.2 := by
    intro x hx
    rw [found_leakedLevel h.settled request.time hx, found_leakedLevel h.settled' request.time hx]
    exact h.leakedAt_later ht hx
  obtain ⟨hexpire, hlimiting⟩ := decide_congr request.tokens hleaked
  simp only [visit, hexpire]
  cases setexSeconds request.time (.fin ((foundBucket (expireKept p kept' request.time)
      request.now).expireTime request.now request.tokens P.policies)) with
  | error e => rfl
  | ok expire =>
      change decision (.ok _) = decision (.ok _)
      rw [decision_outcome, decision_outcome, hlimiting]

/-- The level a quiet visit leaves: the one it found, with the cost poured in
if it was allowed. -/
theorem visit_leakedAt_of_quiet (h : SettledKept P t kept) (ht : t ≤ request.now)
    (hquiet : Denied (visit p P kept request).1 → QuietVisit p P kept request)
    (hx : x ∈ P.policies.zipIdx) :
    leakedAt (visit p P kept request).2 x request.now =
      if (decision (visit p P kept request).1).map Prod.fst = .ok 1 then
        max 0 (leakedAt kept x request.now + request.tokens)
      else leakedAt kept x request.now := by
  have hlast := (h.expireKept (p := p) request.time).found_lastTime_le ht
  have hfound := found_leakedLevel (p := p) h request.time hx
  have hcases := visit_cases p P kept request
  generalize visit p P kept request = result at hcases hquiet ⊢
  cases hcases with
  | aborted hsetex =>
      refine Eq.trans ?_ (if_neg (fun hok => (nomatch hok))).symm
      exact leakedAt_expireKept h hx le_rfl
  | committed expire hexpire hroom =>
      have hwritten := leakedAt_written ((foundBucket (expireKept p kept request.time)
        request.now).commit request.now request.tokens P.policies) request.time expire x
      rw [commit_level hx, Bucket.nextLevel, hfound] at hwritten
      exact hwritten.trans (if_pos rfl).symm
  | held expire hexpire hfull =>
      have hwritten := leakedAt_written ((foundBucket (expireKept p kept request.time)
        request.now).hold request.now request.tokens) request.time expire x
      have hclip := (clip_eq_drain_iff x.1.flow_pos (sub_nonneg.mpr hlast)).mpr
        ((hquiet rfl).imp (fun hsame => sub_eq_zero.mpr hsame.symm) (fun hlevels => hlevels x hx))
      refine Eq.trans ?_ (if_neg (fun hok => zero_ne_one (Except.ok.inj hok))).symm
      exact (hwritten.trans hclip).trans hfound

/-- **Quiet visits keep keys alike.** -/
theorem Alike.visit (h : Alike P t kept kept') (ht : t ≤ request.now)
    (hquiet : Denied (visit p P kept request).1 → QuietVisit p P kept request)
    (hquiet' : Denied (visit p P kept' request).1 → QuietVisit p P kept' request) :
    Alike P request.now (visit p P kept request).2 (visit p P kept' request).2 := by
  refine ⟨visit_settled h.settled ht, visit_settled h.settled' ht, fun x hx => ?_⟩
  rw [visit_leakedAt_of_quiet h.settled ht hquiet hx,
    visit_leakedAt_of_quiet h.settled' ht hquiet' hx, h.decision_eq ht, h.leakedAt_later ht hx]

/-- A denied visit that is quiet leaves the key as it found it. -/
theorem alike_of_quiet (h : SettledKept P t kept) (ht : t ≤ request.now)
    (hdenied : Denied (visit p P kept request).1) (hquiet : QuietVisit p P kept request) :
    Alike P request.now (visit p P kept request).2 kept := by
  have hsettled : SettledKept P request.now kept := fun k hk =>
    { h k hk with lastTime_le := le_trans (h k hk).lastTime_le ht }
  refine ⟨visit_settled h ht, hsettled, fun x hx => ?_⟩
  have hflag : (decision (visit p P kept request).1).map Prod.fst = .ok 0 := by
    generalize (visit p P kept request).1 = output at hdenied
    cases output with
    | error e => cases hdenied
    | ok outcome => exact hdenied
  rw [visit_leakedAt_of_quiet h ht (fun _ => hquiet) hx, hflag,
    if_neg (fun hok => zero_ne_one (Except.ok.inj hok))]

/-! ## The executions of the two runs -/

section Runs

variable (p : Platform) (P : ValidPolicies) (history : List Request) (denied : Request)
  (later : List Request)

/-- The execution of the denied request and those of the later requests, after
it and in its absence. -/
def retryAndLater : List Execution :=
  let retry := fire (execute p) (slotAfter p P history) (P.call denied)
  retry :: (executions p retry.after (later.map P.call) ++
    executions p (slotAfter p P history) (later.map P.call))

/-- What the later requests see after the denied request. -/
def decisionsWith : List (Except LuaError (ℤ × ℕ × Option F64)) :=
  (executions p (execute p (slotAfter p P history) (P.call denied)).2 (later.map P.call)).map
    fun e => decision e.output

/-- What the later requests see when it was never sent. -/
def decisionsWithout : List (Except LuaError (ℤ × ℕ × Option F64)) :=
  (executions p (slotAfter p P history) (later.map P.call)).map fun e => decision e.output

theorem retryAndLater_eq : retryAndLater p P history denied later =
    (fire (visit p P) (keptAfter p P history) denied ::
      (trace (visit p P) (visit p P (keptAfter p P history) denied).2 later ++
        trace (visit p P) (keptAfter p P history) later)).map (Firing.map (slotOf p) P.call) := by
  have hretry : fire (execute p) (slotOf p (keptAfter p P history)) (P.call denied) =
      Firing.map (slotOf p) P.call (fire (visit p P) (keptAfter p P history) denied) := by
    rw [fire, execute_slotOf]
    rfl
  rw [retryAndLater, slotAfter_eq, hretry, List.map_cons, List.map_append, ← executions_eq,
    ← executions_eq]
  rfl

theorem decisions_eq : decisionsWith p P history denied later =
      (trace (visit p P) (visit p P (keptAfter p P history) denied).2 later).map
        (fun v => decision v.output) ∧
    decisionsWithout p P history later =
      (trace (visit p P) (keptAfter p P history) later).map (fun v => decision v.output) := by
  rw [decisionsWith, decisionsWithout, slotAfter_eq, execute_slotOf, executions_eq, executions_eq,
    List.map_map, List.map_map]
  exact ⟨rfl, rfl⟩

end Runs

section Inert

variable {history later : List Request} {denied : Request}

/-- Every visit of the two runs finds a settled bucket. -/
theorem retryAndLater_settled
    (hclock : (history ++ denied :: later).Pairwise (fun r r' => r.now ≤ r'.now)) :
    ∀ v ∈ fire (visit p P) (keptAfter p P history) denied ::
      (trace (visit p P) (visit p P (keptAfter p P history) denied).2 later ++
        trace (visit p P) (keptAfter p P history) later),
      ∃ t, SettledKept P t v.before ∧ t ≤ v.input.now ∧
        v = fire (visit p P) v.before v.input := by
  obtain ⟨t, hsettled, hstart⟩ := final_settled (p := p) (P := P) hclock
  obtain ⟨hnow, hrest⟩ := List.forall_mem_cons.mp hstart
  obtain ⟨hlater, hpairwise⟩ := List.pairwise_cons.mp (List.pairwise_append.mp hclock).2.1
  intro v hv
  rcases List.mem_cons.mp hv with rfl | hv
  · exact ⟨t, hsettled, hnow, rfl⟩
  · rcases List.mem_append.mp hv with hv | hv
    · obtain ⟨s, hs, hle, _, hfire⟩ := trace_invariant (visit_preserves p P)
        (visit_settled hsettled hnow) hlater hpairwise (fun _ _ => trivial) v hv
      exact ⟨s, hs, hle, hfire⟩
    · obtain ⟨s, hs, hle, _, hfire⟩ := trace_invariant (visit_preserves p P)
        hsettled hrest hpairwise (fun _ _ => trivial) v hv
      exact ⟨s, hs, hle, hfire⟩

/-- Quiet denials leave the later requests with the same decisions. -/
theorem decisions_eq_of_quiet
    (hclock : (history ++ denied :: later).Pairwise (fun r r' => r.now ≤ r'.now))
    (hdenied : Denied (visit p P (keptAfter p P history) denied).1)
    (hquiet : ∀ v ∈ fire (visit p P) (keptAfter p P history) denied ::
      (trace (visit p P) (visit p P (keptAfter p P history) denied).2 later ++
        trace (visit p P) (keptAfter p P history) later),
      Denied v.output → QuietVisit p P v.before v.input) :
    decisionsWith p P history denied later = decisionsWithout p P history later := by
  obtain ⟨t, hsettled, hstart⟩ := final_settled (p := p) (P := P) hclock
  have hnow : t ≤ denied.now := hstart denied List.mem_cons_self
  obtain ⟨hlater, hpairwise⟩ := List.pairwise_cons.mp (List.pairwise_append.mp hclock).2.1
  obtain ⟨hretry, hrest⟩ := List.forall_mem_cons.mp hquiet
  obtain ⟨hwith, hwithout⟩ := List.forall_mem_append.mp hrest
  have halike := alike_of_quiet hsettled hnow hdenied (hretry hdenied)
  rw [(decisions_eq p P history denied later).1, (decisions_eq p P history denied later).2]
  exact trace_lockstep Request.now (Alike P)
    (fun v => Denied v.output → QuietVisit p P v.before v.input)
    (fun s k k' r h ht hgood hgood' => ⟨h.visit ht hgood hgood', h.decision_eq ht⟩)
    halike hlater hpairwise hwith hwithout

/-- **Denied requests are inert when they are quiet.**  Take a request denied
after any history, and any requests after it.  The later requests decide as
they would have without it, and no denied request of either run throws away
what had leaked before it, exactly when each denied request is quiet. -/
theorem denied_inert_iff_quiet (p : Platform) (P : ValidPolicies)
    (hclock : (history ++ denied :: later).Pairwise (fun r r' => r.now ≤ r'.now))
    (hdenied : Denied (execute p (slotAfter p P history) (P.call denied)).1) :
    (decisionsWith p P history denied later = decisionsWithout p P history later ∧
        ∀ e ∈ retryAndLater p P history denied later, KeepsLeak p P e) ↔
      ∀ e ∈ retryAndLater p P history denied later, Denied e.output → Quiet p P e := by
  have hvisit : Denied (visit p P (keptAfter p P history) denied).1 := by
    rwa [slotAfter_eq, execute_slotOf] at hdenied
  have hstep : ∀ e ∈ retryAndLater p P history denied later,
      KeepsLeak p P e ↔ (Denied e.output → Quiet p P e) := by
    intro e he
    rw [retryAndLater_eq] at he
    obtain ⟨v, hv, rfl⟩ := List.mem_map.mp he
    obtain ⟨t, hsettled, ht, hfire⟩ := retryAndLater_settled hclock v hv
    rw [hfire, keepsLeak_visit_iff hsettled ht, quiet_visit_iff]
    rfl
  constructor
  · intro h e he
    exact (hstep e he).mp (h.2 e he)
  · intro h
    refine ⟨decisions_eq_of_quiet hclock hvisit ?_, fun e he => (hstep e he).mpr (h e he)⟩
    intro v hv hdenied
    obtain ⟨t, hsettled, ht, hfire⟩ := retryAndLater_settled hclock v hv
    have he : Firing.map (slotOf p) P.call v ∈ retryAndLater p P history denied later := by
      rw [retryAndLater_eq]
      exact List.mem_map_of_mem hv
    have hquiet := h _ he hdenied
    rw [hfire] at hquiet
    exact quiet_visit_iff.mp hquiet

end Inert

/-- Half a second after the start of time. -/
def halfSecond : RawTime := ⟨0, 500000, by decide⟩

/-- A bucket of one token is full, and a second request comes half a second
later. -/
theorem denied_inert_iff_quiet_on_full_bucket :
    (decisionsWith referenceHost .oneToken [⟨1, .ofSeconds 0⟩] ⟨1, halfSecond⟩
          [⟨1, .ofSeconds 1⟩] =
        decisionsWithout referenceHost .oneToken [⟨1, .ofSeconds 0⟩] [⟨1, .ofSeconds 1⟩] ∧
      ∀ e ∈ retryAndLater referenceHost .oneToken [⟨1, .ofSeconds 0⟩] ⟨1, halfSecond⟩
          [⟨1, .ofSeconds 1⟩], KeepsLeak referenceHost .oneToken e) ↔
      ∀ e ∈ retryAndLater referenceHost .oneToken [⟨1, .ofSeconds 0⟩] ⟨1, halfSecond⟩
        [⟨1, .ofSeconds 1⟩], Denied e.output → Quiet referenceHost .oneToken e :=
  denied_inert_iff_quiet referenceHost .oneToken (by decide +kernel) (by decide +kernel)

/-- **A retry costs the client its turn.**  The request half a second later is
denied, and because of it the request after a whole second is denied too,
which would have been allowed. -/
theorem retry_denies_later_request :
    Denied (execute referenceHost (slotAfter referenceHost .oneToken [⟨1, .ofSeconds 0⟩])
      (ValidPolicies.oneToken.call ⟨1, halfSecond⟩)).1 ∧
    decisionsWith referenceHost .oneToken [⟨1, .ofSeconds 0⟩] ⟨1, halfSecond⟩
      [⟨1, .ofSeconds 1⟩] = [.ok (0, 1, none)] ∧
    decisionsWithout referenceHost .oneToken [⟨1, .ofSeconds 0⟩] [⟨1, .ofSeconds 1⟩] =
      [.ok (1, 1, some 0)] := by
  decide +kernel

end Limitr
