import Limitr.ReferenceHost
import Limitr.ServiceCluster

/-!
# Requests take effect one at a time

Whatever the processes do at the same time, Redis executes one script after the
other.  `cluster_linearizes` says what that is worth.  The checks in the order
in which they were executed are the run of one service that handles each request
in one go: it leaves Redis with the same store, and every answer the cluster gives
is the answer it would give.  Each request takes effect between its arrival and
its answer, under the policies of the last good configuration its process had
read when it arrived, whichever reloads came in between.
-/

namespace Limitr

open MachineRuns

variable {ι τ : Type} [DecidableEq ι] [DecidableEq τ]

/-- An event of a run of the cluster, as `MachineRuns.trace` records it. -/
abbrev ClusterFiring (ι τ : Type) := Firing (Cluster ι τ) (Event ι τ) (Option Answer)

/-- The checks of a run, in the order in which Redis executed them. -/
def checks (xs : List (ClusterFiring ι τ)) : List LimitCheck :=
  xs.filterMap (Firing.picked Cluster.called)

/-- The reads of the configuration file by the process that was started last in
a place, in order. -/
def filesRead (i : ι) (events : List (Event ι τ)) : List FileRead :=
  events.foldl (fun files event =>
    match event with
    | .start j _ file => if j = i then [file] else files
    | .stop _ => files
    | .on j event => if j = i then files ++ event.attempt.toList else files) []

/-- A request came in under an id and was looked up in the last good
configuration its process had read; the task has been waiting since. -/
def Arrived (parser : ConfigParser) (past : List (ClusterFiring ι τ)) (i : ι) (id : τ)
    (request : CheckRequest) (policies : List RatePolicy) : Prop :=
  ∃ early a mid config, past = early ++ a :: mid ∧ a.input = .on i (.arrive id request) ∧
    LastGood parser (filesRead i (early.map Firing.input)) config ∧
    policies = policiesFor (.new config) request ∧
    ∀ y ∈ a :: mid, y.after.task i id = some (.arrived request policies)

/-- The script of a task has been executed, on the store of the checks before it;
the task has been waiting for its answer since. -/
def Called (p : Platform) (parser : ConfigParser) (store : Store)
    (past : List (ClusterFiring ι τ)) (i : ι) (id : τ) (request : CheckRequest)
    (ret : ScriptReturn) : Prop :=
  ∃ early c late policies call, past = early ++ c :: late ∧
    Arrived parser early i id request policies ∧ c.input = .on i (.call id call) ∧
    ret = (invoke p (final (invoke p) store (checks early)) ⟨request, policies, call⟩).1 ∧
    ∀ y ∈ c :: late, y.after.task i id = some (.called request ret)

/-- What is known of a task from the run so far. -/
def TaskPast (p : Platform) (parser : ConfigParser) (store : Store)
    (past : List (ClusterFiring ι τ)) (i : ι) (id : τ) : Task → Prop
  | .arrived request policies => Arrived parser past i id request policies
  | .called request ret => Called p parser store past i id request ret

/-- What the state of a cluster remembers of its run. -/
structure Remembers (p : Platform) (parser : ConfigParser) (store : Store)
    (past : List (ClusterFiring ι τ)) (s : Cluster ι τ) : Prop where
  store_eq : s.store = final (invoke p) store (checks past)
  upToDate : ∀ i proc, s.processes i = some proc →
    UpToDate parser (filesRead i (past.map Firing.input)) proc.live
  tasks : ∀ i id t, s.task i id = some t → TaskPast p parser store past i id t

section Steps

variable {p : Platform} {parser : ConfigParser} {store : Store}
  {past : List (ClusterFiring ι τ)} {s : Cluster ι τ} {event : Event ι τ} {i : ι} {id : τ}

/-- **The cluster runs Redis.**  Its store is that of the checks it calls. -/
theorem projects_invoke (p : Platform) (parser : ConfigParser) :
    Projects (Cluster.step (ι := ι) (τ := τ) p parser) (invoke p) Cluster.store
      Cluster.called := by
  have hstep : ∀ (s : Cluster ι τ) event, (s.step p parser event).2.store =
      ((s.called event).map fun c => (invoke p s.store c).2).getD s.store := by
    intro s event
    cases event with
    | start j redis file =>
        simp only [Cluster.step, Cluster.called]
        cases startup parser redis file <;> rfl
    | stop j => rfl
    | on j event =>
        simp only [Cluster.step, Cluster.called]
        cases s.processes j with
        | none => rfl
        | some proc => exact Process.step_store
  constructor
  · intro s event c hcalled
    rw [hstep, hcalled]
    rfl
  · intro s event hcalled
    rw [hstep, hcalled]
    rfl

omit [DecidableEq τ] in
theorem filesRead_append (events : List (Event ι τ)) (event : Event ι τ) :
    filesRead i (events ++ [event]) =
      match event with
      | .start j _ file => if j = i then [file] else filesRead i events
      | .stop _ => filesRead i events
      | .on j event =>
          if j = i then filesRead i events ++ event.attempt.toList else filesRead i events := by
  rw [filesRead, List.foldl_append]
  rfl

/-- A process that is up is up to date with the file, one event on. -/
theorem Remembers.step_upToDate (h : Remembers p parser store past s) {proc' : Process τ}
    (hproc : (s.step p parser event).2.processes i = some proc') :
    UpToDate parser (filesRead i (past.map Firing.input ++ [event])) proc'.live := by
  rw [filesRead_append]
  cases event with
  | start j redis file =>
      unfold Cluster.step at hproc
      dsimp only
      by_cases hj : j = i
      · subst hj
        rw [if_pos rfl]
        cases hstart : startup parser redis file with
        | error e => simp [hstart] at hproc
        | ok live =>
            simp only [hstart, Function.update_self] at hproc
            obtain rfl := Option.some.inj hproc
            exact startup_upToDate hstart
      · rw [if_neg hj]
        cases hstart : startup parser redis file <;>
          simp only [hstart, Function.update_of_ne (Ne.symm hj)] at hproc <;>
          exact h.upToDate i proc' hproc
  | stop j =>
      by_cases hj : i = j
      · subst hj
        simp [Cluster.step] at hproc
      · simp only [Cluster.step, Function.update_of_ne hj] at hproc
        exact h.upToDate i proc' hproc
  | on j event =>
      unfold Cluster.step at hproc
      dsimp only
      cases hup : s.processes j with
      | none =>
          simp only [hup] at hproc
          have hne : j ≠ i := fun hji => absurd (hji ▸ hproc) (by simp [hup])
          rw [if_neg hne]
          exact h.upToDate i proc' hproc
      | some proc =>
          simp only [hup] at hproc
          by_cases hj : j = i
          · subst hj
            rw [Function.update_self] at hproc
            obtain rfl := Option.some.inj hproc
            rw [if_pos rfl]
            exact Process.step_upToDate (h.upToDate j proc hup)
          · rw [Function.update_of_ne (Ne.symm hj)] at hproc
            rw [if_neg hj]
            exact h.upToDate i proc' hproc

/-- **Where a task of the cluster comes from.** -/
theorem Cluster.step_task {t : Task} (h : (s.step p parser event).2.task i id = some t) :
    s.task i id = some t ∨
    (∃ request proc, event = .on i (.arrive id request) ∧ s.processes i = some proc ∧
      t = .arrived request (policiesFor proc.live.cache request)) ∨
    ∃ request policies call, event = .on i (.call id call) ∧
      s.task i id = some (.arrived request policies) ∧
      t = .called request (invoke p s.store ⟨request, policies, call⟩).1 := by
  cases event with
  | start j redis file =>
      unfold Cluster.step Cluster.task at h
      by_cases hj : i = j
      · subst hj
        cases hstart : startup parser redis file <;> simp [hstart] at h
      · cases hstart : startup parser redis file <;>
          simp only [hstart, Function.update_of_ne hj] at h <;> exact Or.inl h
  | stop j =>
      unfold Cluster.step Cluster.task at h
      by_cases hj : i = j
      · subst hj
        simp at h
      · simp only [Function.update_of_ne hj] at h
        exact Or.inl h
  | on j event =>
      unfold Cluster.step at h
      cases hup : s.processes j with
      | none =>
          simp only [hup] at h
          exact Or.inl h
      | some proc =>
          simp only [hup, Cluster.task] at h
          by_cases hj : i = j
          · subst hj
            rw [Function.update_self] at h
            have htask : ∀ t', s.task i id = some t' ↔ proc.tasks id = some t' := by
              intro t'
              rw [Cluster.task, hup]
              rfl
            rcases Process.step_task h with hkept | ⟨request, rfl, rfl⟩ |
              ⟨request, policies, call, rfl, harrived, rfl⟩
            · exact Or.inl ((htask t).mpr hkept)
            · exact Or.inr (Or.inl ⟨request, proc, rfl, hup, rfl⟩)
            · exact Or.inr (Or.inr ⟨request, policies, call, rfl, (htask _).mpr harrived, rfl⟩)
          · rw [Function.update_of_ne hj] at h
            exact Or.inl h

/-- **Where an answer of the cluster comes from.** -/
theorem Cluster.step_check {response : Except Status CheckResponse}
    (h : (s.step p parser event).1 = some (.check response)) :
    ∃ i id request ret m, event = .on i (.answer id) ∧
      s.task i id = some (.called request ret) ∧ response = (respond request ret m).1 := by
  cases event with
  | start j redis file =>
      unfold Cluster.step at h
      cases hstart : startup parser redis file <;> simp [hstart] at h
  | stop j => cases h
  | on j event =>
      unfold Cluster.step at h
      cases hup : s.processes j with
      | none => simp [hup] at h
      | some proc =>
          simp only [hup] at h
          obtain ⟨id, request, ret, rfl, htask, rfl⟩ := Process.step_check h
          refine ⟨j, id, request, ret, _, rfl, ?_, rfl⟩
          rw [Cluster.task, hup]
          exact htask

/-! ## One step further -/

omit [DecidableEq τ] in
/-- What is known of a waiting task is still known an event later. -/
theorem TaskPast.append {t : Task} (h : TaskPast p parser store past i id t)
    {x : ClusterFiring ι τ} (hx : x.after.task i id = some t) :
    TaskPast p parser store (past ++ [x]) i id t := by
  have hlast : ∀ {a : ClusterFiring ι τ} {mid}, (∀ y ∈ a :: mid, y.after.task i id = some t) →
      ∀ y ∈ a :: (mid ++ [x]), y.after.task i id = some t := by
    intro a mid hwait y hy
    rw [← List.cons_append] at hy
    rcases List.mem_append.mp hy with hy | hy
    · exact hwait y hy
    · rw [List.mem_singleton.mp hy]
      exact hx
  cases t with
  | arrived request policies =>
      obtain ⟨early, a, mid, config, rfl, ha, hlive, hpolicies, hwait⟩ := h
      refine ⟨early, a, mid ++ [x], config, ?_, ha, hlive, hpolicies, hlast hwait⟩
      rw [List.append_assoc, List.cons_append]
  | called request ret =>
      obtain ⟨early, c, late, policies, call, rfl, harrived, hc, hret, hwait⟩ := h
      refine ⟨early, c, late ++ [x], policies, call, ?_, harrived, hc, hret, hlast hwait⟩
      rw [List.append_assoc, List.cons_append]

omit [DecidableEq ι] [DecidableEq τ] in
theorem checks_append (xs ys : List (ClusterFiring ι τ)) :
    checks (xs ++ ys) = checks xs ++ checks ys :=
  List.filterMap_append

/-- **One event of the cluster remembered.** -/
theorem Remembers.step (h : Remembers p parser store past s) (event : Event ι τ) :
    Remembers p parser store (past ++ [fire (Cluster.step p parser) s event])
      (s.step p parser event).2 := by
  constructor
  · have hrun := (projects_invoke p parser).final_eq s [event]
    rw [h.store_eq] at hrun
    rw [checks_append, final_append]
    exact hrun
  · intro i proc hproc
    rw [List.map_append]
    exact h.step_upToDate hproc
  · intro i id t ht
    rcases Cluster.step_task ht with hkept | ⟨request, proc, rfl, hproc, rfl⟩ |
      ⟨request, policies, call, rfl, harrived, rfl⟩
    · exact (h.tasks i id t hkept).append ht
    · obtain ⟨config, hlast, hcache, _⟩ := h.upToDate i proc hproc
      refine ⟨past, _, [], config, rfl, rfl, hlast, by rw [hcache], ?_⟩
      intro y hy
      rw [List.mem_singleton.mp hy]
      exact ht
    · refine ⟨past, _, [], policies, call, rfl, h.tasks i id _ harrived, rfl, ?_, ?_⟩
      · rw [← h.store_eq]
      · intro y hy
        rw [List.mem_singleton.mp hy]
        exact ht

end Steps

/-! ## Runs -/

/-- The store after checks handled in one go is the store after their calls. -/
theorem serveCheck_store (p : Platform) (s : ServiceState) (cs : List LimitCheck) :
    (final (serveCheck p) s cs).store = final (invoke p) s.store cs := by
  induction cs generalizing s with
  | nil => rfl
  | cons c cs ih => exact ih (serveCheck p s c).2

omit [DecidableEq τ] in
/-- Nothing is to be remembered of a cluster without processes. -/
theorem remembers_start (p : Platform) (parser : ConfigParser) (store : Store) :
    Remembers p parser store [] (Cluster.start store : Cluster ι τ) := by
  constructor
  · rfl
  · intro i proc hproc
    cases hproc
  · intro i id t ht
    cases ht

variable {p : Platform} {parser : ConfigParser} {store : Store}

/-- **What is remembered at any point of a run.** -/
theorem remembers_split {events : List (Event ι τ)} {before after : List (ClusterFiring ι τ)}
    {x : ClusterFiring ι τ}
    (hrun : trace (Cluster.step p parser) (.start store) events = before ++ x :: after) :
    Remembers p parser store before x.before ∧
      x = fire (Cluster.step p parser) x.before x.input := by
  have hstep : ∀ past (s : Cluster ι τ) event, Remembers p parser store past s → True →
      Remembers p parser store (past ++ [fire (Cluster.step p parser) s event])
        (s.step p parser event).2 :=
    fun _ _ event h _ => h.step event
  exact history_split hstep (remembers_start p parser store) (fun _ _ => trivial) hrun

/-- **The cluster answers like one service.**  Whatever the order of events, what
Redis holds in the end is what one service leaves that handles the executed checks
one by one.  Each answer to a request is the one this service gives, under the
policies of the last good configuration its process had read on its arrival, at
the moment its script was executed; the task waited from its arrival to its
answer. -/
theorem cluster_linearizes (p : Platform) (parser : ConfigParser) (store : Store)
    (events : List (Event ι τ)) :
    (final (Cluster.step p parser) (.start store) events).store =
      (final (serveCheck p) ⟨store, .start⟩
        (checks (trace (Cluster.step p parser) (.start store) events))).store ∧
    ∀ before x after response,
      trace (Cluster.step p parser) (.start store) events = before ++ x :: after →
        x.output = some (.check response) →
          ∃ i id request policies call early c late,
            before = early ++ c :: late ∧
            Arrived parser early i id request policies ∧
            c.input = .on i (.call id call) ∧
            (∃ ret, ∀ y ∈ c :: late, y.after.task i id = some (.called request ret)) ∧
            x.input = .on i (.answer id) ∧
            response = (serveCheck p (final (serveCheck p) ⟨store, .start⟩ (checks early))
              ⟨request, policies, call⟩).1 := by
  constructor
  · rw [serveCheck_store]
    exact (projects_invoke p parser).final_eq (Cluster.start store) events
  · intro before x after response hrun hanswer
    obtain ⟨hpast, hfire⟩ := remembers_split hrun
    rw [hfire, fire_output] at hanswer
    obtain ⟨i, id, request, ret, m, hinput, htask, rfl⟩ := Cluster.step_check hanswer
    obtain ⟨early, c, late, policies, call, hbefore, harrived, hc, hret, hwait⟩ :=
      hpast.tasks i id _ htask
    refine ⟨i, id, request, policies, call, early, c, late, hbefore, harrived, hc, ⟨ret, hwait⟩,
      hinput, ?_⟩
    rw [serveCheck, respond, respond, serveCheck_store, hret]

/-- Two processes, a request for three tokens in each under the same id.  The
second to arrive is executed first; the file of the first process is truncated
before its request is. -/
def twoProcesses : List (Event ℕ ℕ) :=
  [.start 0 .default (.ok "\x7b\x7d"), .start 1 .default (.ok "\x7b\x7d"),
    .on 0 (.arrive 7 ⟨none, "user:1", some 3⟩), .on 1 (.arrive 7 ⟨none, "user:1", some 3⟩),
    .on 1 (.call 7 ⟨.up, .ofSeconds 1⟩), .on 0 (.watch ⟨.ok .modify, .ok ""⟩),
    .on 0 (.call 7 ⟨.up, .ofSeconds 2⟩)]

/-- The first process then answers as one service would that has seen both. -/
theorem cluster_linearizes_on_two_processes :
    ∃ i id request policies call early c late,
      trace (Cluster.step referenceHost emptyObjectParser) (.start fun _ => none) twoProcesses =
        early ++ c :: late ∧
      Arrived emptyObjectParser early i id request policies ∧
      c.input = .on i (.call id call) ∧
      .ok ⟨true, 97, 1, 0⟩ = (serveCheck referenceHost
        (final (serveCheck referenceHost) ⟨fun _ => none, .start⟩ (checks early))
          ⟨request, policies, call⟩).1 := by
  have hrun : trace (Cluster.step referenceHost emptyObjectParser) (.start fun _ => none)
      (twoProcesses ++ [.on 0 (.answer 7)]) =
        trace (Cluster.step referenceHost emptyObjectParser) (.start fun _ => none) twoProcesses ++
          fire (Cluster.step referenceHost emptyObjectParser)
            (final (Cluster.step referenceHost emptyObjectParser) (.start fun _ => none)
              twoProcesses) (.on 0 (.answer 7)) :: [] := rfl
  have hanswer : ((Cluster.step referenceHost emptyObjectParser
      (final (Cluster.step referenceHost emptyObjectParser) (.start fun _ => none) twoProcesses)
        (.on 0 (.answer 7))).1.bind Answer.checked) = some (.ok ⟨true, 97, 1, 0⟩) := by
    decide +kernel
  obtain ⟨answer, houtput, hchecked⟩ := Option.bind_eq_some_iff.mp hanswer
  obtain ⟨i, id, request, policies, call, early, c, late, hbefore, harrived, hc, _, _, hresponse⟩ :=
    (cluster_linearizes referenceHost emptyObjectParser (fun _ => none)
      (twoProcesses ++ [.on 0 (.answer 7)])).2 _ _ _ _ hrun
      (houtput.trans (congrArg some (Answer.checked_eq_some hchecked)))
  exact ⟨i, id, request, policies, call, early, c, late, hbefore, harrived, hc, hresponse⟩

end Limitr
