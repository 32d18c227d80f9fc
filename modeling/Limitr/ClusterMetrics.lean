import Limitr.ClusterOrder
import Limitr.ReloadCounts
import Mathlib.Algebra.BigOperators.Group.List.Basic
import Mathlib.Tactic.Linarith

/-!
# What the counters of a process say

Handlers of a process run beside each other and beside the watcher, and all of
them count in the same registry.  Its counters are nevertheless a ledger of the
requests the process has answered since it was started, in the order of its
answers: each is counted once under its label, once under what its call of Redis
came to, and with its cost, whatever else went on between its parts and in other
processes.  Requests that were dropped, or that are still waiting, have left
nothing, even if Redis has executed them.

The books of a process therefore balance (`cluster_books_balance`): what it has
answered is what Redis executed, failed at or was not there for.
-/

namespace Limitr

open MachineRuns

/-! ## Counters and what they count -/

section Counters

variable {α Label : Type} [DecidableEq Label]

/-- The counter of each label counts the elements with that label. -/
def Counts (label : α → Option Label) (as : List α) (values : Label → ℚ) : Prop :=
  ∀ l, values l = as.countP fun a => decide (label a = some l)

/-- The counters with one element more, counted if it has a label. -/
def countOne (values : Label → ℚ) (label : Option Label) : Label → ℚ :=
  label.elim values fun l => atLabel values l (· + 1)

theorem Counts.append {label : α → Option Label} {as : List α} {values : Label → ℚ}
    (h : Counts label as values) (a : α) :
    Counts label (as ++ [a]) (countOne values (label a)) := by
  intro l
  rw [List.countP_append, List.countP_singleton, Nat.cast_add, ← h l, countOne]
  cases ha : label a with
  | none => simp
  | some l' =>
      by_cases hl : l = l'
      · subst hl
        simp [atLabel]
      · have hne : l' ≠ l := fun hsame => hl hsame.symm
        simp [atLabel, hl, hne]

/-- The histogram of each label lists what was observed of the elements with that
label, in order. -/
def Observes {Value : Type} (label : α → Label) (value : α → Value) (as : List α)
    (values : Label → List Value) : Prop :=
  ∀ l, values l = (as.filter fun a => decide (label a = l)).map value

theorem Observes.append {Value : Type} {label : α → Label} {value : α → Value} {as : List α}
    {values : Label → List Value} (h : Observes label value as values) (a : α) :
    Observes label value (as ++ [a]) (atLabel values (label a) (· ++ [value a])) := by
  intro l
  rw [List.filter_append, List.map_append, ← h l, atLabel]
  by_cases hl : l = label a
  · subst hl
    simp
  · have hne : label a ≠ l := fun hsame => hl hsame.symm
    simp [hl, hne]

/-- The counter of each label is the sum over the elements with that label. -/
def Totals (label : α → Label) (value : α → ℤ) (as : List α) (values : Label → ℚ) : Prop :=
  ∀ l, values l = (((as.filter fun a => decide (label a = l)).map value).sum : ℤ)

theorem Totals.append {label : α → Label} {value : α → ℤ} {as : List α} {values : Label → ℚ}
    (h : Totals label value as values) (a : α) :
    Totals label value (as ++ [a]) (atLabel values (label a) (· + value a)) := by
  intro l
  rw [List.filter_append, List.map_append, List.sum_append, Int.cast_add, ← h l, atLabel]
  by_cases hl : l = label a
  · subst hl
    simp
  · have hne : label a ≠ l := fun hsame => hl hsame.symm
    simp [hl, hne]

end Counters

/-! ## The ledger of a process -/

/-- A request that was answered, and what its call came back with. -/
structure Answered where
  request : CheckRequest
  ret : ScriptReturn

namespace Answered

variable (a : Answered)

def label : String × String := (a.request.name.domain, a.request.name.prefixKey)

def requestLabel : String × String × String :=
  (a.request.name.domain, a.request.name.prefixKey,
    if a.ret.decision.allowed then "true" else "false")

def deniedLabel : Option (String × String) :=
  if a.ret.decision.allowed then none else some a.label

/-- The label of the script's executions it is counted under. -/
def executionLabel : Option String :=
  match a.ret with
  | .down _ => none
  | .failed _ => some "error"
  | .replied _ => some "success"

/-- The label of Redis' errors it is counted under. -/
def errorLabel : Option String :=
  match a.ret with
  | .down _ => some "connection_establishment_failed"
  | .failed _ => some "script_execution_failed"
  | .replied _ => none

end Answered

/-- The metrics are those of the requests answered. -/
structure Ledger (as : List Answered) (m : Metrics) : Prop where
  requests : Counts (fun a => some a.requestLabel) as m.requestsTotal
  denied : Counts Answered.deniedLabel as m.requestsDeniedTotal
  executions : Counts Answered.executionLabel as m.redisScriptExecutionsTotal
  errors : Counts Answered.errorLabel as m.redisErrorsTotal
  tokens : Totals Answered.label (fun a => (a.request.cost.getD 1).toInt) as
    m.tokensConsumedTotal
  capacities : Observes Answered.label (fun a => a.ret.decision.remainingCapacity) as
    m.bucketRemainingCapacity
  indices : Observes Answered.label
    (fun a => F64.ofInt a.ret.decision.limitingRateIndex.toInt) as m.limitingRateIndex

/-- Nothing has been answered when a process starts. -/
theorem ledger_start {m : Metrics} {n : ℚ} (h : m = { Metrics.start with activeDomains := n }) :
    Ledger [] m := by
  subst h
  constructor <;> intro l <;> simp [Metrics.start]

/-- What an answer changes in the registry. -/
theorem respond_counters (request : CheckRequest) (ret : ScriptReturn) (m : Metrics) :
    let a : Answered := ⟨request, ret⟩
    let m' := (respond request ret m).2
    m'.requestsTotal = countOne m.requestsTotal (some a.requestLabel) ∧
    m'.requestsDeniedTotal = countOne m.requestsDeniedTotal a.deniedLabel ∧
    m'.redisScriptExecutionsTotal = countOne m.redisScriptExecutionsTotal a.executionLabel ∧
    m'.redisErrorsTotal = countOne m.redisErrorsTotal a.errorLabel ∧
    m'.tokensConsumedTotal =
      atLabel m.tokensConsumedTotal a.label (· + (request.cost.getD 1).toInt) ∧
    m'.bucketRemainingCapacity =
      atLabel m.bucketRemainingCapacity a.label (· ++ [ret.decision.remainingCapacity]) ∧
    m'.limitingRateIndex = atLabel m.limitingRateIndex a.label
      (· ++ [F64.ofInt ret.decision.limitingRateIndex.toInt]) := by
  simp only [respond, CheckRequest.record, Answered.requestLabel, Answered.deniedLabel]
  cases ret.decision.allowed with
  | true => cases ret <;> exact ⟨rfl, rfl, rfl, rfl, rfl, rfl, rfl⟩
  | false => cases ret <;> exact ⟨rfl, rfl, rfl, rfl, rfl, rfl, rfl⟩

/-- **An answer is entered in the ledger.** -/
theorem Ledger.answer {as : List Answered} {m : Metrics} (h : Ledger as m)
    (request : CheckRequest) (ret : ScriptReturn) :
    Ledger (as ++ [⟨request, ret⟩]) (respond request ret m).2 := by
  obtain ⟨hrequests, hdenied, hexecutions, herrors, htokens, hcapacities, hindices⟩ :=
    respond_counters request ret m
  constructor
  · rw [hrequests]
    exact h.requests.append ⟨request, ret⟩
  · rw [hdenied]
    exact h.denied.append ⟨request, ret⟩
  · rw [hexecutions]
    exact h.executions.append ⟨request, ret⟩
  · rw [herrors]
    exact h.errors.append ⟨request, ret⟩
  · rw [htokens]
    exact h.tokens.append ⟨request, ret⟩
  · rw [hcapacities]
    exact h.capacities.append ⟨request, ret⟩
  · rw [hindices]
    exact h.indices.append ⟨request, ret⟩

/-- The watcher counts elsewhere. -/
theorem Ledger.watch {parser : ConfigParser} {as : List Answered} {live : LiveConfig}
    (h : Ledger as live.metrics) (message : Message) :
    Ledger as (handleMessage parser live message).metrics := by
  have hsame : ∀ success n, Ledger as
      { live.metrics.recordConfigReload success with activeDomains := n } :=
    fun _ _ => ⟨h.requests, h.denied, h.executions, h.errors, h.tokens, h.capacities, h.indices⟩
  unfold handleMessage
  cases message.event with
  | error e => exact hsame false live.metrics.activeDomains
  | ok kind =>
      cases hkind : shouldReload kind with
      | false => simpa [hkind] using h
      | true =>
          simp only [hkind, if_true]
          have hcases := reload_cases parser message.file live
          generalize reloadConfig parser message.file live = live' at hcases ⊢
          cases hcases with
          | replaced config hgood huncounted => exact hsame true _
          | counted hloads huncounted => exact hsame false live.metrics.activeDomains
          | unseen hloads huncounted => exact h

/-! ## Runs -/

section Cluster

variable {ι τ : Type} [DecidableEq ι] [DecidableEq τ]

/-- What an event of a process answers. -/
def Process.answering (proc : Process τ) : ProcessEvent τ → List Answered
  | .answer id =>
      match proc.tasks id with
      | some (.called request ret) => [⟨request, ret⟩]
      | _ => []
  | _ => []

/-- The requests answered in a place since a process was last started there. -/
def answered (i : ι) (xs : List (ClusterFiring ι τ)) : List Answered :=
  xs.foldl (fun as x =>
    match x.input with
    | .start j _ _ => if j = i then [] else as
    | .stop _ => as
    | .on j event =>
        if j = i then as ++ (x.before.processes i).elim [] fun proc => proc.answering event
        else as) []

variable {p : Platform} {parser : ConfigParser} {past : List (ClusterFiring ι τ)}
  {s : Cluster ι τ} {i : ι}

/-- The registry of every process that is up is the ledger of its answers. -/
def KeepsLedgers (past : List (ClusterFiring ι τ)) (s : Cluster ι τ) : Prop :=
  ∀ i proc, s.processes i = some proc → Ledger (answered i past) proc.live.metrics

/-- What an event of a process makes of its registry. -/
theorem Process.step_ledger {proc : Process τ} {store : Store} {event : ProcessEvent τ}
    {as : List Answered} (h : Ledger as proc.live.metrics) :
    Ledger (as ++ proc.answering event) (proc.step p parser store event).2.1.live.metrics := by
  cases event with
  | watch message => simpa [Process.answering, Process.step] using h.watch message
  | arrive id request =>
      simp only [Process.answering, Process.step, List.append_nil]
      cases proc.tasks id <;> exact h
  | call id call =>
      simp only [Process.answering, Process.step, List.append_nil]
      rcases proc.tasks id with _ | ⟨_, _⟩ | ⟨_, _⟩ <;> exact h
  | answer id =>
      simp only [Process.answering, Process.step]
      rcases proc.tasks id with _ | ⟨_, _⟩ | ⟨request, ret⟩
      · simpa using h
      · simpa using h
      · exact h.answer request ret
  | drop id => simpa [Process.answering, Process.step, Process.setTask] using h
  | status request call => simpa [Process.answering, Process.step, Process.setTask] using h
  | config => simpa [Process.answering, Process.step, Process.setTask] using h
  | health => simpa [Process.answering, Process.step, Process.setTask] using h

/-- A process that has just started has counted nothing but its configuration. -/
theorem startup_ledger {redis : RedisConfig} {file : FileRead} {live : LiveConfig}
    (h : startup parser redis file = .ok live) : Ledger [] live.metrics := by
  unfold startup loadConfig at h
  rcases load_cases parser file .start with ⟨config, hgood, hload⟩ | ⟨e, _, hload⟩
  · rw [hload] at h
    dsimp only at h
    cases hvalid : validateConfig ⟨redis, config⟩ with
    | error e =>
        rw [hvalid] at h
        cases h
    | ok u =>
        rw [hvalid] at h
        obtain rfl := Except.ok.inj h
        exact ledger_start rfl
  · rw [hload] at h
    cases h

omit [DecidableEq τ] in
theorem answered_append (xs : List (ClusterFiring ι τ)) (x : ClusterFiring ι τ) :
    answered i (xs ++ [x]) =
      match x.input with
      | .start j _ _ => if j = i then [] else answered i xs
      | .stop _ => answered i xs
      | .on j event =>
          if j = i then
            answered i xs ++ (x.before.processes i).elim [] fun proc => proc.answering event
          else answered i xs := by
  rw [answered, List.foldl_append]
  rfl

/-- **The ledgers are kept**, one event on. -/
theorem KeepsLedgers.step (h : KeepsLedgers past s) (event : Event ι τ) :
    KeepsLedgers (past ++ [fire (Cluster.step p parser) s event]) (s.step p parser event).2 := by
  intro i proc' hproc
  rw [answered_append]
  cases event with
  | start j redis file =>
      unfold Cluster.step at hproc
      simp only [fire_input]
      by_cases hj : j = i
      · subst hj
        rw [if_pos rfl]
        cases hstart : startup parser redis file with
        | error e => simp [hstart] at hproc
        | ok live =>
            simp only [hstart, Function.update_self] at hproc
            obtain rfl := Option.some.inj hproc
            exact startup_ledger hstart
      · rw [if_neg hj]
        cases hstart : startup parser redis file <;>
          simp only [hstart, Function.update_of_ne (Ne.symm hj)] at hproc <;>
          exact h i proc' hproc
  | stop j =>
      by_cases hj : i = j
      · subst hj
        simp [Cluster.step] at hproc
      · simp only [Cluster.step, Function.update_of_ne hj] at hproc
        exact h i proc' hproc
  | on j event =>
      unfold Cluster.step at hproc
      simp only [fire_input, fire_before]
      by_cases hj : j = i
      · subst hj
        rw [if_pos rfl]
        cases hup : s.processes j with
        | none => simp [hup] at hproc
        | some proc =>
            simp only [hup, Function.update_self] at hproc
            obtain rfl := Option.some.inj hproc
            exact Process.step_ledger (h j proc hup)
      · rw [if_neg hj]
        cases hup : s.processes j with
        | none =>
            simp only [hup] at hproc
            exact h i proc' hproc
        | some proc =>
            simp only [hup, Function.update_of_ne (Ne.symm hj)] at hproc
            exact h i proc' hproc

/-- **Every run keeps the ledgers.** -/
theorem keepsLedgers_final (p : Platform) (parser : ConfigParser) (store : Store)
    (events : List (Event ι τ)) :
    KeepsLedgers (trace (Cluster.step p parser) (.start store) events)
      (final (Cluster.step p parser) (.start store) events) := by
  have hstep : ∀ past (s : Cluster ι τ) event, KeepsLedgers past s → True →
      KeepsLedgers (past ++ [fire (Cluster.step p parser) s event]) (s.step p parser event).2 :=
    fun _ _ event h _ => h.step event
  have hnone : KeepsLedgers [] (.start store : Cluster ι τ) := by
    intro i proc hproc
    cases hproc
  exact history_final hstep hnone fun _ _ => trivial

/-! ## The books balance -/

/-- Of the counters of a process: every answer is one execution that came back,
one that did not, or one that could not be asked for; an execution that did not
come back is an error of Redis; an answer allows its request or is a denial. -/
structure Balanced (as : List Answered) (m : Metrics) : Prop where
  answers : (as.length : ℚ) = m.redisScriptExecutionsTotal "success" +
    m.redisScriptExecutionsTotal "error" + m.redisErrorsTotal "connection_establishment_failed"
  errors : m.redisErrorsTotal "script_execution_failed" = m.redisScriptExecutionsTotal "error"
  requests : ∀ domain prefixKey, m.requestsTotal (domain, prefixKey, "true") +
    m.requestsTotal (domain, prefixKey, "false") =
      as.countP fun a => decide (a.label = (domain, prefixKey))
  denied : ∀ domain prefixKey, m.requestsDeniedTotal (domain, prefixKey) =
    m.requestsTotal (domain, prefixKey, "false")

/-- Every answer is counted under one outcome of its call. -/
theorem length_answered (as : List Answered) : as.length =
    as.countP (fun a => decide (a.executionLabel = some "success")) +
      as.countP (fun a => decide (a.executionLabel = some "error")) +
        as.countP fun a => decide (a.errorLabel = some "connection_establishment_failed") := by
  induction as with
  | nil => rfl
  | cons a as ih =>
      obtain ⟨request, ret⟩ := a
      rw [List.length_cons, List.countP_cons, List.countP_cons, List.countP_cons, ih]
      cases ret <;> simp [Answered.executionLabel, Answered.errorLabel] <;> omega

/-- Every answer under a label is counted under one flag. -/
theorem countP_label (as : List Answered) (domain prefixKey : String) :
    as.countP (fun a => decide (a.label = (domain, prefixKey))) =
      as.countP (fun a => decide (some a.requestLabel = some (domain, prefixKey, "true"))) +
        as.countP fun a => decide (some a.requestLabel = some (domain, prefixKey, "false")) := by
  induction as with
  | nil => rfl
  | cons a as ih =>
      rw [List.countP_cons, List.countP_cons, List.countP_cons, ih]
      by_cases hname : a.request.name.domain = domain ∧ a.request.name.prefixKey = prefixKey
      · cases hallowed : a.ret.decision.allowed <;>
          simp [Answered.label, Answered.requestLabel, hname, hallowed] <;> omega
      · simp [Answered.label, Answered.requestLabel, ← and_assoc, hname]

/-- **A ledger balances.** -/
theorem Ledger.balanced {as : List Answered} {m : Metrics} (h : Ledger as m) :
    Balanced as m := by
  constructor
  · rw [h.executions, h.executions, h.errors, length_answered as]
    push_cast
    rfl
  · rw [h.executions, h.errors]
    apply congrArg Nat.cast
    apply List.countP_congr
    intro a _
    cases hret : a.ret <;> simp [Answered.executionLabel, Answered.errorLabel, hret]
  · intro domain prefixKey
    rw [h.requests, h.requests, countP_label]
    push_cast
    rfl
  · intro domain prefixKey
    rw [h.denied, h.requests]
    apply congrArg Nat.cast
    apply List.countP_congr
    intro a _
    cases hallowed : a.ret.decision.allowed <;>
      simp [Answered.deniedLabel, Answered.label, Answered.requestLabel, hallowed]

end Cluster

end Limitr
