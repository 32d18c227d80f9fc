import Limitr.ConfigWatcher
import Limitr.RateLimiterService
import Mathlib.Logic.Function.Basic

/-!
# Several processes on one Redis

The service is made to be run in several processes that share one Redis.  A
handler is an asynchronous task of its process: it looks its policies up, waits
while Redis executes the script, and then records what happened and answers.
Other tasks, the watcher and the other processes go on in between, so the three
parts of a handler are separate steps here (`lookup`, `invoke`, `respond`), and
`serve_eq_serveCheck` puts them together again.

A `Cluster` is what Redis holds and the processes.  Its events come in any
order: processes start and stop, their watchers handle messages, requests
arrive, are executed by Redis, are answered or are dropped, each in any of the
processes.  Each process has metrics and a cache of its own; a task holds the
policies it found when it arrived.
-/

namespace Limitr

open MachineRuns

/-! ## The parts of a handler -/

/-- A request under the policies it was looked up with, and its call of Redis. -/
structure LimitCheck where
  request : CheckRequest
  policies : List RatePolicy
  call : RedisCall

namespace LimitCheck

variable (c : LimitCheck)

def redisKey : String := c.request.name.redisKey

def cost : Int32 := c.request.cost.getD 1

def pairs : List (F64 × Int64) :=
  c.policies.map fun policy => (policy.flowRatePerSecond, policy.burstCapacity)

/-- The call of the script it makes. -/
def script : Call := ⟨c.pairs, c.cost, c.call.time⟩

end LimitCheck

/-- What a call of the script comes back with: no connection, an error, or the
values of the reply. -/
inductive ScriptReturn where
  | down (error : String)
  | failed (error : String)
  | replied (result : List RedisValue)

/-- Redis executes the script of a check, if the call gets there. -/
def invoke (p : Platform) (store : Store) (c : LimitCheck) : ScriptReturn × Store :=
  let result := execute p (store c.redisKey) c.script
  match c.call.link with
  | .down error => (.down error, store)
  | .lost error => (.failed error, store.set c.redisKey result.2)
  | .up =>
      match result.1 with
      | .error e => (.failed e.text, store.set c.redisKey result.2)
      | .ok outcome => (.replied outcome.reply.values, store.set c.redisKey result.2)

namespace ScriptReturn

/-- The client makes a response or an error of it. -/
def response : ScriptReturn → Except RateLimitError ScriptResponse
  | down error => .error (.redisConnectionError error)
  | failed error => .error (.scriptExecutionError ("Script execution failed: " ++ error))
  | replied result => parseScriptResponse result

/-- The client counts it. -/
def record : ScriptReturn → Metrics → Metrics
  | down _, m => m.recordRedisError "connection_establishment_failed"
  | failed _, m => (m.recordRedisError "script_execution_failed").recordScriptExecution false
  | replied _, m => m.recordScriptExecution true

/-- The limiter makes a decision of it. -/
def decision (ret : ScriptReturn) : LimitDecision :=
  match ret.response with
  | .ok response => response.toDecision
  | .error _ => failOpen

end ScriptReturn

/-- The handler counts a decision. -/
def CheckRequest.record (request : CheckRequest) (decision : LimitDecision) (m : Metrics) :
    Metrics :=
  let name := request.name
  let recorded := (((m.recordRequest name.domain name.prefixKey
    decision.allowed).recordTokensConsumed name.domain name.prefixKey
    (request.cost.getD 1)).recordRemainingCapacity name.domain name.prefixKey
    decision.remainingCapacity).recordLimitingIndex name.domain name.prefixKey
    decision.limitingRateIndex
  if decision.allowed then recorded
  else recorded.recordDenied name.domain name.prefixKey decision.denyCount

/-- The last part of a handler. -/
def respond (request : CheckRequest) (ret : ScriptReturn) (m : Metrics) :
    Except Status CheckResponse × Metrics :=
  let decision := ret.decision
  (.ok ⟨decision.allowed, decision.remainingCapacity, decision.limitingRateIndex,
    decision.denyCount⟩, request.record decision (ret.record m))

/-- A handler from its lookup to its answer, with nothing in between. -/
def serveCheck (p : Platform) (s : ServiceState) (c : LimitCheck) :
    Except Status CheckResponse × ServiceState :=
  let returned := invoke p s.store c
  let responded := respond c.request returned.1 s.metrics
  (responded.1, ⟨returned.2, responded.2⟩)

/-- The first part of a handler. -/
def Arrival.lookup (a : Arrival) : LimitCheck :=
  ⟨a.request, policiesFor a.cache a.request, a.call⟩

/-- Writing what is there changes nothing. -/
theorem Store.set_self (store : Store) (key : String) : store.set key (store key) = store := by
  funext k
  by_cases hkey : k = key
  · rw [Store.set, if_pos hkey, hkey]
  · rw [Store.set, if_neg hkey]

/-- What Redis makes of a check: the slot of its key after the call. -/
theorem invoke_store (p : Platform) (store : Store) (c : LimitCheck) :
    (invoke p store c).2 =
      store.set c.redisKey (slotAfterCall p c.call c.cost c.pairs (store c.redisKey)) := by
  unfold invoke slotAfterCall LimitCheck.script
  cases c.call.link with
  | down error => exact (store.set_self c.redisKey).symm
  | lost error => rfl
  | up =>
      generalize execute p (store c.redisKey) ⟨c.pairs, c.cost, c.call.time⟩ = result
      obtain ⟨output, slot⟩ := result
      cases output with
      | error e => rfl
      | ok outcome => rfl

/-- **The parts make up the handler.** -/
theorem serve_eq_serveCheck (p : Platform) (s : ServiceState) (a : Arrival) :
    serve p s a = serveCheck p s a.lookup := by
  unfold serve RateLimiterService.consumeAndCheckLimit checkLimit executeRateLimitScript
    serveCheck respond invoke slotAfterCall
  simp only [Arrival.lookup, LimitCheck.redisKey, LimitCheck.script, LimitCheck.pairs,
    LimitCheck.cost, BucketName.redisKey]
  cases a.call.link with
  | down error =>
      simp only [Store.set_self]
      rfl
  | lost error => rfl
  | up =>
      generalize execute p _ _ = result
      obtain ⟨output, slot⟩ := result
      cases output with
      | error e => rfl
      | ok outcome =>
          obtain ⟨x, _, hparse⟩ := parseScriptResponse_values outcome.reply
          simp only [ScriptReturn.decision, ScriptReturn.response, hparse]
          rfl

/-! ## Processes -/

/-- Where a task has got to: its policies are looked up, or its call is back. -/
inductive Task where
  | arrived (request : CheckRequest) (policies : List RatePolicy)
  | called (request : CheckRequest) (ret : ScriptReturn)

section Cluster

variable {ι τ : Type} [DecidableEq ι] [DecidableEq τ]

/-- A process with its tasks. -/
structure Process (τ : Type) where
  live : LiveConfig
  tasks : τ → Option Task

/-- What Redis holds, and the processes that are up. -/
structure Cluster (ι τ : Type) where
  store : Store
  processes : ι → Option (Process τ)

inductive ProcessEvent (τ : Type) where
  | watch (message : Message)
  | arrive (id : τ) (request : CheckRequest)
  | call (id : τ) (call : RedisCall)
  | answer (id : τ)
  | drop (id : τ)
  | status (request : StatusRequest) (call : RedisCall)
  | config
  | health

inductive Event (ι τ : Type) where
  | start (i : ι) (redis : RedisConfig) (file : FileRead)
  | stop (i : ι)
  | on (i : ι) (event : ProcessEvent τ)

inductive Answer where
  | check (response : Except Status CheckResponse)
  | status (response : Except Status StatusResponse)
  | config (response : ConfigResponse)
  | health (response : HealthCheckResponse)

/-- The response to a request for tokens. -/
def Answer.checked : Answer → Option (Except Status CheckResponse)
  | check response => some response
  | _ => none

theorem Answer.checked_eq_some {answer : Answer} {response : Except Status CheckResponse}
    (h : answer.checked = some response) : answer = .check response := by
  cases answer with
  | check response' => exact congrArg Answer.check (Option.some.inj h)
  | status response' => cases h
  | config response' => cases h
  | health response' => cases h

def Process.setTask (proc : Process τ) (id : τ) (task : Option Task) : Process τ :=
  { proc with tasks := Function.update proc.tasks id task }

def Process.setMetrics (proc : Process τ) (m : Metrics) : Process τ :=
  { proc with live := ⟨proc.live.cache, m⟩ }

/-- The check an event has Redis execute, if it has it execute one. -/
def Process.called (proc : Process τ) : ProcessEvent τ → Option LimitCheck
  | .call id call =>
      match proc.tasks id with
      | some (.arrived request policies) => some ⟨request, policies, call⟩
      | _ => none
  | _ => none

variable (p : Platform) (parser : ConfigParser)

/-- One event in a process that is up.  An event that finds no task where it
needs one, or one where it needs none, does nothing. -/
def Process.step (proc : Process τ) (store : Store) :
    ProcessEvent τ → Option Answer × Process τ × Store
  | .watch message =>
      (none, { proc with live := handleMessage parser proc.live message }, store)
  | .arrive id request =>
      match proc.tasks id with
      | some _ => (none, proc, store)
      | none =>
          (none, proc.setTask id (some (.arrived request (policiesFor proc.live.cache request))),
            store)
  | .call id call =>
      match proc.tasks id with
      | some (.arrived request policies) =>
          let returned := invoke p store ⟨request, policies, call⟩
          (none, proc.setTask id (some (.called request returned.1)), returned.2)
      | _ => (none, proc, store)
  | .answer id =>
      match proc.tasks id with
      | some (.called request ret) =>
          let responded := respond request ret proc.live.metrics
          (some (.check responded.1), (proc.setMetrics responded.2).setTask id none, store)
      | _ => (none, proc, store)
  | .drop id => (none, proc.setTask id none, store)
  | .status request call =>
      (some (.status (RateLimiterService.getBucketStatus p call request
        ⟨store, proc.live.metrics⟩)), proc, store)
  | .config => (some (.config (RateLimiterService.getCurrentConfig proc.live.cache)), proc, store)
  | .health => (some (.health RateLimiterService.healthCheck), proc, store)

namespace Cluster

/-- No process is up. -/
def start (store : Store) : Cluster ι τ := ⟨store, fun _ => none⟩

/-- One event of the cluster. -/
def step (s : Cluster ι τ) : Event ι τ → Option Answer × Cluster ι τ
  | .start i redis file =>
      match startup parser redis file with
      | .error _ => (none, ⟨s.store, Function.update s.processes i none⟩)
      | .ok live =>
          (none, ⟨s.store, Function.update s.processes i (some ⟨live, fun _ => none⟩)⟩)
  | .stop i => (none, ⟨s.store, Function.update s.processes i none⟩)
  | .on i event =>
      match s.processes i with
      | none => (none, s)
      | some proc =>
          let stepped := proc.step p parser s.store event
          (stepped.1, ⟨stepped.2.2, Function.update s.processes i (some stepped.2.1)⟩)

/-- The task of a process under an id. -/
def task (s : Cluster ι τ) (i : ι) (id : τ) : Option Task :=
  (s.processes i).bind fun proc => proc.tasks id

/-- The check an event of the cluster has Redis execute. -/
def called (s : Cluster ι τ) : Event ι τ → Option LimitCheck
  | .on i event => (s.processes i).bind fun proc => proc.called event
  | _ => none

end Cluster

/-! ## What a step can do -/

section Steps

variable {p parser} {proc : Process τ} {store : Store} {event : ProcessEvent τ} {id : τ}
  {t : Task}

theorem Process.setTask_eq_some {id' : τ} {task : Option Task}
    (h : (proc.setTask id' task).tasks id = some t) :
    proc.tasks id = some t ∨ id = id' ∧ task = some t := by
  change Function.update proc.tasks id' task id = some t at h
  by_cases hid : id = id'
  · rw [hid, Function.update_self] at h
    exact Or.inr ⟨hid, h⟩
  · rw [Function.update_of_ne hid] at h
    exact Or.inl h

/-- **Where a task comes from.**  It was there before, or it has just arrived, or
its call has just come back. -/
theorem Process.step_task (h : (proc.step p parser store event).2.1.tasks id = some t) :
    proc.tasks id = some t ∨
    (∃ request, event = .arrive id request ∧
      t = .arrived request (policiesFor proc.live.cache request)) ∨
    ∃ request policies call, event = .call id call ∧
      proc.tasks id = some (.arrived request policies) ∧
      t = .called request (invoke p store ⟨request, policies, call⟩).1 := by
  cases event with
  | watch message => exact Or.inl h
  | arrive id' request =>
      unfold Process.step at h
      cases htask : proc.tasks id' with
      | some task => exact Or.inl (by simpa only [htask] using h)
      | none =>
          simp only [htask] at h
          rcases Process.setTask_eq_some h with hkept | ⟨rfl, hnew⟩
          · exact Or.inl hkept
          · exact Or.inr (Or.inl ⟨request, rfl, (Option.some.inj hnew).symm⟩)
  | call id' call =>
      unfold Process.step at h
      cases htask : proc.tasks id' with
      | none => exact Or.inl (by simpa only [htask] using h)
      | some task =>
          cases task with
          | called request ret => exact Or.inl (by simpa only [htask] using h)
          | arrived request policies =>
              simp only [htask] at h
              rcases Process.setTask_eq_some h with hkept | ⟨rfl, hnew⟩
              · exact Or.inl hkept
              · exact Or.inr (Or.inr ⟨request, policies, call, rfl, htask,
                  (Option.some.inj hnew).symm⟩)
  | answer id' =>
      unfold Process.step at h
      cases htask : proc.tasks id' with
      | none => exact Or.inl (by simpa only [htask] using h)
      | some task =>
          cases task with
          | arrived request policies => exact Or.inl (by simpa only [htask] using h)
          | called request ret =>
              simp only [htask] at h
              rcases Process.setTask_eq_some h with hkept | ⟨_, hnone⟩
              · exact Or.inl hkept
              · cases hnone
  | drop id' =>
      rcases Process.setTask_eq_some h with hkept | ⟨_, hnone⟩
      · exact Or.inl hkept
      · cases hnone
  | status request call => exact Or.inl h
  | config => exact Or.inl h
  | health => exact Or.inl h

/-- **What a process does to Redis**: at most the call of one check. -/
theorem Process.step_store : (proc.step p parser store event).2.2 =
    ((proc.called event).map fun c => (invoke p store c).2).getD store := by
  cases event with
  | watch message => rfl
  | arrive id request =>
      simp only [Process.step, Process.called]
      cases proc.tasks id <;> rfl
  | call id call =>
      simp only [Process.step, Process.called]
      rcases proc.tasks id with _ | ⟨_, _⟩ | ⟨_, _⟩ <;> rfl
  | answer id =>
      simp only [Process.step, Process.called]
      rcases proc.tasks id with _ | ⟨_, _⟩ | ⟨_, _⟩ <;> rfl
  | drop id => rfl
  | status request call => rfl
  | config => rfl
  | health => rfl

omit [DecidableEq τ] in
/-- A check is called for a task that has arrived. -/
theorem Process.called_eq_some {c : LimitCheck} (h : proc.called event = some c) :
    ∃ id, event = .call id c.call ∧ proc.tasks id = some (.arrived c.request c.policies) := by
  cases event with
  | call id call =>
      unfold Process.called at h
      rcases htask : proc.tasks id with _ | ⟨request, policies⟩ | ⟨request, ret⟩
      · simp [htask] at h
      · simp only [htask, Option.some.injEq] at h
        subst h
        exact ⟨id, rfl, htask⟩
      · simp [htask] at h
  | watch message => cases h
  | arrive id request => cases h
  | answer id => cases h
  | drop id => cases h
  | status request call => cases h
  | config => cases h
  | health => cases h

/-- **Where an answer comes from.** -/
theorem Process.step_check {response : Except Status CheckResponse}
    (h : (proc.step p parser store event).1 = some (.check response)) :
    ∃ id request ret, event = .answer id ∧ proc.tasks id = some (.called request ret) ∧
      response = (respond request ret proc.live.metrics).1 := by
  cases event with
  | watch message => cases h
  | arrive id request =>
      unfold Process.step at h
      cases htask : proc.tasks id <;> simp [htask] at h
  | call id call =>
      unfold Process.step at h
      rcases htask : proc.tasks id with _ | ⟨_, _⟩ | ⟨_, _⟩ <;> simp [htask] at h
  | answer id =>
      unfold Process.step at h
      rcases htask : proc.tasks id with _ | ⟨request, policies⟩ | ⟨request, ret⟩
      · simp [htask] at h
      · simp [htask] at h
      · simp only [htask, Option.some.injEq, Answer.check.injEq] at h
        exact ⟨id, request, ret, rfl, htask, h.symm⟩
  | drop id => cases h
  | status request call => cases h
  | config => cases h
  | health => cases h

/-- Recording an answer leaves the gauge of the configuration. -/
theorem respond_activeDomains (request : CheckRequest) (ret : ScriptReturn) (m : Metrics) :
    (respond request ret m).2.activeDomains = m.activeDomains := by
  have hrecord : (ret.record m).activeDomains = m.activeDomains := by
    cases ret <;> rfl
  rw [respond, CheckRequest.record, ← hrecord]
  split <;> rfl

/-- The read of the file an event leads to, if it leads to one. -/
def ProcessEvent.attempt : ProcessEvent τ → Option FileRead
  | .watch message => message.attempt
  | _ => none

/-- A process stays up to date with the file it reads. -/
theorem Process.step_upToDate {files : List FileRead} (h : UpToDate parser files proc.live) :
    UpToDate parser (files ++ event.attempt.toList)
      (proc.step p parser store event).2.1.live := by
  cases event with
  | watch message => exact handleMessage_upToDate h message
  | arrive id request =>
      simp only [ProcessEvent.attempt, Option.toList_none, List.append_nil, Process.step]
      cases proc.tasks id <;> exact h
  | call id call =>
      simp only [ProcessEvent.attempt, Option.toList_none, List.append_nil, Process.step]
      rcases proc.tasks id with _ | ⟨_, _⟩ | ⟨_, _⟩ <;> exact h
  | answer id =>
      simp only [ProcessEvent.attempt, Option.toList_none, List.append_nil, Process.step]
      rcases proc.tasks id with _ | ⟨_, _⟩ | ⟨request, ret⟩
      · exact h
      · exact h
      · obtain ⟨config, hlast, hcache, hgauge⟩ := h
        exact ⟨config, hlast, hcache,
          (respond_activeDomains request ret proc.live.metrics).trans hgauge⟩
  | drop id => exact (List.append_nil files).symm ▸ h
  | status request call => exact (List.append_nil files).symm ▸ h
  | config => exact (List.append_nil files).symm ▸ h
  | health => exact (List.append_nil files).symm ▸ h

end Steps

end Cluster

end Limitr
