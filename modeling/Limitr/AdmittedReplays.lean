import Limitr.RedundantPolicies

/-!
# Denied requests only hurt

A denied request pours the leak since the last write back into the key, and a request
that is not answered leaves what it found.  Neither ever lowers a level.  Run only the
requests of a run that were allowed, and every policy finds no more than it found
before: each of them is allowed again (`allowed_requests_stand_alone`).

Whatever mixture of requests a key sees, the ones that get through are thus such as
would all have got through by themselves.
-/

namespace Limitr

open FluidLevel MachineRuns

/-- Two settled keys, the second of which holds no more than the first. -/
structure NoFuller (P : ValidPolicies) (t : ℚ) (kept kept' : Kept) : Prop where
  settled : SettledKept P t kept
  settled' : SettledKept P t kept'
  leakedAt_le : ∀ x ∈ P.policies.zipIdx, leakedAt kept' x t ≤ leakedAt kept x t

variable {p : Platform} {P : ValidPolicies} {kept kept' : Kept} {request : Request} {t : ℚ}
  {x : ValidPolicy × ℕ}

/-- What holds no more holds no more later on. -/
theorem NoFuller.leakedAt_later (h : NoFuller P t kept kept') {s : ℚ} (hs : t ≤ s)
    (hx : x ∈ P.policies.zipIdx) : leakedAt kept' x s ≤ leakedAt kept x s := by
  rw [leakedAt_drain kept x hs, leakedAt_drain kept' x hs]
  exact max_le_max le_rfl (sub_le_sub_right (h.leakedAt_le x hx) _)

/-- A visit that is not allowed never lowers a level. -/
theorem leakedAt_le_of_not_allowed (h : SettledKept P t kept) (ht : t ≤ request.now)
    (hdenied : ¬Allowed (visit p P kept request).1) (hx : x ∈ P.policies.zipIdx) :
    leakedAt kept x request.now ≤ leakedAt (visit p P kept request).2 x request.now := by
  have hlast := (h.expireKept (p := p) request.time).found_lastTime_le ht
  have hfound := found_leakedLevel (p := p) h request.time hx
  have hcases := visit_cases p P kept request
  generalize visit p P kept request = result at hcases hdenied ⊢
  cases hcases with
  | aborted hsetex => exact le_of_eq (leakedAt_expireKept h hx le_rfl).symm
  | committed expire hexpire hroom => exact absurd rfl hdenied
  | held expire hexpire hfull =>
      have hwritten := leakedAt_written ((foundBucket (expireKept p kept request.time)
        request.now).hold request.now request.tokens) request.time expire x
      calc leakedAt kept x request.now
          = (foundBucket (expireKept p kept request.time) request.now).leakedLevel request.now
              x.1 x.2 := hfound.symm
        _ ≤ max 0 ((foundBucket (expireKept p kept request.time) request.now).level x.2) :=
            leakedLevel_le_level hlast x.1 x.2
        _ = _ := hwritten.symm

/-- **A request that was allowed** is allowed where no policy holds more, and leaves
no more there. -/
theorem NoFuller.allowed (h : NoFuller P t kept kept') (ht : t ≤ request.now)
    (hallowed : Allowed (visit p P kept request).1) :
    Allowed (visit p P kept' request).1 ∧
      NoFuller P request.now (visit p P kept request).2 (visit p P kept' request).2 := by
  obtain ⟨hfits, hroom⟩ := (visit_allowed_iff h.settled).mp hallowed
  have hle := fun x hx => h.leakedAt_later (x := x) ht hx
  have hallowed' : Allowed (visit p P kept' request).1 := by
    rw [visit_allowed_iff h.settled']
    refine ⟨hfits, ?_⟩
    intro x hx
    linarith [hle x hx, hroom x hx]
  refine ⟨hallowed', visit_settled h.settled ht, visit_settled h.settled' ht, ?_⟩
  intro x hx
  rw [visit_allowed_leakedAt h.settled hallowed hx, visit_allowed_leakedAt h.settled' hallowed' hx]
  exact max_le_max le_rfl (add_le_add (hle x hx) le_rfl)

/-- Leaving out a request that was not allowed leaves no more either. -/
theorem NoFuller.dropped (h : NoFuller P t kept kept') (ht : t ≤ request.now)
    (hdenied : ¬Allowed (visit p P kept request).1) :
    NoFuller P request.now (visit p P kept request).2 kept' := by
  refine ⟨visit_settled h.settled ht, h.settled'.later ht, ?_⟩
  intro x hx
  exact le_trans (h.leakedAt_later ht hx) (leakedAt_le_of_not_allowed h.settled ht hdenied hx)

/-- **The allowed requests stand alone.**  Take any run of requests on an absent key,
with a clock that never goes back, and run on an absent key only those that were
allowed: each of them is allowed again. -/
theorem allowed_requests_stand_alone (p : Platform) (P : ValidPolicies)
    {requests : List Request} (hclock : requests.Pairwise (fun r r' => r.now ≤ r'.now)) :
    ∀ x ∈ executions p none (((executions p none (requests.map P.call)).filter
      fun x => decide (Allowed x.output)).map Firing.input), Allowed x.output := by
  have hreplay : ((executions p none (requests.map P.call)).filter
      fun x => decide (Allowed x.output)).map Firing.input =
      (((trace (visit p P) none requests).filter fun v => decide (Allowed v.output)).map
        Firing.input).map P.call := by
    rw [executions_none_eq, List.filter_map, List.map_map, List.map_map]
    rfl
  have hstart : NoFuller P 0 none none := ⟨settledKept_none, settledKept_none, fun _ _ => le_rfl⟩
  rw [hreplay, executions_none_eq, List.forall_mem_map]
  refine thinned_good Request.now (NoFuller P) (fun v => decide (Allowed v.output)) Allowed
    ?_ ?_ hstart (fun r _ => r.time.now_nonneg) hclock
  · intro t kept kept' r h ht hkept
    exact h.allowed ht (of_decide_eq_true hkept)
  · intro t kept kept' r h ht hdropped
    exact h.dropped ht (of_decide_eq_false hdropped)

/-- Of three requests, of which the second is denied, the first and the last. -/
theorem allowed_requests_stand_alone_without_denied :
    ¬∃ x ∈ executions referenceHost none (((executions referenceHost none
      (tooManyRequests.map ValidPolicies.fiveTokens.call)).filter
        fun x => decide (Allowed x.output)).map Firing.input), ¬Allowed x.output := by
  intro hexists
  obtain ⟨x, hx, hdenied⟩ := hexists
  exact hdenied (allowed_requests_stand_alone referenceHost .fiveTokens tooManyRequests_ordered x hx)

end Limitr
