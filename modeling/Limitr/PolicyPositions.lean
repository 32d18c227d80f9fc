import Limitr.KeptBucket
import Limitr.ReferenceHost

/-!
# Levels belong to positions

The script stores its levels as a bare array and reads the `i`-th one back for
the `i`-th policy of the request at hand.  When a reload changes the list of
policies under a key, a policy therefore keeps its level exactly as long as it
keeps its position (`levels_follow_positions`): policies may be appended, or
exchanged for others, without disturbing those that stay where they are, but
two policies that change places also exchange their levels
(`reordering_exchanges_levels`).
-/

namespace Limitr

open FluidLevel

/-- **Levels follow positions.**  After any run under `P`, a request under `P'`
finds at each position the level stored there, or zero where none is stored,
leaked at the rate of the policy of `P'` at that position, and adds its cost to
these.  A policy at the same position in both lists finds what it would have
found under `P`. -/
theorem levels_follow_positions (p : Platform) (P P' : ValidPolicies) (history : List Request)
    (request : Request) :
    ∃ (b : Bucket) (found found' : List ℚ) (s : LoopState),
      readState p (p.expire (slotAfter p P history) request.time) request.time = b.state ∧
      levelsFound p P.pairs (slotAfter p P history) request.time =
        .ok (found.map fun level => .fin level) ∧
      levelsFound p P'.pairs (slotAfter p P history) request.time =
        .ok (found'.map fun level => .fin level) ∧
      sweep p (P'.call request).argv b.state request.time = .ok s ∧
      s.nextLevels = found'.map (fun level => .fin (level + request.tokens)) ∧
      (∀ (i : ℕ) policy, P'.policies[i]? = some policy →
        found'[i]? = some (drain policy.flow (b.level i) (request.now - b.lastTime))) ∧
      ∀ (i : ℕ) policy, P.policies[i]? = some policy → P'.policies[i]? = some policy →
        found[i]? = found'[i]? := by
  have hslot := slotAfter_eq p P history
  have hread := readState_slotOf (p := p)
    (expireKept p (keptAfter p P history) request.time) request.time
  rw [← expire_slotOf, ← hslot] at hread
  have hfound : ∀ Q : ValidPolicies, levelsFound p Q.pairs (slotAfter p P history) request.time =
      .ok ((Q.policies.zipIdx.map fun x =>
        (foundBucket (expireKept p (keptAfter p P history) request.time)
          request.now).leakedLevel request.now x.1 x.2).map fun level => .fin level) := by
    intro Q
    rw [hslot, levelsFound_slotOf, List.map_map]
    rfl
  generalize foundBucket (expireKept p (keptAfter p P history) request.time) request.now = b
    at hread hfound
  refine ⟨b, _, _, _, hread, hfound P, hfound P', sweep_eq p P' b request, ?_, ?_, ?_⟩
  · rw [List.map_map]
    rfl
  · intro i policy hpolicy
    simp [hpolicy, Bucket.leakedLevel]
  · intro i policy hpolicy hpolicy'
    simp [hpolicy, hpolicy']

/-- Ten tokens a second, up to a hundred. -/
def fastPolicy : ValidPolicy :=
  .ofRates "fast" 10 100 (by decide) (by norm_num) (by decide)

/-- One token a second, up to ten. -/
def slowPolicy : ValidPolicy :=
  .ofRates "slow" 1 10 (by decide) (by norm_num) (by decide)

/-- **Reordering exchanges levels.**  Ten tokens fill the slow policy and one
more after a second fills it again.  The next token is denied, but allowed once
the two policies have changed places: the slow one then finds the single token
of the fast one. -/
theorem reordering_exchanges_levels :
    [slowPolicy, fastPolicy].Perm [fastPolicy, slowPolicy] ∧
    (execute referenceHost
      (slotAfter referenceHost ⟨[fastPolicy, slowPolicy], List.cons_ne_nil _ _⟩
        [⟨10, .ofSeconds 0⟩, ⟨1, .ofSeconds 1⟩])
      (ValidPolicies.call ⟨[fastPolicy, slowPolicy], List.cons_ne_nil _ _⟩
        ⟨1, .ofSeconds 1⟩)).1.map (fun outcome => outcome.reply.allowed) = .ok 0 ∧
    (execute referenceHost
      (slotAfter referenceHost ⟨[fastPolicy, slowPolicy], List.cons_ne_nil _ _⟩
        [⟨10, .ofSeconds 0⟩, ⟨1, .ofSeconds 1⟩])
      (ValidPolicies.call ⟨[slowPolicy, fastPolicy], List.cons_ne_nil _ _⟩
        ⟨1, .ofSeconds 1⟩)).1.map (fun outcome => outcome.reply.allowed) = .ok 1 :=
  ⟨.swap _ _ _, by decide +kernel, by decide +kernel⟩

end Limitr
