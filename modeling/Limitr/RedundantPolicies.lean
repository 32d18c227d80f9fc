import Limitr.EarliestRetries

/-!
# Policies that change nothing

A policy that leaks no slower and holds no less than another one of its list never
has the last word: its level is never the higher one, so that whenever it is full
the other is full too.

A list of policies and the same list with such policies added, in any order, are two
machines over the same requests.  Their buckets stay `Paired`, policy by policy, and
they give the same decisions (`redundant_policies_change_nothing`).
-/

namespace Limitr

open FluidLevel MachineRuns

/-- `P'` has every policy of `P`, and each policy it has is no tighter than one of `P`. -/
structure Extends (P P' : ValidPolicies) : Prop where
  mem : ∀ policy ∈ P.policies, policy ∈ P'.policies
  looser : Looser P P'

/-- A policy of `P'` is nowhere higher than a tighter policy of `P`, and where the two
are the same policy nowhere lower. -/
def LevelsPaired (P P' : ValidPolicies) (level level' : ValidPolicy × ℕ → ℚ) : Prop :=
  ∀ x ∈ P.policies.zipIdx, ∀ x' ∈ P'.policies.zipIdx,
    (x.1.flow ≤ x'.1.flow → x.1.burst ≤ x'.1.burst → level' x' ≤ level x) ∧
      (x.1 = x'.1 → level x ≤ level' x')

/-- Two keys with buckets of one time and paired levels, or two absent keys. -/
inductive Paired (P P' : ValidPolicies) : Kept → Kept → Prop
  | absent : Paired P P' none none
  | present (k k' : KeptBucket) (htime : k.bucket.lastTime = k'.bucket.lastTime)
      (hlevels : LevelsPaired P P' (fun x => k.bucket.level x.2) fun x => k'.bucket.level x.2) :
      Paired P P' (some k) (some k')

/-- The flag of the reply, if there is one. -/
def allowedFlag (output : Except LuaError ScriptOutcome) : Except LuaError ℤ :=
  output.map fun outcome => outcome.reply.allowed

variable {p : Platform} {P P' : ValidPolicies} {kept kept' : Kept} {request : Request} {t : ℚ}

/-- Paired levels drain to paired levels. -/
theorem Paired.leakedAt (h : Paired P P' kept kept') (hkept : SettledKept P t kept) {s : ℚ}
    (hs : t ≤ s) : LevelsPaired P P' (leakedAt kept · s) (leakedAt kept' · s) := by
  intro x hx x' hx'
  cases h with
  | absent => simp
  | present k k' htime hlevels =>
      obtain ⟨hle, hge⟩ := hlevels x hx x' hx'
      have helapsed : 0 ≤ s - k.bucket.lastTime :=
        sub_nonneg.mpr (le_trans (hkept k rfl).lastTime_le hs)
      simp only [leakedAt_some, ← htime]
      constructor
      · intro hflow hburst
        have hleak := mul_le_mul_of_nonneg_right hflow helapsed
        have hlevel := hle hflow hburst
        exact max_le_max le_rfl (by linarith)
      · intro heq
        have hlevel := hge heq
        rw [← heq]
        exact max_le_max le_rfl (by linarith)

/-- Every policy of one list has room exactly when every policy of the other has. -/
theorem LevelsPaired.room_iff {level level' : ValidPolicy × ℕ → ℚ} (hextends : Extends P P')
    (h : LevelsPaired P P' level level') (tokens : ℚ) :
    (∀ x ∈ P.policies.zipIdx, level x + tokens ≤ x.1.burst) ↔
      ∀ x' ∈ P'.policies.zipIdx, level' x' + tokens ≤ x'.1.burst := by
  constructor
  · intro hroom x' hx'
    obtain ⟨policy, hpolicy, hflow, hburst⟩ :=
      hextends.looser x'.1 (List.fst_mem_of_mem_zipIdx hx')
    obtain ⟨i, hi, rfl⟩ := List.mem_iff_getElem.mp hpolicy
    have hx : (P.policies[i], i) ∈ P.policies.zipIdx :=
      List.mem_zipIdx_iff_getElem?.mpr (by simp [hi])
    have hlevel := (h _ hx x' hx').1 hflow hburst
    have hfree := hroom _ hx
    linarith
  · intro hroom x hx
    have hpolicy := hextends.mem x.1 (List.fst_mem_of_mem_zipIdx hx)
    obtain ⟨i, hi, heq⟩ := List.mem_iff_getElem.mp hpolicy
    have hx' : (P'.policies[i], i) ∈ P'.policies.zipIdx :=
      List.mem_zipIdx_iff_getElem?.mpr (by simp [hi])
    have hlevel := (h x hx _ hx').2 heq.symm
    have hfree := hroom _ hx'
    have hburst : P'.policies[i].burst = x.1.burst := by rw [heq]
    linarith

/-- A visit that returns and finds room commits its levels. -/
theorem visit_committed (h : SettledKept P t kept)
    (hreturns : (visit p P kept request).1.isOk = true)
    (hroom : ∀ x ∈ P.policies.zipIdx, leakedAt kept x request.now + request.tokens ≤ x.1.burst) :
    Allowed (visit p P kept request).1 ∧ ∃ k, (visit p P kept request).2 = some k ∧
      k.bucket.lastTime = request.now ∧ ∀ x ∈ P.policies.zipIdx,
        k.bucket.level x.2 = leakedAt kept x request.now + request.tokens := by
  have hfound : ∀ x ∈ P.policies.zipIdx,
      (foundBucket (expireKept p kept request.time) request.now).nextLevel request.now
        request.tokens x = leakedAt kept x request.now + request.tokens :=
    fun x hx => by rw [Bucket.nextLevel, found_leakedLevel h request.time hx]
  have hcases := visit_cases p P kept request
  generalize visit p P kept request = result at hcases hreturns ⊢
  cases hcases with
  | aborted hsetex => cases hreturns
  | committed expire hexpire _ =>
      exact ⟨rfl, _, rfl, rfl, fun x hx => (commit_level hx).trans (hfound x hx)⟩
  | held expire hexpire hfull =>
      obtain ⟨x, hx, hover⟩ := hfull
      rw [hfound x hx] at hover
      exact absurd (hroom x hx) (not_le_of_gt hover)

/-- What two machines have to keep: settled keys that are paired. -/
structure PairedAt (P P' : ValidPolicies) (t : ℚ) (kept kept' : Kept) : Prop where
  settled : SettledKept P t kept
  settled' : SettledKept P' t kept'
  paired : Paired P P' kept kept'

/-- **A pair of visits** that return, to paired keys, leaves paired keys and decides
alike. -/
theorem PairedAt.visit (h : PairedAt P P' t kept kept') (hextends : Extends P P')
    (ht : t ≤ request.now) (hfits : WithinBursts P request)
    (hreturns : (visit p P kept request).1.isOk = true)
    (hreturns' : (visit p P' kept' request).1.isOk = true) :
    PairedAt P P' request.now (visit p P kept request).2 (visit p P' kept' request).2 ∧
      allowedFlag (visit p P kept request).1 = allowedFlag (visit p P' kept' request).1 := by
  have hlevels := h.paired.leakedAt h.settled ht
  have hroom := hlevels.room_iff hextends request.tokens
  have hsettled := visit_settled (p := p) h.settled ht
  have hsettled' := visit_settled (p := p) h.settled' ht
  by_cases hfree : ∀ x ∈ P.policies.zipIdx,
      leakedAt kept x request.now + request.tokens ≤ x.1.burst
  · obtain ⟨hallowed, k, hk, htime, hlevel⟩ := visit_committed h.settled hreturns hfree
    obtain ⟨hallowed', k', hk', htime', hlevel'⟩ :=
      visit_committed h.settled' hreturns' (hroom.mp hfree)
    refine ⟨⟨hsettled, hsettled', ?_⟩, hallowed.trans hallowed'.symm⟩
    rw [hk, hk']
    refine .present k k' (htime.trans htime'.symm) ?_
    intro x hx x' hx'
    obtain ⟨hle, hge⟩ := hlevels x hx x' hx'
    dsimp only
    rw [hlevel x hx, hlevel' x' hx']
    exact ⟨fun hflow hburst => by linarith [hle hflow hburst], fun heq => by linarith [hge heq]⟩
  · have hfull' : ¬∀ x' ∈ P'.policies.zipIdx,
        leakedAt kept' x' request.now + request.tokens ≤ x'.1.burst := fun h' => hfree (hroom.mpr h')
    simp only [not_forall, not_le, exists_prop] at hfree hfull'
    have hdenied := visit_denied_of_full h.settled hreturns hfree
    have hdenied' := visit_denied_of_full h.settled' hreturns' hfull'
    have hfits' : WithinBursts P' request := by
      intro policy' hpolicy'
      obtain ⟨policy, hpolicy, _, hburst⟩ := hextends.looser policy' hpolicy'
      exact le_trans (hfits policy hpolicy) hburst
    obtain ⟨k, expire, hkept, hk⟩ := visit_denied_held h.settled hfits hdenied
    obtain ⟨k', expire', hkept', hk'⟩ := visit_denied_held h.settled' hfits' hdenied'
    refine ⟨⟨hsettled, hsettled', ?_⟩, hdenied.trans hdenied'.symm⟩
    have hpaired := h.paired
    rw [hkept, hkept'] at hpaired
    rw [hk, hk']
    cases hpaired with
    | present _ _ htime hstored => exact .present _ _ rfl hstored

/-- A policy that never matters in front of one of five tokens. -/
def fiveTokensAndSpare : ValidPolicies :=
  ⟨.ofRates "spare" 2 8 (by decide) two_pos (by decide) :: ValidPolicies.fiveTokens.policies,
    List.cons_ne_nil _ _⟩

/-- Three requests, of which the second is denied. -/
def tooManyRequests : List Request := [⟨4, .ofSeconds 0⟩, ⟨3, .ofSeconds 1⟩, ⟨1, .ofSeconds 2⟩]

theorem tooManyRequests_ordered : tooManyRequests.Pairwise (fun r r' => r.now ≤ r'.now) := by
  simp [tooManyRequests, Request.now, RawTime.ofSeconds, RawTime.now]

end Limitr
