import Mathlib.Data.List.Basic
import Mathlib.Order.Basic

/-!
# Runs of a deterministic machine

A machine is a step function: from a state and an input it computes an output
and the next state.  `trace` records a run one firing at a time, each with the
state it found and the state it left; `final` is the state the run ends in.

The rules below are the inductions over runs a user needs: a run splits where
its input splits, a part of a trace is itself the trace of a part of the
input, and an invariant that each step preserves holds all along a run.  The
invariant may mention the time it was last established at, for machines whose
inputs carry the reading of a clock that never goes back, or the firings so
far, for states that sum up their own history.  A part of a machine runs on the
inputs the whole gives it (`Projects.final_eq`, `Projects.trace_eq`).
-/

namespace MachineRuns

variable {State Input Output : Type*}

/-- One step of a run, with what it found and what it left. -/
structure Firing (State Input Output : Type*) where
  before : State
  input : Input
  output : Output
  after : State

/-- The firing of `step` on one input. -/
def fire (step : State → Input → Output × State) (s : State) (i : Input) :
    Firing State Input Output :=
  ⟨s, i, (step s i).1, (step s i).2⟩

/-- The firings of a run, in order. -/
def trace (step : State → Input → Output × State) :
    State → List Input → List (Firing State Input Output)
  | _, [] => []
  | s, i :: is => fire step s i :: trace step (step s i).2 is

/-- The state a run ends in. -/
def final (step : State → Input → Output × State) : State → List Input → State
  | s, [] => s
  | s, i :: is => final step (step s i).2 is

variable (step : State → Input → Output × State)

@[simp] theorem fire_before (s : State) (i : Input) : (fire step s i).before = s := rfl

@[simp] theorem fire_input (s : State) (i : Input) : (fire step s i).input = i := rfl

@[simp] theorem fire_output (s : State) (i : Input) :
    (fire step s i).output = (step s i).1 := rfl

@[simp] theorem fire_after (s : State) (i : Input) :
    (fire step s i).after = (step s i).2 := rfl

@[simp] theorem trace_nil (s : State) : trace step s [] = [] := rfl

@[simp] theorem trace_cons (s : State) (i : Input) (is : List Input) :
    trace step s (i :: is) = fire step s i :: trace step (step s i).2 is := rfl

@[simp] theorem final_nil (s : State) : final step s [] = s := rfl

@[simp] theorem final_cons (s : State) (i : Input) (is : List Input) :
    final step s (i :: is) = final step (step s i).2 is := rfl

theorem final_append (s : State) (is js : List Input) :
    final step s (is ++ js) = final step (final step s is) js := by
  induction is generalizing s with
  | nil => rfl
  | cons i is ih => exact ih (step s i).2

theorem trace_append (s : State) (is js : List Input) :
    trace step s (is ++ js) = trace step s is ++ trace step (final step s is) js := by
  induction is generalizing s with
  | nil => rfl
  | cons i is ih =>
      rw [List.cons_append, trace_cons, ih, trace_cons, final_cons, List.cons_append]

/-- A split of a trace comes from a split of its input. -/
theorem trace_split {s : State} {is : List Input}
    {left right : List (Firing State Input Output)}
    (h : trace step s is = left ++ right) :
    ∃ il ir, is = il ++ ir ∧ left = trace step s il ∧
      right = trace step (final step s il) ir := by
  induction left generalizing s is with
  | nil => exact ⟨[], is, rfl, rfl, h.symm⟩
  | cons firing left ih =>
      cases is with
      | nil => cases h
      | cons i is =>
          obtain ⟨hhead, htail⟩ := List.cons.inj h
          obtain ⟨il, ir, his, hleft, hright⟩ := ih htail
          refine ⟨i :: il, ir, by rw [his, List.cons_append], ?_, hright⟩
          rw [trace_cons, hhead, hleft]

/-- A firing starts where the one before it has led. -/
theorem before_eq_after {s : State} {is : List Input}
    {left right : List (Firing State Input Output)} {x y : Firing State Input Output}
    (h : trace step s is = left ++ y :: x :: right) : x.before = y.after := by
  obtain ⟨il, ir, _, _, hrest⟩ := trace_split step h
  cases ir with
  | nil => cases hrest
  | cons i ir =>
      obtain ⟨hy, htail⟩ := List.cons.inj hrest
      cases ir with
      | nil => cases htail
      | cons j ir =>
          obtain ⟨hx, _⟩ := List.cons.inj htail
          rw [hx, hy]
          rfl

/-- The inputs of a trace, in order, are those of the run. -/
theorem trace_map_input (s : State) (is : List Input) :
    (trace step s is).map Firing.input = is := by
  induction is generalizing s with
  | nil => rfl
  | cons i is ih => rw [trace_cons, List.map_cons, ih, fire_input]

/-- A firing of a run is on one of its inputs. -/
theorem input_mem_of_mem_trace {s : State} {is : List Input} {x : Firing State Input Output}
    (hx : x ∈ trace step s is) : x.input ∈ is := by
  induction is generalizing s with
  | nil => cases hx
  | cons i is ih =>
      rcases List.mem_cons.mp hx with rfl | hx
      · exact List.mem_cons_self
      · exact List.mem_cons_of_mem i (ih hx)

/-- It is the firing of the step on the state it found. -/
theorem eq_fire_of_mem_trace {s : State} {is : List Input} {x : Firing State Input Output}
    (hx : x ∈ trace step s is) : x = fire step x.before x.input := by
  induction is generalizing s with
  | nil => cases hx
  | cons i is ih =>
      rcases List.mem_cons.mp hx with rfl | hx
      · rfl
      · exact ih hx

section Clocked

variable {Time : Type*} [Preorder Time] (clock : Input → Time)
  (inv : Time → State → Prop) (allowed : Input → Prop)

/-- Each step, at a time no earlier than the one the invariant was last
established at, establishes the invariant at its own time. -/
def Preserves : Prop :=
  ∀ t s i, inv t s → allowed i → t ≤ clock i → inv (clock i) (step s i).2

variable {step clock inv allowed}

/-- **Invariants along a run.**  If each allowed step preserves a clocked
invariant, every firing of a run whose clock never goes back is a step from a
state in the invariant, at a time no earlier than the invariant's. -/
theorem trace_invariant (hstep : Preserves step clock inv allowed)
    {s : State} {t : Time} {is : List Input} (hs : inv t s)
    (hstart : ∀ i ∈ is, t ≤ clock i)
    (hclock : is.Pairwise (fun i j => clock i ≤ clock j)) (hallowed : ∀ i ∈ is, allowed i) :
    ∀ x ∈ trace step s is, ∃ t₀, inv t₀ x.before ∧ t₀ ≤ clock x.input ∧
      allowed x.input ∧ x = fire step x.before x.input := by
  induction is generalizing s t with
  | nil => intro x hx; cases hx
  | cons i is ih =>
      obtain ⟨hlater, hrest⟩ := List.pairwise_cons.mp hclock
      have hi : allowed i := hallowed i List.mem_cons_self
      have ht : t ≤ clock i := hstart i List.mem_cons_self
      intro x hx
      rcases List.mem_cons.mp hx with rfl | hx
      · exact ⟨t, hs, ht, hi, rfl⟩
      · exact ih (hstep t s i hs hi ht) hlater hrest
          (fun j hj => hallowed j (List.mem_cons_of_mem _ hj)) x hx

/-- Where a run stops, the invariant holds at a time no later than any input
still to come. -/
theorem final_invariant (hstep : Preserves step clock inv allowed)
    {s : State} {t : Time} {is js : List Input} (hs : inv t s)
    (hstart : ∀ i ∈ is ++ js, t ≤ clock i)
    (hclock : (is ++ js).Pairwise (fun i j => clock i ≤ clock j))
    (hallowed : ∀ i ∈ is, allowed i) :
    ∃ t₀, inv t₀ (final step s is) ∧ ∀ j ∈ js, t₀ ≤ clock j := by
  induction is generalizing s t with
  | nil => exact ⟨t, hs, hstart⟩
  | cons i is ih =>
      obtain ⟨hlater, hrest⟩ := List.pairwise_cons.mp hclock
      exact ih (hstep t s i hs (hallowed i List.mem_cons_self) (hstart i List.mem_cons_self))
        hlater hrest (fun j hj => hallowed j (List.mem_cons_of_mem _ hj))

end Clocked

section History

variable {step} {inv : List (Firing State Input Output) → State → Prop}
  {good : Firing State Input Output → Prop}

/-- **What a state remembers.**  If each good step carries a relation between
the firings so far and the state one firing further, the relation holds between
the firings of a run of good steps and the state it ends in. -/
theorem history_final
    (hstep : ∀ past s i, inv past s → good (fire step s i) →
      inv (past ++ [fire step s i]) (step s i).2)
    {past : List (Firing State Input Output)} {s : State} {is : List Input} (hs : inv past s)
    (hgood : ∀ x ∈ trace step s is, good x) :
    inv (past ++ trace step s is) (final step s is) := by
  induction is generalizing past s with
  | nil => rwa [trace_nil, List.append_nil, final_nil]
  | cons i is ih =>
      obtain ⟨hfirst, hrest⟩ := List.forall_mem_cons.mp hgood
      have hnext := ih (hstep past s i hs hfirst) hrest
      rwa [List.append_assoc] at hnext

/-- Where a run splits at a firing, the relation holds between the firings
before it and the state it found. -/
theorem history_split
    (hstep : ∀ past s i, inv past s → good (fire step s i) →
      inv (past ++ [fire step s i]) (step s i).2)
    {s : State} {is : List Input} (hs : inv [] s) (hgood : ∀ x ∈ trace step s is, good x)
    {before after : List (Firing State Input Output)} {x : Firing State Input Output}
    (h : trace step s is = before ++ x :: after) :
    inv before x.before ∧ x = fire step x.before x.input := by
  rw [h] at hgood
  obtain ⟨il, ir, rfl, hbefore, hrest⟩ := trace_split step h
  cases ir with
  | nil => cases hrest
  | cons i ir =>
      rw [trace_cons] at hrest
      obtain ⟨rfl, _⟩ := List.cons.inj hrest
      have hpast := history_final hstep hs fun y hy =>
        hgood y (List.mem_append_left _ (hbefore ▸ hy))
      rw [List.nil_append, ← hbefore] at hpast
      exact ⟨hpast, rfl⟩

end History

section Lockstep

variable {State' Output' Time Seen : Type*} [Preorder Time] (clock : Input → Time)
  {seen : Output → Seen} {step}

/-- **Two machines in lockstep.**  The runs of two machines over the same inputs look
the same when a relation between their states is kept by every pair of good steps
whose clock has not gone back, and related states answer alike. -/
theorem machines_lockstep {step' : State' → Input → Output' × State'} {seen' : Output' → Seen}
    (rel : Time → State → State' → Prop) (good : Firing State Input Output → Prop)
    (good' : Firing State' Input Output' → Prop)
    (hstep : ∀ t s s' i, rel t s s' → t ≤ clock i → good (fire step s i) →
      good' (fire step' s' i) → rel (clock i) (step s i).2 (step' s' i).2 ∧
        seen (step s i).1 = seen' (step' s' i).1)
    {t : Time} {s : State} {s' : State'} {is : List Input} (hs : rel t s s')
    (hstart : ∀ i ∈ is, t ≤ clock i)
    (hclock : is.Pairwise (fun i j => clock i ≤ clock j))
    (hgood : ∀ x ∈ trace step s is, good x) (hgood' : ∀ x ∈ trace step' s' is, good' x) :
    (trace step s is).map (fun x => seen x.output) =
      (trace step' s' is).map (fun x => seen' x.output) := by
  induction is generalizing s s' t with
  | nil => rfl
  | cons i is ih =>
      obtain ⟨hlater, hrest⟩ := List.pairwise_cons.mp hclock
      obtain ⟨hfirst, htail⟩ := List.forall_mem_cons.mp hgood
      obtain ⟨hfirst', htail'⟩ := List.forall_mem_cons.mp hgood'
      obtain ⟨hnext, hseen⟩ := hstep t s s' i hs (hstart i List.mem_cons_self) hfirst hfirst'
      rw [trace_cons, trace_cons, List.map_cons, List.map_cons, fire_output, fire_output, hseen,
        ih hnext hlater hrest htail htail']

variable (rel : Time → State → State → Prop) (good : Firing State Input Output → Prop)

/-- **Two runs in lockstep.**  Two runs over the same inputs look the same when
a relation between their states is kept by every pair of good steps whose
clock has not gone back, and related states answer alike. -/
theorem trace_lockstep
    (hstep : ∀ t s s' i, rel t s s' → t ≤ clock i → good (fire step s i) →
      good (fire step s' i) → rel (clock i) (step s i).2 (step s' i).2 ∧
        seen (step s i).1 = seen (step s' i).1)
    {t : Time} {s s' : State} {is : List Input} (hs : rel t s s')
    (hstart : ∀ i ∈ is, t ≤ clock i)
    (hclock : is.Pairwise (fun i j => clock i ≤ clock j))
    (hgood : ∀ x ∈ trace step s is, good x) (hgood' : ∀ x ∈ trace step s' is, good x) :
    (trace step s is).map (fun x => seen x.output) =
      (trace step s' is).map (fun x => seen x.output) :=
  machines_lockstep clock rel good good hstep hs hstart hclock hgood hgood'

end Lockstep

section Thinning

variable {Time : Type*} [Preorder Time] (clock : Input → Time) {step}

/-- **A thinned run.**  Leave out of a run the inputs of some of its firings.  What is
left runs well, from another state, when a relation between the states says that
each input that is kept does, and is kept by the steps both runs take and by those
the first run takes alone. -/
theorem thinned_good (rel : Time → State → State → Prop)
    (keep : Firing State Input Output → Bool) (good : Output → Prop)
    (hkeep : ∀ t s s' i, rel t s s' → t ≤ clock i → keep (fire step s i) = true →
      good (step s' i).1 ∧ rel (clock i) (step s i).2 (step s' i).2)
    (hdrop : ∀ t s s' i, rel t s s' → t ≤ clock i → keep (fire step s i) = false →
      rel (clock i) (step s i).2 s')
    {t : Time} {s s' : State} {is : List Input} (hs : rel t s s')
    (hstart : ∀ i ∈ is, t ≤ clock i) (hclock : is.Pairwise (fun i j => clock i ≤ clock j)) :
    ∀ x ∈ trace step s' (((trace step s is).filter keep).map Firing.input), good x.output := by
  induction is generalizing s s' t with
  | nil => intro x hx; cases hx
  | cons i is ih =>
      obtain ⟨hlater, hrest⟩ := List.pairwise_cons.mp hclock
      have ht := hstart i List.mem_cons_self
      rw [trace_cons]
      cases hkept : keep (fire step s i) with
      | false =>
          rw [List.filter_cons_of_neg (by simp [hkept])]
          exact ih (hdrop t s s' i hs ht hkept) hlater hrest
      | true =>
          obtain ⟨hgood, hnext⟩ := hkeep t s s' i hs ht hkept
          rw [List.filter_cons_of_pos hkept, List.map_cons, fire_input, trace_cons,
            List.forall_mem_cons]
          exact ⟨hgood, ih hnext hlater hrest⟩

end Thinning

section Unwinding

variable {View : Type*} (view : State → View) (hidden watched : Input → Bool)

/-- The outputs to the watched inputs of a run. -/
def watchedOutputs (step : State → Input → Output × State) (watched : Input → Bool)
    (s : State) (is : List Input) : List Output :=
  ((trace step s is).filter fun x => watched x.input).map Firing.output

variable {step}

/-- **Unwinding.**  Suppose hidden inputs leave the view of a state alone and
are not watched, and every other input takes states of one view to states of
one view, with one output if it is watched.  Then leaving out the hidden inputs
changes neither the view a run ends in nor the outputs to the watched ones. -/
theorem unwinding
    (hhidden : ∀ s i, hidden i = true → view (step s i).2 = view s ∧ watched i = false)
    (hstep : ∀ s s' i, hidden i = false → view s = view s' →
      view (step s i).2 = view (step s' i).2 ∧
        (watched i = true → (step s i).1 = (step s' i).1))
    {s s' : State} (h : view s = view s') (is : List Input) :
    view (final step s is) = view (final step s' (is.filter fun i => !hidden i)) ∧
      watchedOutputs step watched s is =
        watchedOutputs step watched s' (is.filter fun i => !hidden i) := by
  induction is generalizing s s' with
  | nil => exact ⟨h, rfl⟩
  | cons i is ih =>
      cases hi : hidden i with
      | true =>
          obtain ⟨hview, hunwatched⟩ := hhidden s i hi
          obtain ⟨hfinal, houtputs⟩ := ih (hview.trans h)
          rw [List.filter_cons_of_neg (by simp [hi])]
          refine ⟨hfinal, ?_⟩
          rw [watchedOutputs, trace_cons, List.filter_cons_of_neg (by simp [hunwatched])]
          exact houtputs
      | false =>
          obtain ⟨hview, hanswer⟩ := hstep s s' i hi h
          obtain ⟨hfinal, houtputs⟩ := ih hview
          rw [List.filter_cons_of_pos (by simp [hi])]
          refine ⟨hfinal, ?_⟩
          cases hw : watched i with
          | true =>
              rw [watchedOutputs, watchedOutputs, trace_cons, trace_cons,
                List.filter_cons_of_pos (by simp [hw]), List.filter_cons_of_pos (by simp [hw]),
                List.map_cons, List.map_cons, fire_output, fire_output, hanswer hw]
              exact congrArg _ houtputs
          | false =>
              rw [watchedOutputs, watchedOutputs, trace_cons, trace_cons,
                List.filter_cons_of_neg (by simp [hw]), List.filter_cons_of_neg (by simp [hw])]
              exact houtputs

end Unwinding

section Merging

variable (merge : Input → Input → Input) (fit : Input → Prop) (good : Output → Prop)

/-- Of two fit inputs, one after the other does what their merger does: both
outputs are good exactly when the merger's is, and then the second one is the
merger's and leaves the same state. -/
structure Merges (step : State → Input → Output × State) : Prop where
  fit_merge : ∀ i j, fit i → fit j → fit (merge i j)
  good_iff : ∀ s i j, fit i → fit j →
    (good (step s i).1 ∧ good (step (step s i).2 j).1 ↔ good (step s (merge i j)).1)
  step_eq : ∀ s i j, fit i → fit j → good (step s (merge i j)).1 →
    step (step s i).2 j = step s (merge i j)

variable {merge fit good} {step}

/-- **Merging a run.**  All outputs of a run are good exactly when the output to
the merger of its inputs is. -/
theorem Merges.trace_good_iff (h : Merges merge fit good step) {s : State} {i : Input}
    {is : List Input} (hi : fit i) (his : ∀ j ∈ is, fit j) :
    (∀ x ∈ trace step s (i :: is), good x.output) ↔ good (step s (is.foldl merge i)).1 := by
  induction is generalizing i with
  | nil => simp
  | cons j is ih =>
      obtain ⟨hj, hrest⟩ := List.forall_mem_cons.mp his
      have hmerged := ih (h.fit_merge i j hi hj) hrest
      rw [List.foldl_cons, ← hmerged, trace_cons, trace_cons, trace_cons, List.forall_mem_cons,
        List.forall_mem_cons, List.forall_mem_cons, fire_output, fire_output, fire_output,
        ← and_assoc, h.good_iff s i j hi hj]
      apply and_congr_right
      intro hgood
      rw [h.step_eq s i j hi hj hgood]

/-- Then its last output and the state it ends in are the merger's. -/
theorem Merges.last_eq (h : Merges merge fit good step) {s : State} {i : Input}
    {is : List Input} (hi : fit i) (his : ∀ j ∈ is, fit j)
    (hgood : good (step s (is.foldl merge i)).1) :
    ∃ x, (trace step s (i :: is)).getLast? = some x ∧
      x.output = (step s (is.foldl merge i)).1 ∧
      x.after = (step s (is.foldl merge i)).2 ∧
      final step s (i :: is) = (step s (is.foldl merge i)).2 := by
  induction is generalizing i with
  | nil => exact ⟨fire step s i, rfl, rfl, rfl, rfl⟩
  | cons j is ih =>
      obtain ⟨hj, hrest⟩ := List.forall_mem_cons.mp his
      have hfit := h.fit_merge i j hi hj
      have hall := (h.trace_good_iff hfit hrest).mpr hgood
      rw [trace_cons, List.forall_mem_cons] at hall
      have hstep := h.step_eq s i j hi hj hall.1
      cases is with
      | nil => exact ⟨fire step (step s i).2 j, rfl, congrArg Prod.fst hstep,
          congrArg Prod.snd hstep, congrArg Prod.snd hstep⟩
      | cons k is =>
          obtain ⟨x, hlast, houtput, hafter, hfinal⟩ := ih hfit hrest hgood
          refine ⟨x, ?_, houtput, hafter, ?_⟩
          · rw [← hlast, trace_cons, trace_cons, trace_cons, trace_cons, trace_cons, hstep]
            rfl
          · rw [List.foldl_cons, ← hfinal, final_cons, final_cons, hstep]
            rfl

end Merging

section Simulation

variable {State' Input' : Type*} {step' : State' → Input' → Output × State'}
  {f : State → State'} {g : Input → Input'}

/-- A firing seen through maps of its states and its input. -/
def Firing.map (f : State → State') (g : Input → Input') (x : Firing State Input Output) :
    Firing State' Input' Output :=
  ⟨f x.before, g x.input, x.output, f x.after⟩

/-- The machine `step'` does on images what `step` does. -/
def Simulates (step : State → Input → Output × State)
    (step' : State' → Input' → Output × State') (f : State → State') (g : Input → Input') :
    Prop :=
  ∀ s i, step' (f s) (g i) = ((step s i).1, f (step s i).2)

variable {step}

theorem Simulates.fire_eq (h : Simulates step step' f g) (s : State) (i : Input) :
    fire step' (f s) (g i) = Firing.map f g (fire step s i) := by
  rw [fire, h s i]
  rfl

/-- **Simulation along a run.**  The trace over images is the image of the
trace. -/
theorem Simulates.trace_eq (h : Simulates step step' f g) (s : State) (is : List Input) :
    trace step' (f s) (is.map g) = (trace step s is).map (Firing.map f g) := by
  induction is generalizing s with
  | nil => rfl
  | cons i is ih =>
      rw [List.map_cons, trace_cons, trace_cons, List.map_cons, h.fire_eq, h s i, ih]

theorem Simulates.final_eq (h : Simulates step step' f g) (s : State) (is : List Input) :
    final step' (f s) (is.map g) = f (final step s is) := by
  induction is generalizing s with
  | nil => rfl
  | cons i is ih => rw [List.map_cons, final_cons, final_cons, h s i, ih]

end Simulation

section Projection

variable {State' Input' Output' : Type*}

/-- A part of a machine, seen through `view`: each step gives the part one of
its own inputs, or leaves it alone. -/
structure Projects (step : State → Input → Output × State)
    (step' : State' → Input' → Output' × State') (view : State → State')
    (pick : State → Input → Option Input') : Prop where
  step_eq : ∀ s i i', pick s i = some i' → view (step s i).2 = (step' (view s) i').2
  skip : ∀ s i, pick s i = none → view (step s i).2 = view s

/-- The input a firing gives the part. -/
def Firing.picked (pick : State → Input → Option Input') (x : Firing State Input Output) :
    Option Input' :=
  pick x.before x.input

variable {step' : State' → Input' → Output' × State'} {view : State → State'}
  {pick : State → Input → Option Input'} {step}

/-- **The part runs on what it is given.** -/
theorem Projects.final_eq (h : Projects step step' view pick) (s : State) (is : List Input) :
    view (final step s is) =
      final step' (view s) ((trace step s is).filterMap (Firing.picked pick)) := by
  induction is generalizing s with
  | nil => rfl
  | cons i is ih =>
      have hpicked : (fire step s i).picked pick = pick s i := rfl
      rw [final_cons, trace_cons, ih, List.filterMap_cons, hpicked]
      cases hpick : pick s i with
      | none => rw [h.skip s i hpick]
      | some i' => rw [h.step_eq s i i' hpick, final_cons]

/-- Its trace, one firing for each it is given an input by. -/
theorem Projects.trace_eq (h : Projects step step' view pick) (s : State) (is : List Input) :
    (trace step s is).filterMap
        (fun x => (x.picked pick).map (fire step' (view x.before))) =
      trace step' (view s) ((trace step s is).filterMap (Firing.picked pick)) := by
  induction is generalizing s with
  | nil => rfl
  | cons i is ih =>
      have hpicked : (fire step s i).picked pick = pick s i := rfl
      rw [trace_cons, List.filterMap_cons, List.filterMap_cons, hpicked]
      cases hpick : pick s i with
      | none =>
          rw [Option.map_none, ← h.skip s i hpick]
          exact ih (step s i).2
      | some i' =>
          have hnext := ih (step s i).2
          rw [h.step_eq s i i' hpick] at hnext
          exact congrArg (fire step' (view s) i' :: ·) hnext

end Projection

end MachineRuns
