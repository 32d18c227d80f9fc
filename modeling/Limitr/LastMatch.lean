import Mathlib.Data.List.Basic

/-!
# The last element with a property

Where later entries of a list replace earlier ones, what counts is the last
element that has a property.  `IsLast` says which one that is, and
`find?_reverse_eq_some_iff` that searching from the right finds it.
-/

namespace LastMatch

variable {α : Type*}

/-- `x` has the property, and nothing after it in the list has. -/
def IsLast (P : α → Prop) (xs : List α) (x : α) : Prop :=
  ∃ earlier later, xs = earlier ++ x :: later ∧ P x ∧ ∀ y ∈ later, ¬P y

variable {P : α → Prop} {xs : List α} {x y : α}

theorem IsLast.mem (h : IsLast P xs x) : x ∈ xs := by
  obtain ⟨earlier, later, rfl, _⟩ := h
  exact List.mem_append_right earlier List.mem_cons_self

theorem IsLast.prop (h : IsLast P xs x) : P x := by
  obtain ⟨_, _, _, hx, _⟩ := h
  exact hx

/-- An element with the property is the last one once it is appended. -/
theorem isLast_append_self (hx : P x) (xs : List α) : IsLast P (xs ++ [x]) x :=
  ⟨xs, [], rfl, hx, fun _ hy => nomatch hy⟩

/-- An element without the property leaves the last one the last. -/
theorem IsLast.append (h : IsLast P xs x) (hy : ¬P y) : IsLast P (xs ++ [y]) x := by
  obtain ⟨earlier, later, rfl, hx, hlater⟩ := h
  refine ⟨earlier, later ++ [y], by simp, hx, ?_⟩
  intro z hz
  rcases List.mem_append.mp hz with hz | hz
  · exact hlater z hz
  · obtain rfl := List.mem_singleton.mp hz
    exact hy

/-- **Searching from the right** finds the last element with the property. -/
theorem find?_reverse_eq_some_iff [DecidablePred P] :
    xs.reverse.find? (fun y => decide (P y)) = some x ↔ IsLast P xs x := by
  rw [List.find?_eq_some_iff_append, decide_eq_true_iff]
  constructor
  · intro h
    obtain ⟨hx, later, earlier, hxs, hlater⟩ := h
    refine ⟨earlier.reverse, later.reverse, ?_, hx, ?_⟩
    · have hreverse := congrArg List.reverse hxs
      simpa using hreverse
    · intro y hy
      simpa using hlater y (List.mem_reverse.mp hy)
  · intro h
    obtain ⟨earlier, later, rfl, hx, hlater⟩ := h
    refine ⟨hx, later.reverse, earlier.reverse, by simp, ?_⟩
    intro y hy
    simpa using hlater y (List.mem_reverse.mp hy)

theorem find?_reverse_eq_none_iff [DecidablePred P] :
    xs.reverse.find? (fun y => decide (P y)) = none ↔ ∀ y ∈ xs, ¬P y := by
  simp [List.find?_eq_none]

/-- At most one element is the last with the property. -/
theorem IsLast.unique (h : IsLast P xs x) (h' : IsLast P xs y) : x = y := by
  classical
  have hx := find?_reverse_eq_some_iff.mpr h
  have hy := find?_reverse_eq_some_iff.mpr h'
  exact Option.some.inj (hx.symm.trans hy)

end LastMatch
