import Mathlib.Data.List.Induction
import Mathlib.Order.MinMax

/-!
# Running minimum and running maximum

A loop that keeps the smallest value seen, replacing it only by a strictly
smaller one, ends with the minimum of the list and the position of its first
occurrence (`firstMin_spec`).  A loop that keeps the larger of two
values ends below a bound exactly when every value does (`runningMax_le_iff`).
-/

namespace RunningExtremes

variable {α : Type*} [LinearOrder α]

/-- Compare the value at position `i` with the best seen so far. -/
def keepSmaller (best : Option (α × ℕ)) (x : α) (i : ℕ) : Option (α × ℕ) :=
  match best with
  | none => some (x, i)
  | some (m, j) => if x < m then some (x, i) else some (m, j)

/-- The minimum of a list and its position, found from left to right. -/
def firstMin (xs : List α) : Option (α × ℕ) :=
  xs.zipIdx.foldl (fun best p => keepSmaller best p.1 p.2) none

/-- The larger of a start value and every value of a list. -/
def runningMax (start : α) (xs : List α) : α := xs.foldl max start

@[simp] theorem firstMin_nil : firstMin ([] : List α) = none := rfl

theorem firstMin_concat (xs : List α) (x : α) :
    firstMin (xs ++ [x]) = keepSmaller (firstMin xs) x xs.length := by
  simp [firstMin, List.zipIdx_append]

theorem firstMin_eq_none_iff {xs : List α} : firstMin xs = none ↔ xs = [] := by
  cases xs using List.reverseRecOn with
  | nil => simp
  | append_singleton xs x =>
      rw [firstMin_concat]
      cases firstMin xs with
      | none => simp [keepSmaller]
      | some best => by_cases hx : x < best.1 <;> simp [keepSmaller, hx]

/-- `m` is the least value of the list and `k` the first position holding it. -/
structure IsFirstMin (xs : List α) (m : α) (k : ℕ) : Prop where
  attained : xs[k]? = some m
  least : ∀ x ∈ xs, m ≤ x
  first : ∀ j x, j < k → xs[j]? = some x → m < x

theorem IsFirstMin.lt_length {xs : List α} {m : α} {k : ℕ} (h : IsFirstMin xs m k) :
    k < xs.length :=
  (List.getElem?_eq_some_iff.mp h.attained).1

/-- The first minimum is at one position. -/
theorem IsFirstMin.unique {xs : List α} {m m' : α} {k k' : ℕ} (h : IsFirstMin xs m k)
    (h' : IsFirstMin xs m' k') : k = k' := by
  have hle := h.least m' (List.mem_of_getElem? h'.attained)
  have hge := h'.least m (List.mem_of_getElem? h.attained)
  rcases lt_trichotomy k k' with hlt | heq | hgt
  · exact absurd (h'.first k m hlt h.attained) (not_lt.mpr hle)
  · exact heq
  · exact absurd (h.first k' m' hgt h'.attained) (not_lt.mpr hge)

/-- Appending a value to a list with a first minimum. -/
private theorem isFirstMin_concat {xs : List α} {m : α} {k : ℕ} (h : IsFirstMin xs m k)
    (x : α) :
    (x < m → IsFirstMin (xs ++ [x]) x xs.length) ∧
      (¬ x < m → IsFirstMin (xs ++ [x]) m k) := by
  have hk := h.lt_length
  constructor
  · intro hx
    refine ⟨by simp, ?_, ?_⟩
    · intro y hy
      rcases List.mem_append.mp hy with hy | hy
      · exact le_trans (le_of_lt hx) (h.least y hy)
      · exact le_of_eq (List.mem_singleton.mp hy).symm
    · intro j y hj hy
      rw [List.getElem?_append_left hj] at hy
      exact lt_of_lt_of_le hx (h.least y (List.mem_of_getElem? hy))
  · intro hx
    refine ⟨by rw [List.getElem?_append_left hk]; exact h.attained, ?_, ?_⟩
    · intro y hy
      rcases List.mem_append.mp hy with hy | hy
      · exact h.least y hy
      · exact List.mem_singleton.mp hy ▸ not_lt.mp hx
    · intro j y hj hy
      rw [List.getElem?_append_left (lt_trans hj hk)] at hy
      exact h.first j y hj hy

/-- **First minimum.**  The running minimum of a list is its least value, and
the position kept is the first that holds it. -/
theorem firstMin_spec {xs : List α} {m : α} {k : ℕ} (h : firstMin xs = some (m, k)) :
    IsFirstMin xs m k := by
  induction xs using List.reverseRecOn generalizing m k with
  | nil => cases h
  | append_singleton xs x ih =>
      rw [firstMin_concat] at h
      cases hbest : firstMin xs with
      | none =>
          rw [firstMin_eq_none_iff] at hbest
          subst hbest
          obtain ⟨rfl, rfl⟩ : x = m ∧ 0 = k := by simpa [keepSmaller] using h
          exact ⟨rfl, by simp, by simp⟩
      | some best =>
          obtain ⟨m', k'⟩ := best
          have hconcat := isFirstMin_concat (ih hbest) x
          rw [hbest] at h
          by_cases hx : x < m'
          · obtain ⟨rfl, rfl⟩ : x = m ∧ xs.length = k := by simpa [keepSmaller, hx] using h
            exact hconcat.1 hx
          · obtain ⟨rfl, rfl⟩ : m' = m ∧ k' = k := by simpa [keepSmaller, hx] using h
            exact hconcat.2 hx

/-- A nonempty list has a running minimum. -/
theorem exists_firstMin {xs : List α} (hxs : xs ≠ []) : ∃ m k, firstMin xs = some (m, k) := by
  cases h : firstMin xs with
  | none => exact absurd (firstMin_eq_none_iff.mp h) hxs
  | some best => exact ⟨best.1, best.2, rfl⟩

/-- The running minimum is at least a bound exactly when every value is. -/
theorem IsFirstMin.le_iff {xs : List α} {m : α} {k : ℕ} (h : IsFirstMin xs m k) (bound : α) :
    bound ≤ m ↔ ∀ x ∈ xs, bound ≤ x :=
  ⟨fun hb x hx => le_trans hb (h.least x hx),
    fun hb => hb m (List.mem_of_getElem? h.attained)⟩

theorem runningMax_concat (start : α) (xs : List α) (x : α) :
    runningMax start (xs ++ [x]) = max (runningMax start xs) x := by
  simp [runningMax]

/-- **Running maximum.**  It stays within a bound exactly when the start value
and every value of the list do. -/
theorem runningMax_le_iff {start bound : α} {xs : List α} :
    runningMax start xs ≤ bound ↔ start ≤ bound ∧ ∀ x ∈ xs, x ≤ bound := by
  induction xs using List.reverseRecOn with
  | nil => simp [runningMax]
  | append_singleton xs x ih =>
      rw [runningMax_concat, max_le_iff, ih]
      simp only [List.mem_append, List.mem_singleton, or_imp, forall_and, forall_eq, and_assoc]

theorem le_runningMax {start : α} {xs : List α} {x : α} (hx : x ∈ xs) :
    x ≤ runningMax start xs :=
  (runningMax_le_iff.mp le_rfl).2 x hx

/-- It is the start value or one of the values. -/
theorem runningMax_eq_or_mem (start : α) (xs : List α) :
    runningMax start xs = start ∨ runningMax start xs ∈ xs := by
  induction xs using List.reverseRecOn with
  | nil => exact Or.inl rfl
  | append_singleton xs x ih =>
      rw [runningMax_concat]
      rcases max_choice (runningMax start xs) x with hmax | hmax
      · rw [hmax]
        exact ih.imp_right (List.mem_append_left [x])
      · rw [hmax]
        exact Or.inr (List.mem_append_right xs List.mem_cons_self)

end RunningExtremes
