import Mathlib.Data.List.Basic

/-!
# Names joined by a separator

Three names are joined into one by writing a separator between them, and a
text is cut at its first separator.  Nothing is escaped, so a name may itself
contain the separator.

`cut_eq_some_iff` says what cutting finds.  `joined_eq_iff` settles when two
joined triples coincide, provided their middle names are free of the
separator: only when the triples are equal, or when the first name of one runs
over the first two names of the other (`Overruns`).

Searching from the right finds the last separator (`lastPosition`), the one no
other follows.
-/

namespace SeparatedNames

variable {α : Type*} (sep : α)

/-- Three names to be joined. -/
structure Names (α : Type*) where
  first : List α
  middle : List α
  last : List α

/-- The names with a separator between them. -/
def Names.joined (n : Names α) : List α :=
  n.first ++ sep :: (n.middle ++ sep :: n.last)

/-- The first name of `n'` runs over the first two names of `n` and their
separator, and what is left of `n'` is the last name of `n`. -/
def Overruns (n n' : Names α) : Prop :=
  ∃ excess, n'.first = n.first ++ sep :: (n.middle ++ excess) ∧
    sep :: n.last = excess ++ sep :: (n'.middle ++ sep :: n'.last)

variable {sep}

theorem Overruns.joined_eq {n n' : Names α} (h : Overruns sep n n') :
    n.joined sep = n'.joined sep := by
  obtain ⟨excess, hfirst, hlast⟩ := h
  rw [Names.joined, Names.joined, hfirst, hlast]
  simp

variable [DecidableEq α] (sep)

/-- The text before and after its first separator. -/
def cut : List α → Option (List α × List α)
  | [] => none
  | c :: text =>
      if c = sep then some ([], text)
      else (cut text).map (fun parts => (c :: parts.1, parts.2))

/-- What stands before the first separator; all of the text if there is none. -/
def head (text : List α) : List α := ((cut sep text).map Prod.fst).getD text

variable {sep}

/-- A text with a separator is cut at the first one, and only there. -/
theorem cut_eq_some_iff {text before after : List α} :
    cut sep text = some (before, after) ↔
      sep ∉ before ∧ text = before ++ sep :: after := by
  induction text generalizing before with
  | nil => simp [cut]
  | cons c text ih =>
      by_cases hc : c = sep
      · subst hc
        cases before with
        | nil => simp [cut]
        | cons d before =>
            simp only [cut, if_pos, Option.some.injEq, Prod.mk.injEq, List.cons_append,
              List.cons.injEq, List.mem_cons, not_or]
            exact ⟨fun h => absurd h.1 (by simp), fun h => absurd h.2.1 h.1.1⟩
      · cases before with
        | nil => simp [cut, hc]
        | cons d before =>
            have hcut : cut sep (c :: text) = some (d :: before, after) ↔
                c = d ∧ cut sep text = some (before, after) := by
              cases htext : cut sep text <;> simp [cut, hc, htext, Prod.ext_iff, and_assoc]
            rw [hcut, ih]
            constructor
            · intro h
              obtain ⟨rfl, hbefore, rfl⟩ := h
              exact ⟨by simp [hbefore, Ne.symm hc], rfl⟩
            · intro h
              obtain ⟨hbefore, heq⟩ := h
              obtain ⟨rfl, rfl⟩ := List.cons.inj heq
              exact ⟨rfl, fun h => hbefore (List.mem_cons_of_mem _ h), rfl⟩

/-- A text without a separator is not cut. -/
theorem cut_eq_none_iff {text : List α} : cut sep text = none ↔ sep ∉ text := by
  induction text with
  | nil => simp [cut]
  | cons c text ih =>
      by_cases hc : c = sep
      · simp [cut, hc]
      · simp [cut, hc, ih, Ne.symm hc]

theorem cut_append_sep {before : List α} (h : sep ∉ before) (after : List α) :
    cut sep (before ++ sep :: after) = some (before, after) :=
  cut_eq_some_iff.mpr ⟨h, rfl⟩

theorem head_of_not_mem {text : List α} (h : sep ∉ text) : head sep text = text := by
  rw [head, cut_eq_none_iff.mpr h]
  rfl

/-- Text after a separator does not change what stands before the first one. -/
theorem cut_head_append_sep (text rest : List α) :
    ∃ after, cut sep (text ++ sep :: rest) = some (head sep text, after) := by
  cases hcut : cut sep text with
  | none =>
      have htext := cut_eq_none_iff.mp hcut
      exact ⟨rest, by rw [cut_append_sep htext, head_of_not_mem htext]⟩
  | some parts =>
      obtain ⟨hbefore, htext⟩ := cut_eq_some_iff.mp hcut
      refine ⟨parts.2 ++ sep :: rest, cut_eq_some_iff.mpr ?_⟩
      rw [head, hcut]
      exact ⟨hbefore, by rw [htext]; simp⟩

variable (sep) in
/-- The position of the last separator. -/
def lastPosition (text : List α) : Option ℕ :=
  (cut sep text.reverse).map fun parts => parts.2.length

/-- The last separator stands where none follows it. -/
theorem lastPosition_append_sep (before : List α) {after : List α} (h : sep ∉ after) :
    lastPosition sep (before ++ sep :: after) = some before.length := by
  have hreverse : (before ++ sep :: after).reverse = after.reverse ++ sep :: before.reverse := by
    simp
  have hafter : sep ∉ after.reverse := by simpa using h
  rw [lastPosition, hreverse, cut_append_sep hafter, Option.map_some, List.length_reverse]

/-- A text splits at its last separator. -/
theorem exists_last_of_mem {text : List α} (h : sep ∈ text) :
    ∃ before after, text = before ++ sep :: after ∧ sep ∉ after := by
  have hreverse : sep ∈ text.reverse := List.mem_reverse.mpr h
  cases hcut : cut sep text.reverse with
  | none => exact absurd hreverse (cut_eq_none_iff.mp hcut)
  | some parts =>
      obtain ⟨hbefore, htext⟩ := cut_eq_some_iff.mp hcut
      refine ⟨parts.2.reverse, parts.1.reverse, ?_, by simpa using hbefore⟩
      have hback := congrArg List.reverse htext
      simpa using hback

/-- The half of `joined_eq_iff` where the first name of `n` is the shorter. -/
private theorem eq_or_overruns_of_first {n n' : Names α}
    (hn : sep ∉ n.middle) (hn' : sep ∉ n'.middle) {rest : List α}
    (hfirst : n'.first = n.first ++ rest)
    (hrest : sep :: (n.middle ++ sep :: n.last) =
      rest ++ sep :: (n'.middle ++ sep :: n'.last)) :
    n = n' ∨ Overruns sep n n' := by
  cases rest with
  | nil =>
      -- The first names agree: both texts are cut at the same separator.
      left
      have htail : n.middle ++ sep :: n.last = n'.middle ++ sep :: n'.last := by
        simpa using hrest
      have hcut := cut_append_sep hn n.last
      rw [htail, cut_append_sep hn' n'.last] at hcut
      obtain ⟨hmiddle, hlast⟩ := Prod.mk.inj (Option.some.inj hcut)
      cases n
      cases n'
      simp_all
  | cons c rest =>
      right
      obtain ⟨rfl, htail⟩ := List.cons.inj hrest
      rcases List.append_eq_append_iff.mp htail with
        ⟨excess, hexcess, hlast⟩ | ⟨excess, hexcess, hlast⟩
      · exact ⟨excess, by rw [hfirst, hexcess], hlast⟩
      · -- The middle name of `n` has no separator to run past `rest` with.
        cases excess with
        | nil =>
            refine ⟨[], ?_, by simpa using hlast.symm⟩
            rw [hfirst, show n.middle = rest by simpa using hexcess]
            simp
        | cons d excess =>
            have hd : d = sep := (List.cons.inj hlast).1.symm
            exact absurd (by rw [hexcess, hd]; simp) hn

/-- **Joined triples.**  With middle names free of the separator, two joined
triples coincide only if the triples do, or one overruns the other. -/
theorem joined_eq_iff {n n' : Names α} (hn : sep ∉ n.middle) (hn' : sep ∉ n'.middle) :
    n.joined sep = n'.joined sep ↔ n = n' ∨ Overruns sep n n' ∨ Overruns sep n' n := by
  constructor
  · intro h
    rcases List.append_eq_append_iff.mp h with ⟨rest, hfirst, hrest⟩ | ⟨rest, hfirst, hrest⟩
    · exact (eq_or_overruns_of_first hn hn' hfirst hrest).imp_right Or.inl
    · exact (eq_or_overruns_of_first hn' hn hfirst hrest).imp Eq.symm Or.inr
  · intro h
    rcases h with rfl | h | h
    · rfl
    · exact h.joined_eq
    · exact h.joined_eq.symm

end SeparatedNames
