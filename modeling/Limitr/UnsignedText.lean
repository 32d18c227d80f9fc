import Mathlib.Data.List.Basic
import Mathlib.Tactic.Linarith

/-!
# Unsigned numbers as text

A number is read from its decimal digits, with a plus sign in front or none, from
left to right; as soon as the value read so far is past the limit of its type the
text is refused.

Refusing early refuses no more than refusing late, since a further digit never
makes a value smaller: a text is read exactly when it is a sign and digits whose
value keeps within the limit (`parse_eq_some_iff`).  Printed numbers are read back
(`parse_toDigits`), and zero is written with zeros alone (`parse_eq_zero_iff`).
-/

namespace UnsignedText

variable (limit : ℕ)

/-- Read digits onto a value, within the limit. -/
def readDigits : ℕ → List Char → Option ℕ
  | value, [] => some value
  | value, c :: text =>
      if c.isDigit then
        if value * 10 + (c.toNat - '0'.toNat) ≤ limit then
          readDigits (value * 10 + (c.toNat - '0'.toNat)) text
        else none
      else none

/-- Read a number: at least one digit, after a plus sign or without one. -/
def parse : List Char → Option ℕ
  | [] => none
  | '+' :: [] => none
  | '+' :: digits => readDigits limit 0 digits
  | digits => readDigits limit 0 digits

variable {limit} {value n : ℕ} {text : List Char}

/-- Reading on never makes the value smaller. -/
theorem le_ofDigitChars (value : ℕ) (text : List Char) :
    value ≤ Nat.ofDigitChars 10 text value := by
  induction text generalizing value with
  | nil => exact le_rfl
  | cons c text ih =>
      rw [Nat.ofDigitChars_cons]
      have hnext := ih (10 * value + (c.toNat - '0'.toNat))
      omega

/-- **What reading digits gives.** -/
theorem readDigits_eq_some_iff (hvalue : value ≤ limit) :
    readDigits limit value text = some n ↔
      (∀ c ∈ text, c.isDigit = true) ∧ Nat.ofDigitChars 10 text value = n ∧ n ≤ limit := by
  induction text generalizing value with
  | nil =>
      rw [readDigits, Option.some.injEq, Nat.ofDigitChars_nil]
      constructor
      · intro h
        exact ⟨List.forall_mem_nil _, h, h ▸ hvalue⟩
      · exact fun h => h.2.1
  | cons c text ih =>
      have hcomm : value * 10 = 10 * value := Nat.mul_comm value 10
      rw [readDigits, Nat.ofDigitChars_cons, List.forall_mem_cons, hcomm]
      by_cases hdigit : c.isDigit = true
      · rw [if_pos hdigit]
        by_cases hfits : 10 * value + (c.toNat - '0'.toNat) ≤ limit
        · rw [if_pos hfits, ih hfits]
          simp only [hdigit, true_and]
        · -- the value is past the limit and stays there
          have hpast := le_ofDigitChars (10 * value + (c.toNat - '0'.toNat)) text
          rw [if_neg hfits]
          constructor
          · intro h
            cases h
          · intro h
            omega
      · rw [if_neg hdigit]
        constructor
        · intro h
          cases h
        · intro h
          exact absurd h.1.1 hdigit

/-- **What is read**: a sign or none, and digits whose value keeps within the limit. -/
theorem parse_eq_some_iff : parse limit text = some n ↔
    ∃ digits, digits ≠ [] ∧ (text = digits ∨ text = '+' :: digits) ∧
      (∀ c ∈ digits, c.isDigit = true) ∧ Nat.ofDigitChars 10 digits 0 = n ∧ n ≤ limit := by
  have hplus : ¬('+').isDigit = true := by decide
  fun_cases parse limit text with
  | case1 =>
      constructor
      · intro h
        cases h
      · intro h
        obtain ⟨digits, hne, htext | htext, _⟩ := h
        · exact absurd htext.symm hne
        · cases htext
  | case2 =>
      constructor
      · intro h
        cases h
      · intro h
        obtain ⟨digits, hne, rfl | htext, hdigits, _⟩ := h
        · exact absurd (hdigits '+' List.mem_cons_self) hplus
        · exact absurd (List.cons.inj htext).2.symm hne
  | case3 digits hne =>
      rw [readDigits_eq_some_iff (Nat.zero_le limit)]
      constructor
      · intro h
        exact ⟨digits, hne, Or.inr rfl, h⟩
      · intro h
        obtain ⟨digits', _, rfl | htext, h⟩ := h
        · exact absurd (h.1 '+' List.mem_cons_self) hplus
        · rw [(List.cons.inj htext).2]
          exact h
  | case4 text hne hsingle hplain =>
      rw [readDigits_eq_some_iff (Nat.zero_le limit)]
      constructor
      · intro h
        exact ⟨text, hne, Or.inl rfl, h⟩
      · intro h
        obtain ⟨digits, _, rfl | rfl, h⟩ := h
        · exact h
        · exact absurd rfl (hplain digits)

/-- A printed number is read back, unless it is past the limit. -/
theorem parse_toDigits (hn : n ≤ limit) : parse limit (Nat.toDigits 10 n) = some n := by
  rw [parse_eq_some_iff]
  refine ⟨Nat.toDigits 10 n, Nat.toDigits_ne_nil, Or.inl rfl, ?_, Nat.ofDigitChars_ten_toDigits,
    hn⟩
  intro c hc
  exact Nat.isDigit_of_mem_toDigits (by decide) (by decide) hc

/-- Digits of value zero are zeros. -/
theorem ofDigitChars_eq_zero_iff (hdigits : ∀ c ∈ text, c.isDigit = true) :
    Nat.ofDigitChars 10 text 0 = 0 ↔ ∀ c ∈ text, c = '0' := by
  induction text with
  | nil => simp
  | cons c text ih =>
      obtain ⟨hc, hrest⟩ := List.forall_mem_cons.mp hdigits
      have hzero : c.toNat - '0'.toNat = 0 ↔ c = '0' := by
        rw [← Char.toNat_inj]
        have hlow : '0'.toNat ≤ c.toNat := by
          simp only [Char.isDigit, Bool.and_eq_true, decide_eq_true_eq] at hc
          exact UInt32.le_iff_toNat_le.mp hc.1
        omega
      have hle := le_ofDigitChars (c.toNat - '0'.toNat) text
      rw [Nat.ofDigitChars_cons, Nat.mul_zero, Nat.zero_add, List.forall_mem_cons, ← ih hrest]
      constructor
      · intro h
        have hfirst : c.toNat - '0'.toNat = 0 := by omega
        rw [hfirst] at h
        exact ⟨hzero.mp hfirst, h⟩
      · intro h
        rw [hzero.mpr h.1]
        exact h.2

/-- **What is read as zero**: zeros, and nothing but a sign in front of them. -/
theorem parse_eq_zero_iff : parse limit text = some 0 ↔
    ∃ zeros, zeros ≠ [] ∧ (text = zeros ∨ text = '+' :: zeros) ∧ ∀ c ∈ zeros, c = '0' := by
  have hdigit : ('0').isDigit = true := by decide
  rw [parse_eq_some_iff]
  apply exists_congr
  intro digits
  apply and_congr_right
  intro _
  apply and_congr_right
  intro _
  constructor
  · intro h
    obtain ⟨hdigits, hvalue, _⟩ := h
    exact (ofDigitChars_eq_zero_iff hdigits).mp hvalue
  · intro hzeros
    have hdigits : ∀ c ∈ digits, c.isDigit = true := fun c hc => by rw [hzeros c hc, hdigit]
    exact ⟨hdigits, (ofDigitChars_eq_zero_iff hdigits).mpr hzeros, Nat.zero_le limit⟩

end UnsignedText
