import Limitr.ExactDouble
import Mathlib.Data.Int.Log
import Mathlib.Data.List.DropRight
import Mathlib.Data.List.TakeWhile

/-!
# Numbers as decimal text

Printing a number with a fixed count of significant digits, as `%.{p}g` does
in C, and reading a decimal numeral back.

A `Numeral` is the text of a finite number in its parts: a sign, the digits
before and after the point, and an exponent.  `print` chooses the parts as C
prescribes; `parse` reads any sign, digits, point and exponent, and the names
of the special values.  The two meet in `parse_text`: a numeral made of digits
is read back at the value it denotes, so whatever `print` writes is readable
(`parse_print_isSome`).
-/

namespace DecimalText

/-- A decimal numeral in its parts. -/
structure Numeral where
  negative : Bool
  whole : List Char
  fraction : List Char
  exponent : Option ℤ

/-- The digits of an exponent, at least two of them. -/
def exponentDigits (e : ℕ) : List Char :=
  if e < 10 then '0' :: Nat.toDigits 10 e else Nat.toDigits 10 e

/-- An exponent with its sign. -/
def exponentText (e : ℤ) : List Char :=
  'e' :: (if decide (e < 0) then '-' else '+') :: exponentDigits e.natAbs

/-- The numeral without its sign. -/
def Numeral.unsigned (n : Numeral) : List Char :=
  n.whole ++ ((if n.fraction = [] then [] else '.' :: n.fraction) ++
    (n.exponent.map exponentText).getD [])

/-- The numeral as it is written. -/
def Numeral.text (n : Numeral) : List Char :=
  if n.negative then '-' :: n.unsigned else n.unsigned

/-- The number the digits before and after a point and an exponent denote. -/
def magnitude (whole fraction : List Char) (e : ℤ) : ℚ :=
  Nat.ofDigitChars 10 (whole ++ fraction) 0 * 10 ^ (e - fraction.length)

/-- The number a numeral denotes. -/
def Numeral.value (n : Numeral) : ℚ :=
  let m := magnitude n.whole n.fraction (n.exponent.getD 0)
  if n.negative then -m else m

/-! ## Reading -/

/-- An optional sign, and whether it is a minus. -/
def parseSign : List Char → Bool × List Char
  | '-' :: text => (true, text)
  | '+' :: text => (false, text)
  | text => (false, text)

/-- An optional exponent that takes up the rest of the text. -/
def parseExponent : List Char → Option ℤ
  | [] => some 0
  | c :: text =>
      if c = 'e' ∨ c = 'E' then
        let (negative, digits) := parseSign text
        if digits ≠ [] ∧ digits.all Char.isDigit then
          let e : ℤ := Nat.ofDigitChars 10 digits 0
          some (if negative then -e else e)
        else none
      else none

/-- The digits after a point, if there is one, and the text that follows. -/
def parseFraction : List Char → List Char × List Char
  | '.' :: text => (text.takeWhile Char.isDigit, text.dropWhile Char.isDigit)
  | text => ([], text)

/-- Digits with an optional point among or beside them and an optional
exponent. -/
def parseUnsigned (text : List Char) : Option ℚ :=
  let whole := text.takeWhile Char.isDigit
  let (fraction, rest) := parseFraction (text.dropWhile Char.isDigit)
  if whole = [] ∧ fraction = [] then none
  else (parseExponent rest).map (magnitude whole fraction)

/-- The special values, by name and in any case. -/
def parseSpecial (negative : Bool) (text : List Char) : Option F64 :=
  let name := text.map Char.toLower
  if name = "inf".toList ∨ name = "infinity".toList then some (F64.inf negative)
  else if name = "nan".toList then some F64.nan
  else none

/-- A number in decimal notation. -/
def parse (text : String) : Option F64 :=
  let (negative, body) := parseSign text.toList
  match parseUnsigned body with
  | some q => some (F64.fin (if negative then -q else q))
  | none => parseSpecial negative body

/-! ## Printing -/

/-- The natural number nearest to `q`, the even one of two that are as near. -/
def roundHalfEven (q : ℚ) : ℕ :=
  let below := ⌊q⌋₊
  let rest := q - below
  if rest < 1 / 2 then below
  else if 1 / 2 < rest then below + 1
  else if below % 2 = 0 then below else below + 1

/-- The `p` leading digits of a positive number, rounded, as one natural
number, and the decimal exponent of the first of them. -/
def significant (p : ℕ) (q : ℚ) : ℕ × ℤ :=
  let e := Int.log 10 q
  let m := roundHalfEven (q / 10 ^ (e - (p - 1 : ℕ)))
  if m = 10 ^ p then (10 ^ (p - 1), e + 1) else (m, e)

/-- Digits without the zeros they end in. -/
def stripZeros (digits : List Char) : List Char := digits.rdropWhile (· = '0')

/-- The numeral with `p` significant digits: without an exponent as long as
the first digit stands less than `p` places before the point and at most four
behind it, and with no zeros after the last digit of the fraction. -/
def numeral (p : ℕ) (q : ℚ) : Numeral :=
  let (m, e) := if q = 0 then (0, 0) else significant p |q|
  let digits := Nat.toDigits 10 m
  let negative := decide (q < 0)
  if e < -4 ∨ p ≤ e then
    ⟨negative, digits.take 1, stripZeros (digits.drop 1), some e⟩
  else if e < 0 then
    ⟨negative, ['0'], stripZeros (List.replicate (-e - 1).toNat '0' ++ digits), none⟩
  else
    ⟨negative, digits.take (e + 1).toNat, stripZeros (digits.drop (e + 1).toNat), none⟩

/-- A number with `p` significant digits. -/
def print (p : ℕ) : F64 → String
  | F64.nan => "nan"
  | F64.inf negative => if negative then "-inf" else "inf"
  | F64.fin q => String.ofList (numeral p q).text

/-- The shortest decimal expansion of a number, in full and without an
exponent; seventeen digits of one that does not end. -/
def plain : F64 → String
  | F64.nan => "NaN"
  | F64.inf negative => if negative then "-inf" else "inf"
  | F64.fin q =>
      match (List.range 1075).find? (fun k => 10 ^ k % q.den = 0) with
      | none => print 17 (F64.fin q)
      | some k =>
          let digits := Nat.toDigits 10 (q.num.natAbs * 10 ^ k / q.den)
          let padded := List.replicate (k + 1 - digits.length) '0' ++ digits
          let split := padded.length - k
          String.ofList
            (Numeral.mk (decide (q < 0)) (padded.take split) (padded.drop split) none).text

/-- A number with `k` digits after the point. -/
def fixed (k : ℕ) : F64 → String
  | F64.nan => "NaN"
  | F64.inf negative => if negative then "-inf" else "inf"
  | F64.fin q =>
      let digits := Nat.toDigits 10 (roundHalfEven (|q| * 10 ^ k))
      let padded := List.replicate (k + 1 - digits.length) '0' ++ digits
      let split := padded.length - k
      String.ofList
        (Numeral.mk (decide (q < 0)) (padded.take split) (padded.drop split) none).text

/-! ## Reading what was printed -/

/-- A numeral of digits, with at least one of them before the point. -/
structure Numeral.WellFormed (n : Numeral) : Prop where
  whole_ne : n.whole ≠ []
  whole_digits : ∀ c ∈ n.whole, c.isDigit = true
  fraction_digits : ∀ c ∈ n.fraction, c.isDigit = true

theorem toDigits_isDigit (n : ℕ) : ∀ c ∈ Nat.toDigits 10 n, c.isDigit = true :=
  fun _ hc => Nat.isDigit_of_mem_toDigits (by decide) (by decide) hc

/-- Digits are taken whole from in front of anything that is not a digit. -/
private theorem takeDrop_digits {digits rest : List Char}
    (hdigits : ∀ c ∈ digits, c.isDigit = true)
    (hrest : rest.takeWhile Char.isDigit = []) :
    (digits ++ rest).takeWhile Char.isDigit = digits ∧
      (digits ++ rest).dropWhile Char.isDigit = rest := by
  rw [List.takeWhile_append_of_pos hdigits, List.dropWhile_append_of_pos hdigits]
  refine ⟨by rw [hrest, List.append_nil], ?_⟩
  have hparts := List.takeWhile_append_dropWhile (p := Char.isDigit) (l := rest)
  rwa [hrest, List.nil_append] at hparts

theorem exponentDigits_spec (e : ℕ) :
    exponentDigits e ≠ [] ∧ (∀ c ∈ exponentDigits e, c.isDigit = true) ∧
      Nat.ofDigitChars 10 (exponentDigits e) 0 = e := by
  unfold exponentDigits
  split
  · refine ⟨by simp, ?_, by simp [Nat.ofDigitChars_cons]⟩
    intro c hc
    rcases List.mem_cons.mp hc with rfl | hc
    · decide
    · exact toDigits_isDigit _ c hc
  · exact ⟨Nat.toDigits_ne_nil, toDigits_isDigit _, Nat.ofDigitChars_ten_toDigits⟩

theorem parseExponent_exponentText (e : ℤ) : parseExponent (exponentText e) = some e := by
  obtain ⟨hne, hdigits, hvalue⟩ := exponentDigits_spec e.natAbs
  have hall : (exponentDigits e.natAbs).all Char.isDigit = true := List.all_eq_true.mpr hdigits
  by_cases he : e < 0
  · have habs : |e| = -e := abs_of_neg he
    simp [exponentText, parseExponent, parseSign, he, hne, hall, hvalue, habs]
  · have habs : |e| = e := abs_of_nonneg (not_lt.mp he)
    simp [exponentText, parseExponent, parseSign, he, hne, hall, hvalue, habs]

/-- An exponent, or nothing, begins with no digit and no point. -/
private theorem exponentPart (e : Option ℤ) :
    let rest := (e.map exponentText).getD []
    rest.takeWhile Char.isDigit = [] ∧ parseFraction rest = ([], rest) ∧
      parseExponent rest = some (e.getD 0) := by
  cases e with
  | none => exact ⟨rfl, rfl, rfl⟩
  | some e =>
      refine ⟨by simp [exponentText], rfl, ?_⟩
      exact parseExponent_exponentText e

/-- A numeral without its sign is read at its magnitude. -/
theorem parseUnsigned_unsigned {n : Numeral} (h : n.WellFormed) :
    parseUnsigned n.unsigned = some (magnitude n.whole n.fraction (n.exponent.getD 0)) := by
  obtain ⟨hdigits, hpoint, hexp⟩ := exponentPart n.exponent
  by_cases hf : n.fraction = []
  · have hwhole := takeDrop_digits h.whole_digits hdigits
    have htext : n.unsigned = n.whole ++ (n.exponent.map exponentText).getD [] := by
      simp [Numeral.unsigned, hf]
    simp only [parseUnsigned, htext, hwhole, hpoint, hexp, h.whole_ne, hf, false_and,
      if_false, Option.map_some]
  · have hfraction := takeDrop_digits h.fraction_digits hdigits
    have htext : n.unsigned =
        n.whole ++ '.' :: (n.fraction ++ (n.exponent.map exponentText).getD []) := by
      simp [Numeral.unsigned, hf]
    have hstop : ('.' :: (n.fraction ++ (n.exponent.map exponentText).getD [])).takeWhile
        Char.isDigit = [] := rfl
    have hwhole := takeDrop_digits h.whole_digits hstop
    simp only [parseUnsigned, htext, hwhole, parseFraction, hfraction, hexp, h.whole_ne,
      false_and, if_false, Option.map_some]

/-- A text that begins with a digit has no sign. -/
private theorem parseSign_digit {c : Char} (hc : c.isDigit = true) (text : List Char) :
    parseSign (c :: text) = (false, c :: text) := by
  have hminus : c ≠ '-' := fun h => by simp [h] at hc
  have hplus : c ≠ '+' := fun h => by simp [h] at hc
  unfold parseSign
  split
  · next h => exact absurd (List.cons.inj h).1 hminus
  · next h => exact absurd (List.cons.inj h).1 hplus
  · rfl

/-- **Numerals are read back** at the value they denote. -/
theorem parse_text {n : Numeral} (h : n.WellFormed) :
    parse (String.ofList n.text) = some (F64.fin n.value) := by
  have hunsigned := parseUnsigned_unsigned h
  have hsign : parseSign n.text = (n.negative, n.unsigned) := by
    cases hneg : n.negative with
    | true => simp [Numeral.text, hneg, parseSign]
    | false =>
        obtain ⟨c, whole, hwhole⟩ := List.exists_cons_of_ne_nil h.whole_ne
        have hc : c.isDigit = true := h.whole_digits c (by simp [hwhole])
        have htext : n.text = c :: (whole ++ ((if n.fraction = [] then []
            else '.' :: n.fraction) ++ (n.exponent.map exponentText).getD [])) := by
          simp [Numeral.text, Numeral.unsigned, hneg, hwhole]
        rw [htext, parseSign_digit hc, ← htext]
        simp [Numeral.text, hneg]
  simp only [parse, String.toList_ofList, hsign, hunsigned, Numeral.value]

theorem stripZeros_digits {digits : List Char} (h : ∀ c ∈ digits, c.isDigit = true) :
    ∀ c ∈ stripZeros digits, c.isDigit = true :=
  fun c hc => h c ((List.rdropWhile_prefix _ _).subset hc)

/-- What is chosen for printing is made of digits. -/
theorem numeral_wellFormed (p : ℕ) (q : ℚ) : (numeral p q).WellFormed := by
  have htake : ∀ m k : ℕ, 0 < k → (Nat.toDigits 10 m).take k ≠ [] := by
    intro m k hk h
    rcases List.take_eq_nil_iff.mp h with h | h
    · omega
    · exact Nat.toDigits_ne_nil h
  have hdigits : ∀ m k : ℕ, ∀ c ∈ (Nat.toDigits 10 m).take k, c.isDigit = true :=
    fun m k c hc => toDigits_isDigit m c (List.mem_of_mem_take hc)
  have hrest : ∀ m k : ℕ, ∀ c ∈ stripZeros ((Nat.toDigits 10 m).drop k), c.isDigit = true :=
    fun m k => stripZeros_digits fun c hc => toDigits_isDigit m c (List.mem_of_mem_drop hc)
  unfold numeral
  split
  next m e _ =>
    dsimp only
    split
    · exact ⟨htake m 1 (by decide), hdigits m 1, hrest m 1⟩
    · split
      · refine ⟨by simp, by simp, stripZeros_digits ?_⟩
        intro c hc
        rcases List.mem_append.mp hc with hc | hc
        · rw [(List.mem_replicate.mp hc).2]
          decide
        · exact toDigits_isDigit m c hc
      · exact ⟨htake m _ (by omega), hdigits m _, hrest m _⟩

/-- **Whatever is printed is readable.** -/
theorem parse_print_isSome (p : ℕ) (x : F64) : (parse (print p x)).isSome = true := by
  cases x with
  | nan =>
      show (parse "nan").isSome = true
      decide
  | inf negative =>
      cases negative with
      | false =>
          show (parse "inf").isSome = true
          decide
      | true =>
          show (parse "-inf").isSome = true
          decide
  | fin q =>
      rw [print, parse_text (numeral_wellFormed p q)]
      rfl

end DecimalText
