import Limitr.DecimalText

/-!
# Which numbers survive being printed

Printing with `p` significant digits keeps the leading digits of a number and
drops the rest.  What is read back is therefore `m * 10 ^ (e - (p - 1))`, where
`m` has exactly `p` digits (`numeral_value`).

A whole number of at most `p` digits is read back as itself
(`parse_print_whole`).  A larger one may be rounded, but a number at or above
one never ends up below it, and the sign is kept (`parse_print_sign`).  Any number
is read back within half a unit of its last digit (`parse_print_near`).
-/

namespace DecimalText

/-! ## Rounding -/

/-- Rounding stays between two whole numbers the number is between. -/
theorem roundHalfEven_bounds {q : ℚ} {low high : ℕ} (hlow : (low : ℚ) ≤ q)
    (hhigh : q < high) : low ≤ roundHalfEven q ∧ roundHalfEven q ≤ high := by
  have hq : 0 ≤ q := le_trans (Nat.cast_nonneg low) hlow
  have hfloor : low ≤ ⌊q⌋₊ := Nat.le_floor hlow
  have hbelow : ⌊q⌋₊ < high := (Nat.floor_lt hq).mpr hhigh
  unfold roundHalfEven
  dsimp only
  split_ifs <;> omega

/-- A whole number is not rounded. -/
theorem roundHalfEven_natCast (n : ℕ) : roundHalfEven (n : ℚ) = n := by
  have hrest : (n : ℚ) - (⌊(n : ℚ)⌋₊ : ℕ) < 1 / 2 := by
    rw [Nat.floor_natCast, sub_self]
    norm_num
  unfold roundHalfEven
  dsimp only
  rw [if_pos hrest, Nat.floor_natCast]

variable {p : ℕ} {q : ℚ}

/-- The scaled number has `p` digits before the point. -/
theorem shifted_bounds (hp : 0 < p) (hq : 0 < q) :
    ((10 ^ (p - 1) : ℕ) : ℚ) ≤ q / 10 ^ (Int.log 10 q - (p - 1 : ℕ)) ∧
      q / 10 ^ (Int.log 10 q - (p - 1 : ℕ)) < ((10 ^ p : ℕ) : ℚ) := by
  have hten : (10 : ℚ) ≠ 0 := by norm_num
  have hlow := Int.zpow_log_le_self (b := 10) (by decide) hq
  have hhigh := Int.lt_zpow_succ_log_self (b := 10) (by decide) q
  have hpos : (0 : ℚ) < 10 ^ (Int.log 10 q - (p - 1 : ℕ)) := zpow_pos (by norm_num) _
  push_cast at hlow hhigh
  constructor
  · rw [le_div_iff₀ hpos]
    push_cast
    rw [← zpow_natCast, ← zpow_add₀ hten]
    have hexp : ((p - 1 : ℕ) : ℤ) + (Int.log 10 q - (p - 1 : ℕ)) = Int.log 10 q := by ring
    rw [hexp]
    exact hlow
  · rw [div_lt_iff₀ hpos]
    push_cast
    rw [← zpow_natCast, ← zpow_add₀ hten]
    have hexp : (p : ℤ) + (Int.log 10 q - (p - 1 : ℕ)) = Int.log 10 q + 1 := by omega
    rw [hexp]
    exact hhigh

/-- The digits kept are `p` digits. -/
theorem significant_bounds (hp : 0 < p) (hq : 0 < q) :
    10 ^ (p - 1) ≤ (significant p q).1 ∧ (significant p q).1 < 10 ^ p := by
  obtain ⟨hlow, hhigh⟩ := shifted_bounds hp hq
  obtain ⟨hge, hle⟩ := roundHalfEven_bounds hlow hhigh
  have hpow : 10 ^ (p - 1) < 10 ^ p := Nat.pow_lt_pow_right (by decide) (by omega)
  unfold significant
  dsimp only
  split_ifs with hcarry
  · exact ⟨le_rfl, hpow⟩
  · exact ⟨hge, by omega⟩

/-- The first digit kept is the first digit of the number, or one place higher. -/
theorem log_le_significant (p : ℕ) (q : ℚ) : Int.log 10 q ≤ (significant p q).2 := by
  unfold significant
  dsimp only
  split_ifs
  · omega
  · exact le_rfl

/-- A whole number of at most `p` digits keeps all of them. -/
theorem significant_natCast {n : ℕ} (hn : 0 < n) (hlt : n < 10 ^ p) :
    (significant p (n : ℚ)).2 < p ∧
      ((significant p (n : ℚ)).1 : ℚ) * 10 ^ ((significant p (n : ℚ)).2 - (p - 1 : ℕ)) = n := by
  have hten : (10 : ℚ) ≠ 0 := by norm_num
  have hp : 0 < p := by
    by_contra hzero
    have hp : p = 0 := by omega
    rw [hp, pow_zero] at hlt
    omega
  have hlog : Int.log 10 (n : ℚ) = (Nat.log 10 n : ℕ) := Int.log_natCast 10 n
  have hplaces : Nat.log 10 n < p := Nat.log_lt_of_lt_pow (by omega) hlt
  have hscaled : (n : ℚ) / 10 ^ (Int.log 10 (n : ℚ) - (p - 1 : ℕ)) =
      ((n * 10 ^ (p - 1 - Nat.log 10 n) : ℕ) : ℚ) := by
    have hexp : Int.log 10 (n : ℚ) - (p - 1 : ℕ) = -((p - 1 - Nat.log 10 n : ℕ) : ℤ) := by
      omega
    rw [hexp, zpow_neg, zpow_natCast, div_inv_eq_mul]
    push_cast
    ring
  have hne : n * 10 ^ (p - 1 - Nat.log 10 n) ≠ 10 ^ p := by
    obtain ⟨_, hhigh⟩ := shifted_bounds hp (q := n) (by exact_mod_cast hn)
    rw [hscaled] at hhigh
    have hsmall : n * 10 ^ (p - 1 - Nat.log 10 n) < 10 ^ p := by exact_mod_cast hhigh
    omega
  have hkept : significant p (n : ℚ) = (n * 10 ^ (p - 1 - Nat.log 10 n), Int.log 10 (n : ℚ)) := by
    unfold significant
    dsimp only
    rw [hscaled, roundHalfEven_natCast, if_neg hne]
  rw [hkept]
  constructor
  · dsimp only
    omega
  · dsimp only
    rw [← hscaled, div_mul_cancel₀ _ (zpow_ne_zero _ hten)]

/-! ## The value of the numeral -/

/-- Digits are the stripped digits and the zeros they end in. -/
theorem exists_stripZeros (digits : List Char) :
    ∃ zeros, digits = stripZeros digits ++ List.replicate zeros '0' := by
  induction digits using List.reverseRecOn with
  | nil => exact ⟨0, rfl⟩
  | append_singleton digits c ih =>
      by_cases hc : c = '0'
      · obtain ⟨zeros, hzeros⟩ := ih
        refine ⟨zeros + 1, ?_⟩
        have hstrip : stripZeros (digits ++ [c]) = stripZeros digits := by
          simp [stripZeros, hc]
        rw [hstrip, List.replicate_succ', ← List.append_assoc, ← hzeros, hc]
      · refine ⟨0, ?_⟩
        simp [stripZeros, hc]

/-- Zeros after the last digit of a fraction count for nothing. -/
theorem magnitude_stripZeros (whole fraction : List Char) (e : ℤ) :
    magnitude whole (stripZeros fraction) e = magnitude whole fraction e := by
  obtain ⟨zeros, hzeros⟩ := exists_stripZeros fraction
  have hten : (10 : ℚ) ≠ 0 := by norm_num
  have hlength : (fraction.length : ℤ) = (stripZeros fraction).length + zeros := by
    have h := congrArg List.length hzeros
    rw [List.length_append, List.length_replicate] at h
    exact_mod_cast h
  have hvalue : Nat.ofDigitChars 10 (whole ++ fraction) 0 =
      10 ^ zeros * Nat.ofDigitChars 10 (whole ++ stripZeros fraction) 0 := by
    conv_lhs => rw [hzeros]
    rw [← List.append_assoc, Nat.ofDigitChars_append, Nat.ofDigitChars_replicate_zero]
  have hsplit : (10 : ℚ) ^ (e - (stripZeros fraction).length) =
      10 ^ (zeros : ℤ) * 10 ^ (e - fraction.length) := by
    rw [← zpow_add₀ hten, hlength]
    congr 1
    ring
  unfold magnitude
  rw [hvalue, hsplit, zpow_natCast]
  push_cast
  ring

/-- A number of `p` digits is written with `p` digits. -/
theorem length_toDigits {m : ℕ} (hp : 0 < p) (hlow : 10 ^ (p - 1) ≤ m) (hhigh : m < 10 ^ p) :
    (Nat.toDigits 10 m).length = p := by
  have hle : (Nat.toDigits 10 m).length ≤ p :=
    (Nat.length_toDigits_le_iff (by decide) hp).mpr hhigh
  rcases Nat.lt_or_ge 1 p with hmany | hone
  · have hnot : ¬(Nat.toDigits 10 m).length ≤ p - 1 := by
      rw [Nat.length_toDigits_le_iff (by decide) (by omega)]
      omega
    omega
  · have hpos : 0 < (Nat.toDigits 10 m).length := Nat.length_toDigits_pos
    omega

theorem ofDigitChars_nought : Nat.ofDigitChars 10 ['0'] 0 = 0 := rfl

/-- **What a numeral with `p` significant digits is worth.** -/
theorem numeral_value (hp : 0 < p) (hq : q ≠ 0) :
    (numeral p q).negative = decide (q < 0) ∧
      magnitude (numeral p q).whole (numeral p q).fraction ((numeral p q).exponent.getD 0) =
        (significant p |q|).1 * 10 ^ ((significant p |q|).2 - (p - 1 : ℕ)) := by
  obtain ⟨hlow, hhigh⟩ := significant_bounds hp (abs_pos.mpr hq)
  have hlength := length_toDigits hp hlow hhigh
  unfold numeral
  rw [if_neg hq]
  generalize significant p |q| = kept at hlength ⊢
  obtain ⟨m, e⟩ := kept
  dsimp only at hlength ⊢
  have hvalue : Nat.ofDigitChars 10 (Nat.toDigits 10 m) 0 = m := Nat.ofDigitChars_ten_toDigits
  by_cases hexp : e < -4 ∨ (p : ℤ) ≤ e
  · rw [if_pos hexp]
    refine ⟨rfl, ?_⟩
    rw [magnitude_stripZeros, magnitude, List.take_append_drop, hvalue, List.length_drop, hlength]
    rfl
  · rw [if_neg hexp]
    rw [not_or, not_lt, not_le] at hexp
    by_cases hneg : e < 0
    · rw [if_pos hneg]
      refine ⟨rfl, ?_⟩
      have hzeros : Nat.ofDigitChars 10 (['0'] ++
          (List.replicate (-e - 1).toNat '0' ++ Nat.toDigits 10 m)) 0 = m := by
        rw [← List.append_assoc, Nat.ofDigitChars_append, Nat.ofDigitChars_append,
          Nat.ofDigitChars_replicate_zero, ofDigitChars_nought, Nat.mul_zero]
        exact hvalue
      have hplaces : (0 : ℤ) - ((List.replicate (-e - 1).toNat '0' ++
          Nat.toDigits 10 m).length : ℕ) = e - (p - 1 : ℕ) := by
        rw [List.length_append, List.length_replicate, hlength]
        omega
      rw [magnitude_stripZeros, magnitude, hzeros, Option.getD_none, hplaces]
    · rw [if_neg hneg]
      refine ⟨rfl, ?_⟩
      have hplaces : (0 : ℤ) - (((Nat.toDigits 10 m).drop (e + 1).toNat).length : ℕ) =
          e - (p - 1 : ℕ) := by
        rw [List.length_drop, hlength]
        omega
      rw [magnitude_stripZeros, magnitude, List.take_append_drop, hvalue, Option.getD_none,
        hplaces]

/-- What is read back of a printed number other than zero. -/
theorem parse_print_eq (hp : 0 < p) (hq : q ≠ 0) :
    parse (print p (.fin q)) = some (.fin (if q < 0
      then -((significant p |q|).1 * 10 ^ ((significant p |q|).2 - (p - 1 : ℕ)))
      else (significant p |q|).1 * 10 ^ ((significant p |q|).2 - (p - 1 : ℕ)))) := by
  obtain ⟨hsign, hmagnitude⟩ := numeral_value hp hq
  rw [print, parse_text (numeral_wellFormed p q), Numeral.value, hsign, hmagnitude]
  by_cases hneg : q < 0
  · simp [hneg]
  · simp [hneg]

theorem parse_print_zero (p : ℕ) : parse (print p (.fin 0)) = some (.fin 0) := by
  have hvalue : (numeral p 0).value = 0 := by
    unfold numeral
    rw [if_pos rfl]
    dsimp only
    rw [if_neg (lt_irrefl (0 : ℤ))]
    split_ifs <;> simp [Numeral.value, magnitude, stripZeros, ofDigitChars_nought]
  rw [print, parse_text (numeral_wellFormed p 0), hvalue]

/-! ## Whole numbers -/

/-- **Whole numbers of at most `p` digits survive.** -/
theorem parse_print_whole {n : ℤ} (hn : |n| < 10 ^ p) :
    parse (print p (.fin n)) = some (.fin n) := by
  rcases eq_or_ne n 0 with hzero | hzero
  · rw [hzero, Int.cast_zero, parse_print_zero]
  · have habs : |(n : ℚ)| = (n.natAbs : ℕ) := by
      rw [← Int.cast_abs, Int.abs_eq_natAbs, Int.cast_natCast]
    have hpos : 0 < n.natAbs := Int.natAbs_pos.mpr hzero
    have hlt : n.natAbs < 10 ^ p := by
      rw [Int.abs_eq_natAbs] at hn
      exact_mod_cast hn
    have hp : 0 < p := by
      by_contra hnone
      have hnone : p = 0 := by omega
      rw [hnone, pow_zero] at hlt
      omega
    rw [parse_print_eq hp (Int.cast_ne_zero.mpr hzero), habs, (significant_natCast hpos hlt).2,
      ← habs]
    by_cases hneg : (n : ℚ) < 0
    · rw [if_pos hneg, abs_of_neg hneg, neg_neg]
    · rw [if_neg hneg, abs_of_nonneg (not_lt.mp hneg)]

/-- **Printing keeps the sign**, and keeps a number at or above one there. -/
theorem parse_print_sign (hp : 0 < p) (q : ℚ) : ∃ r, parse (print p (.fin q)) = some (.fin r) ∧
    (1 ≤ q → 1 ≤ r) ∧ (q ≤ 0 → r ≤ 0) := by
  rcases eq_or_ne q 0 with hzero | hzero
  · refine ⟨0, by rw [hzero, parse_print_zero], ?_, fun _ => le_rfl⟩
    intro h
    rw [hzero] at h
    norm_num at h
  · refine ⟨_, parse_print_eq hp hzero, ?_, ?_⟩
    · intro hq
      have hpos : 0 < q := by linarith
      have habs : |q| = q := abs_of_pos hpos
      have hten : (10 : ℚ) ≠ 0 := by norm_num
      have hlog : 0 ≤ Int.log 10 q :=
        (Int.zpow_le_iff_le_log (b := 10) (by decide) hpos).mp (by simpa using hq)
      have hexp := le_trans hlog (log_le_significant p q)
      obtain ⟨hlow, _⟩ := significant_bounds hp hpos
      have hdigits : ((10 : ℚ) ^ (p - 1)) ≤ (significant p q).1 := by exact_mod_cast hlow
      rw [if_neg (not_lt.mpr (le_of_lt hpos)), habs]
      calc (1 : ℚ)
          ≤ 10 ^ (significant p q).2 := one_le_zpow₀ (by norm_num) hexp
        _ = 10 ^ (p - 1) * 10 ^ ((significant p q).2 - (p - 1 : ℕ)) := by
            rw [← zpow_natCast, ← zpow_add₀ hten]
            congr 1
            ring
        _ ≤ (significant p q).1 * 10 ^ ((significant p q).2 - (p - 1 : ℕ)) :=
            mul_le_mul_of_nonneg_right hdigits (le_of_lt (zpow_pos (by norm_num) _))
    · intro hq
      have hneg : q < 0 := lt_of_le_of_ne hq hzero
      rw [if_pos hneg, neg_nonpos]
      exact mul_nonneg (Nat.cast_nonneg _) (le_of_lt (zpow_pos (by norm_num) _))

/-! ## How near it is read back -/

/-- Rounding moves a number by a half at most. -/
theorem roundHalfEven_near (hq : 0 ≤ q) : |(roundHalfEven q : ℚ) - q| ≤ 1 / 2 := by
  have hlow := Nat.floor_le hq
  have hhigh := Nat.lt_floor_add_one q
  rw [abs_le]
  unfold roundHalfEven
  dsimp only
  split_ifs with hbelow habove heven
  · constructor <;> linarith
  · push_cast
    constructor <;> linarith
  · constructor <;> linarith
  · push_cast
    constructor <;> linarith

/-- What the digits kept are worth, before they are carried. -/
theorem significant_eq (hp : 0 < p) (q : ℚ) :
    ((significant p q).1 : ℚ) * 10 ^ ((significant p q).2 - (p - 1 : ℕ)) =
      roundHalfEven (q / 10 ^ (Int.log 10 q - (p - 1 : ℕ))) *
        10 ^ (Int.log 10 q - (p - 1 : ℕ)) := by
  have hten : (10 : ℚ) ≠ 0 := by norm_num
  unfold significant
  dsimp only
  split_ifs with hcarry
  · rw [hcarry]
    push_cast
    rw [← zpow_natCast, ← zpow_natCast, ← zpow_add₀ hten, ← zpow_add₀ hten]
    congr 1
    omega
  · rfl

/-- The digits kept are within half a unit of the last one. -/
theorem significant_near (hp : 0 < p) (hq : 0 < q) :
    |(significant p q).1 * (10 : ℚ) ^ ((significant p q).2 - (p - 1 : ℕ)) - q| ≤
      q / (2 * 10 ^ (p - 1)) := by
  have hten : (10 : ℚ) ≠ 0 := by norm_num
  have hunit : (0 : ℚ) < 10 ^ (Int.log 10 q - (p - 1 : ℕ)) := zpow_pos (by norm_num) _
  have hlow := Int.zpow_log_le_self (b := 10) (by decide) hq
  push_cast at hlow
  have hsmall : (10 : ℚ) ^ (Int.log 10 q - (p - 1 : ℕ)) ≤ q / 10 ^ (p - 1) := by
    rw [zpow_sub₀ hten, zpow_natCast]
    exact div_le_div_of_nonneg_right hlow (by positivity)
  have hscaled : q = q / 10 ^ (Int.log 10 q - (p - 1 : ℕ)) *
      10 ^ (Int.log 10 q - (p - 1 : ℕ)) := (div_mul_cancel₀ _ (ne_of_gt hunit)).symm
  have hround := roundHalfEven_near (le_of_lt (div_pos hq hunit))
  calc |(significant p q).1 * (10 : ℚ) ^ ((significant p q).2 - (p - 1 : ℕ)) - q|
      = |((roundHalfEven (q / 10 ^ (Int.log 10 q - (p - 1 : ℕ))) : ℚ) -
          q / 10 ^ (Int.log 10 q - (p - 1 : ℕ))) * 10 ^ (Int.log 10 q - (p - 1 : ℕ))| := by
        rw [significant_eq hp, sub_mul, ← hscaled]
    _ ≤ 1 / 2 * 10 ^ (Int.log 10 q - (p - 1 : ℕ)) := by
        rw [abs_mul, abs_of_pos hunit]
        exact mul_le_mul_of_nonneg_right hround (le_of_lt hunit)
    _ ≤ 1 / 2 * (q / 10 ^ (p - 1)) := mul_le_mul_of_nonneg_left hsmall (by norm_num)
    _ = q / (2 * 10 ^ (p - 1)) := by ring

/-- **A printed number is read back within half a unit of its last digit.** -/
theorem parse_print_near (hp : 0 < p) (q : ℚ) : ∃ r, parse (print p (.fin q)) = some (.fin r) ∧
    |r - q| ≤ |q| / (2 * 10 ^ (p - 1)) := by
  rcases eq_or_ne q 0 with hzero | hzero
  · refine ⟨0, by rw [hzero, parse_print_zero], ?_⟩
    rw [hzero]
    simp
  · have hnear := significant_near hp (abs_pos.mpr hzero)
    refine ⟨_, parse_print_eq hp hzero, ?_⟩
    by_cases hneg : q < 0
    · rw [if_pos hneg]
      refine le_trans (le_of_eq ?_) hnear
      rw [← abs_neg]
      congr 1
      rw [abs_of_neg hneg]
      ring
    · rw [if_neg hneg]
      rw [abs_of_nonneg (not_lt.mp hneg)] at hnear ⊢
      exact hnear

end DecimalText
