import Mathlib.Data.Rat.Floor
import Mathlib.Tactic.Linarith

/-!
# Doubles in exact arithmetic

A double-precision number is a not-a-number, one of two infinities, or a
finite value.  This file keeps the special values and their rules and takes
every finite value to be an exact rational: an operation on finite values is
the rational operation, with no rounding, no overflow and one zero.

On finite values each operation is a `simp` lemma away from `ℚ`, so a program
over `F64` is followed on ordinary inputs by rewriting with this file alone.
-/

/-- A number of the format; `inf true` is the negative infinity. -/
inductive F64 where
  | nan
  | inf (negative : Bool)
  | fin (value : ℚ)
  deriving DecidableEq, Repr

namespace F64

/-- The number an integer literal or an integer cast denotes. -/
def ofInt (n : ℤ) : F64 := fin n

instance (n : ℕ) : OfNat F64 n := ⟨fin n⟩

/-- `a < b`, false as soon as one side is not a number. -/
def lt : F64 → F64 → Bool
  | fin a, fin b => decide (a < b)
  | inf s, inf t => s && !t
  | inf s, fin _ => s
  | fin _, inf t => !t
  | _, _ => false

/-- `a <= b`, false as soon as one side is not a number. -/
def le : F64 → F64 → Bool
  | fin a, fin b => decide (a ≤ b)
  | inf s, inf t => s || !t
  | inf s, fin _ => s
  | fin _, inf t => !t
  | _, _ => false

instance : LT F64 := ⟨fun a b => lt a b = true⟩

instance : LE F64 := ⟨fun a b => le a b = true⟩

instance (a b : F64) : Decidable (a < b) := inferInstanceAs (Decidable (lt a b = true))

instance (a b : F64) : Decidable (a ≤ b) := inferInstanceAs (Decidable (le a b = true))

def neg : F64 → F64
  | nan => nan
  | inf s => inf !s
  | fin a => fin (-a)

def add : F64 → F64 → F64
  | fin a, fin b => fin (a + b)
  | inf s, inf t => if s = t then inf s else nan
  | inf s, fin _ => inf s
  | fin _, inf t => inf t
  | _, _ => nan

def sub (a b : F64) : F64 := add a (neg b)

def mul : F64 → F64 → F64
  | fin a, fin b => fin (a * b)
  | inf s, inf t => inf (s != t)
  | inf s, fin b => if b = 0 then nan else inf (s != decide (b < 0))
  | fin a, inf t => if a = 0 then nan else inf (t != decide (a < 0))
  | _, _ => nan

/-- Division; the single zero counts as positive. -/
def div : F64 → F64 → F64
  | fin a, fin b =>
    if b = 0 then if a = 0 then nan else inf (decide (a < 0)) else fin (a / b)
  | inf s, fin b => inf (s != decide (b < 0))
  | fin _, inf _ => fin 0
  | _, _ => nan

instance : Neg F64 := ⟨neg⟩

instance : Add F64 := ⟨add⟩

instance : Sub F64 := ⟨sub⟩

instance : Mul F64 := ⟨mul⟩

instance : Div F64 := ⟨div⟩

/-- The later of two arguments replaces the earlier one only when it is larger. -/
def max (a b : F64) : F64 := if a < b then b else a

/-- The least integer at or above a finite number. -/
def ceil : F64 → F64
  | fin a => fin ⌈a⌉
  | a => a

/-- Truncation toward zero. -/
def trunc (a : ℚ) : ℤ := if 0 ≤ a then ⌊a⌋ else ⌈a⌉

/-- Conversion to a signed 64-bit integer: toward zero, saturating, zero for
a not-a-number. -/
def toI64 : F64 → Int64
  | nan => 0
  | inf s => if s then Int64.minValue else Int64.maxValue
  | fin a =>
    if trunc a < Int64.minValue.toInt then Int64.minValue
    else if Int64.maxValue.toInt < trunc a then Int64.maxValue
    else Int64.ofInt (trunc a)

/-- The largest finite double. -/
def maxFinite : F64 := fin (2 ^ 1024 - 2 ^ 971)

variable (a b : ℚ)

@[simp] theorem ofNat_eq (n : ℕ) : (OfNat.ofNat n : F64) = fin n := rfl

@[simp] theorem fin_lt_fin : fin a < fin b ↔ a < b := by
  show (decide (a < b) = true) ↔ a < b
  simp

@[simp] theorem fin_le_fin : fin a ≤ fin b ↔ a ≤ b := by
  show (decide (a ≤ b) = true) ↔ a ≤ b
  simp

@[simp] theorem fin_lt_inf : fin a < inf false := rfl

@[simp] theorem fin_add_fin : fin a + fin b = fin (a + b) := rfl

@[simp] theorem fin_mul_fin : fin a * fin b = fin (a * b) := rfl

@[simp] theorem fin_sub_fin : fin a - fin b = fin (a - b) := by
  show fin (a + -b) = fin (a - b)
  rw [sub_eq_add_neg]

@[simp] theorem neg_fin : -fin a = fin (-a) := rfl

theorem fin_div_fin (hb : b ≠ 0) : fin a / fin b = fin (a / b) := by
  show (if b = 0 then _ else fin (a / b)) = fin (a / b)
  rw [if_neg hb]

@[simp] theorem max_fin_fin : max (fin a) (fin b) = fin (Max.max a b) := by
  by_cases h : a < b
  · rw [max, if_pos ((fin_lt_fin a b).mpr h), max_eq_right (le_of_lt h)]
  · rw [max, if_neg (fun hab => h ((fin_lt_fin a b).mp hab)), max_eq_left (not_lt.mp h)]

@[simp] theorem ceil_fin : ceil (fin a) = fin ⌈a⌉ := rfl

/-- The integer a finite number converts to: truncated, and clamped to the range. -/
theorem toInt_toI64 (q : ℚ) : (fin q).toI64.toInt =
    Max.max Int64.minValue.toInt (Min.min Int64.maxValue.toInt (trunc q)) := by
  have hmin : Int64.minValue.toInt = -2 ^ 63 := Int64.toInt_minValue
  have hmax : Int64.maxValue.toInt = 2 ^ 63 - 1 := Int64.toInt_maxValue
  rw [toI64]
  by_cases hlow : trunc q < Int64.minValue.toInt
  · rw [if_pos hlow]
    omega
  · rw [if_neg hlow]
    by_cases hhigh : Int64.maxValue.toInt < trunc q
    · rw [if_pos hhigh]
      omega
    · rw [if_neg hhigh, Int64.toInt_ofInt_of_le (by omega) (by omega)]
      omega

theorem trunc_intCast (n : ℤ) : trunc n = n := by
  unfold trunc
  split_ifs
  · exact Int.floor_intCast n
  · exact Int.ceil_intCast n

/-- An integer in the range converts to itself. -/
theorem toInt_toI64_intCast {n : ℤ} (hlow : -2 ^ 63 ≤ n) (hhigh : n < 2 ^ 63) :
    (fin n).toI64.toInt = n := by
  have hmin : Int64.minValue.toInt = -2 ^ 63 := Int64.toInt_minValue
  have hmax : Int64.maxValue.toInt = 2 ^ 63 - 1 := Int64.toInt_maxValue
  rw [toInt_toI64, trunc_intCast]
  omega

/-- The conversion is positive exactly from one on. -/
theorem toI64_pos_iff (q : ℚ) : 0 < (fin q).toI64.toInt ↔ 1 ≤ q := by
  have hmin : Int64.minValue.toInt = -2 ^ 63 := Int64.toInt_minValue
  have hmax : Int64.maxValue.toInt = 2 ^ 63 - 1 := Int64.toInt_maxValue
  have htrunc : 0 < trunc q ↔ 1 ≤ q := by
    unfold trunc
    split_ifs with hq
    · rw [Int.floor_pos]
    · have hceil : ⌈q⌉ ≤ 0 := Int.ceil_le.mpr (by push_cast; linarith)
      constructor
      · intro h
        omega
      · intro h
        linarith
  rw [toInt_toI64, ← htrunc]
  omega

/-- A number at or above zero converts to zero only from below one. -/
theorem toI64_eq_zero_iff {q : ℚ} (hq : 0 ≤ q) : (fin q).toI64 = 0 ↔ q < 1 := by
  have hmin : Int64.minValue.toInt = -2 ^ 63 := Int64.toInt_minValue
  have hmax : Int64.maxValue.toInt = 2 ^ 63 - 1 := Int64.toInt_maxValue
  have hfloor : 0 ≤ trunc q := by
    rw [trunc, if_pos hq]
    exact Int.floor_nonneg.mpr hq
  have hnonneg : 0 ≤ (fin q).toI64.toInt := by
    rw [toInt_toI64]
    omega
  have hzero : (fin q).toI64 = 0 ↔ (fin q).toI64.toInt = 0 := Int64.toInt_inj.symm
  rw [hzero, ← not_le, ← toI64_pos_iff]
  omega

end F64
