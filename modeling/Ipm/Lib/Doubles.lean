import Mathlib.Algebra.Order.Field.Rat
import Mathlib.Data.Int.Log
import Mathlib.Data.Rat.Floor
import Ipm.Lib.Scan

/-!
# Double precision

Numbers of 53 binary digits with the rounding to nearest, what `%lf` reads into one, and the
conversions to unsigned integers.  The sign of zero is left out.

* `Double.ofRat_natCast`: an integer of 53 bits is not rounded.
* `scanDouble`: the input item of `%lf` with its value.
-/

/-- A value of type `double`. -/
inductive Double
  | finite (x : Rat)
  | inf (negative : Bool)
  | nan
deriving DecidableEq

namespace Double

/-! ## Rounding -/

/-- The nearest integer, the even one of two. -/
def roundEven (x : Rat) : Int :=
  if x - ⌊x⌋ < 1 / 2 then ⌊x⌋
  else if 1 / 2 < x - ⌊x⌋ then ⌊x⌋ + 1
  else if ⌊x⌋ % 2 = 0 then ⌊x⌋ else ⌊x⌋ + 1

/-- The last place of a number; the least of all is 2 ^ -1074. -/
def ulp (x : Rat) : Rat := 2 ^ max (Int.log 2 |x| - 52) (-1074)

/-- The nearest double. -/
def ofRat (x : Rat) : Double :=
  let y := roundEven (x / ulp x) * ulp x
  if 2 ^ 1024 ≤ |y| then .inf (decide (y < 0)) else .finite y

theorem roundEven_intCast (n : Int) : roundEven n = n := by
  rw [roundEven, Int.floor_intCast, sub_self, if_pos (by norm_num)]

/-- A multiple of its last place is not rounded. -/
theorem ofRat_of_multiple {x : Rat} (n : Int) (multiple : x = n * ulp x)
    (small : |x| < 2 ^ 1024) : ofRat x = .finite x := by
  have positive : ulp x ≠ 0 := zpow_ne_zero _ (by norm_num)
  have rounded : (roundEven (x / ulp x) : Rat) * ulp x = x := by
    have quotient : x / ulp x = n := by
      rw [div_eq_iff positive]
      exact multiple
    rw [quotient, roundEven_intCast, ← multiple]
  unfold ofRat
  simp only [rounded]
  rw [if_neg (not_le.mpr small)]

/-- An integer of 53 bits is not rounded. -/
theorem ofRat_natCast {n : Nat} (small : n < 2 ^ 53) : ofRat n = .finite n := by
  have log : Nat.log 2 n ≤ 52 := by
    have below : Nat.log 2 n < 53 := by
      rcases Nat.eq_zero_or_pos n with rfl | pos
      · norm_num
      · exact Nat.log_lt_of_lt_pow pos.ne' small
    omega
  have size : ulp n = 2 ^ (-((52 - Nat.log 2 n : Nat) : Int)) := by
    rw [ulp, abs_of_nonneg (Nat.cast_nonneg n), Int.log_natCast]
    congr 1
    omega
  refine ofRat_of_multiple (n * 2 ^ (52 - Nat.log 2 n)) ?_ ?_
  · rw [size, zpow_neg, zpow_natCast]
    push_cast
    field_simp
  · rw [abs_of_nonneg (Nat.cast_nonneg n)]
    have wide : (n : Rat) < 2 ^ 53 := by exact_mod_cast small
    exact wide.trans (pow_lt_pow_right₀ (by norm_num) (by norm_num))

/-! ## Arithmetic and comparison -/

/-- The product with a positive number. -/
def scale (k : Rat) : Double → Double
  | .finite x => ofRat (k * x)
  | .inf negative => .inf negative
  | .nan => .nan

/-- `0.0 <= x`. -/
def nonneg : Double → Bool
  | .finite x => decide (0 ≤ x)
  | .inf negative => !negative
  | .nan => false

/-! ## Conversion to integers -/

/-- Towards zero. -/
def truncate (x : Rat) : Int := if 0 ≤ x then ⌊x⌋ else ⌈x⌉

/-- To a signed integer of 64 bits; what does not fit becomes the least one, as on x86-64. -/
def toInt64 : Double → Int
  | .finite x => if -2 ^ 63 ≤ truncate x ∧ truncate x < 2 ^ 63 then truncate x else -2 ^ 63
  | _ => -2 ^ 63

/-- To an unsigned integer of 64 bits: from 2 ^ 63 on, the number less 2 ^ 63 is converted. -/
def toUInt64 : Double → Nat
  | .finite x =>
      if 2 ^ 63 ≤ x then ((toInt64 (.finite (x - 2 ^ 63)) + 2 ^ 63) % 2 ^ 64).toNat
      else (toInt64 (.finite x) % 2 ^ 64).toNat
  | .inf false => 0
  | _ => 2 ^ 63

/-- To an unsigned integer of 32 bits, by way of 64. -/
def toUInt32 (x : Double) : Nat := (toInt64 x % 2 ^ 32).toNat

theorem toUInt64_natCast {n : Nat} (small : n < 2 ^ 63) : toUInt64 (.finite n) = n := by
  have below : ¬(2 ^ 63 : Rat) ≤ n := by
    rw [not_le]
    exact_mod_cast small
  have whole : truncate n = n := by
    rw [truncate, if_pos (Nat.cast_nonneg n), Int.floor_natCast]
  simp only [toUInt64, if_neg below, toInt64, whole]
  rw [if_pos (by omega)]
  omega

end Double

/-! ## Reading -/

namespace Scan

/-- The value of hexadecimal digits. -/
def hexVal (s : List Char) : Nat :=
  s.foldl (fun n c => 16 * n +
    if c.isDigit then c.toNat - '0'.toNat else c.toLower.toNat - 'a'.toNat + 10) 0

/-- The double nearest to what is written. -/
def Numeral.value : Numeral → Double
  | .decimal sign whole frac e => .ofRat (sign * decimalVal whole frac e)
  | .hex sign whole frac e =>
      .ofRat (sign * (hexVal (whole ++ frac) / 16 ^ frac.length * 2 ^ e))
  | .inf sign => .inf (decide (sign < 0))
  | .nan => .nan

/-- `%lf`. -/
def scanDouble (s : List Char) : Option (Double × List Char) :=
  (scanNumeral s).map fun (x, rest) => (x.value, rest)

end Scan
