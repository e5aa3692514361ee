import Mathlib.Algebra.Order.Field.Power
import Mathlib.Algebra.Order.Round
import Mathlib.Data.Int.Log
import Mathlib.Data.Rat.Floor
import Ipm.Lib.Doubles
import Ipm.Lib.Stdio

/-!
# Numbers in scientific notation

`fmtExp` is what `%.<p>e` prints of a rational number, with one digit before the point and
`p` behind it, and `near` is the number that stands there.

* `abs_near_sub_le`, `abs_sum_near_sub_le`: it differs from the number by half a unit of its last
  digit, and so does a sum.
* `scanDecimal_fmtExp`: what is printed is read back.
-/

namespace Scientific

open Stdio Scan
open Double (roundEven)

/-! ## The nearest number -/

/-- Digits without the point, and the exponent. -/
structure Sci where
  mant : Nat
  exp : Int
deriving DecidableEq

/-- A number that is not negative, with `p` digits behind the point. -/
def sci (p : Nat) (x : Rat) : Sci :=
  if x = 0 then ⟨0, 0⟩
  else
    let e := Int.log 10 x
    let m := (roundEven (x / 10 ^ (e - p))).toNat
    -- all digits are nines, and are rounded up
    if m = 10 ^ (p + 1) then ⟨10 ^ p, e + 1⟩ else ⟨m, e⟩

def Sci.val (p : Nat) (s : Sci) : Rat := s.mant * 10 ^ (s.exp - p)

/-- The number `%.<p>e` prints. -/
def near (p : Nat) (x : Rat) : Rat := (if x < 0 then -1 else 1) * (sci p |x|).val p

/-- A sign and two digits at least. -/
def fmtExponent (e : Int) : Text :=
  (if e < 0 then '-' else '+') :: (Nat.toDigits 10 e.natAbs).leftpad 2 '0'

/-- `%.<p>e`, where `p` is not zero. -/
def fmtExp (p : Nat) (x : Rat) : Text :=
  (if x < 0 then ['-'] else []) ++
    (fmtFixed p (sci p |x|).mant ++ 'e' :: fmtExponent (sci p |x|).exp)

theorem abs_roundEven_sub_le (x : Rat) : |(roundEven x : Rat) - x| ≤ 1 / 2 := by
  have below := Int.floor_le x
  have above := Int.lt_floor_add_one x
  unfold roundEven
  split_ifs <;> push_cast <;> rw [abs_le] <;> refine ⟨?_, ?_⟩ <;> linarith

/-- An integer below a number is below its nearest integer. -/
theorem le_roundEven {n : Int} {x : Rat} (le : (n : Rat) ≤ x) : n ≤ roundEven x := by
  have floor : n ≤ ⌊x⌋ := Int.le_floor.mpr le
  unfold roundEven
  split_ifs <;> omega

theorem roundEven_le {n : Int} {x : Rat} (lt : x < n) : roundEven x ≤ n := by
  have floor : ⌊x⌋ < n := Int.floor_lt.mpr lt
  unfold roundEven
  split_ifs <;> omega

section Sci

variable {p : Nat} {x : Rat}

theorem ten_zpow_pos (e : Int) : (0 : Rat) < 10 ^ e := zpow_pos (by norm_num) e

/-- The number without its exponent. -/
theorem scaled_mem (positive : 0 < x) :
    (10 : Rat) ^ p ≤ x / 10 ^ (Int.log 10 x - p) ∧ x / 10 ^ (Int.log 10 x - p) < 10 ^ (p + 1) := by
  have ten : (10 : Rat) ≠ 0 := by norm_num
  have low : (10 : Rat) ^ Int.log 10 x ≤ x := by
    exact_mod_cast Int.zpow_log_le_self (b := 10) (by norm_num) positive
  have high : x < (10 : Rat) ^ (Int.log 10 x + 1) := by
    exact_mod_cast Int.lt_zpow_succ_log_self (b := 10) (by norm_num) x
  have scale := ten_zpow_pos (Int.log 10 x - p)
  constructor
  · rw [le_div_iff₀ scale, ← zpow_natCast, ← zpow_add₀ ten]
    rwa [add_sub_cancel]
  · rw [div_lt_iff₀ scale, ← zpow_natCast, ← zpow_add₀ ten]
    have exponent : ((p + 1 : Nat) : Int) + (Int.log 10 x - p) = Int.log 10 x + 1 := by
      push_cast
      ring
    rwa [exponent]

/-- The digits before all nines are rounded up. -/
theorem roundEven_scaled (positive : 0 < x) :
    (10 : Int) ^ p ≤ roundEven (x / 10 ^ (Int.log 10 x - p)) ∧
      roundEven (x / 10 ^ (Int.log 10 x - p)) ≤ 10 ^ (p + 1) := by
  rcases scaled_mem (p := p) positive with ⟨low, high⟩
  refine ⟨le_roundEven ?_, roundEven_le ?_⟩
  · exact_mod_cast low
  · exact_mod_cast high

/-- The value of a number is its nearest multiple of a unit of its last digit. -/
theorem val_sci (positive : 0 < x) : (sci p x).val p =
    roundEven (x / 10 ^ (Int.log 10 x - p)) * 10 ^ (Int.log 10 x - p) := by
  rcases roundEven_scaled (p := p) positive with ⟨low, _⟩
  have mant : (((roundEven (x / 10 ^ (Int.log 10 x - p))).toNat : Nat) : Rat) =
      roundEven (x / 10 ^ (Int.log 10 x - p)) := by
    exact_mod_cast Int.toNat_of_nonneg (le_trans (by positivity) low)
  unfold sci
  rw [if_neg (ne_of_gt positive), ← mant]
  dsimp only
  split
  · rename_i carried
    rw [carried, Sci.val]
    have ten : (10 : Rat) ≠ 0 := by norm_num
    have shift : (10 : Rat) ^ (Int.log 10 x + 1 - p) = 10 * 10 ^ (Int.log 10 x - p) := by
      rw [add_sub_right_comm, zpow_add_one₀ ten, mul_comm]
    push_cast
    rw [shift, pow_succ]
    ring
  · rfl

theorem sci_zero : sci p 0 = ⟨0, 0⟩ := if_pos rfl

theorem near_zero : near p 0 = 0 := by
  unfold near
  rw [abs_zero, sci_zero, Sci.val, Nat.cast_zero, zero_mul, mul_zero]

/-- What is printed of a number that is not negative is not negative. -/
theorem near_nonneg (nonneg : 0 ≤ x) : 0 ≤ near p x := by
  unfold near Sci.val
  rw [if_neg (not_lt.mpr nonneg), one_mul]
  exact mul_nonneg (Nat.cast_nonneg _) (ten_zpow_pos _).le

theorem abs_val_sci_sub_le (nonneg : 0 ≤ x) : |(sci p x).val p - x| ≤ x / (2 * 10 ^ p) := by
  rcases nonneg.eq_or_lt with rfl | positive
  · rw [sci_zero, Sci.val, Nat.cast_zero, zero_mul, sub_zero, abs_zero, zero_div]
  · have scale := ten_zpow_pos (Int.log 10 x - p)
    have low := (scaled_mem (p := p) positive).1
    rw [le_div_iff₀ scale] at low
    have unit : x = x / 10 ^ (Int.log 10 x - p) * 10 ^ (Int.log 10 x - p) :=
      (div_mul_cancel₀ x scale.ne').symm
    have off := abs_roundEven_sub_le (x / 10 ^ (Int.log 10 x - p))
    calc |(sci p x).val p - x|
        = |(roundEven (x / 10 ^ (Int.log 10 x - p)) - x / 10 ^ (Int.log 10 x - p)) *
            10 ^ (Int.log 10 x - p)| := by
          rw [val_sci positive, sub_mul, ← unit]
      _ = |(roundEven (x / 10 ^ (Int.log 10 x - p)) : Rat) - x / 10 ^ (Int.log 10 x - p)| *
            10 ^ (Int.log 10 x - p) := by
          rw [abs_mul, abs_of_pos scale]
      _ ≤ 1 / 2 * 10 ^ (Int.log 10 x - p) := mul_le_mul_of_nonneg_right off scale.le
      _ ≤ x / (2 * 10 ^ p) := by
          rw [le_div_iff₀ (by positivity)]
          linarith

/-- A printed number is wrong by half a unit of its last digit at most. -/
theorem abs_near_sub_le (p : Nat) (x : Rat) : |near p x - x| ≤ |x| / (2 * 10 ^ p) := by
  have magnitude := abs_val_sci_sub_le (p := p) (abs_nonneg x)
  unfold near
  split
  · rename_i negative
    rw [abs_of_neg negative] at magnitude ⊢
    rw [← abs_neg]
    convert magnitude using 2
    ring
  · rename_i nonneg
    rw [abs_of_nonneg (not_lt.mp nonneg)] at magnitude ⊢
    rwa [one_mul]

/-- So is a sum of printed numbers that are not negative. -/
theorem abs_sum_near_sub_le (p : Nat) {xs : List Rat} (nonneg : ∀ x ∈ xs, 0 ≤ x) :
    |(xs.map (near p)).sum - xs.sum| ≤ xs.sum / (2 * 10 ^ p) := by
  induction xs with
  | nil => simp
  | cons x xs ih =>
      rw [List.forall_mem_cons] at nonneg
      have first := abs_near_sub_le p x
      have others := ih nonneg.2
      rw [abs_of_nonneg nonneg.1] at first
      rw [List.map_cons, List.sum_cons, List.sum_cons, add_div]
      calc |near p x + (xs.map (near p)).sum - (x + xs.sum)|
          = |(near p x - x) + ((xs.map (near p)).sum - xs.sum)| := by
            congr 1
            ring
        _ ≤ |near p x - x| + |(xs.map (near p)).sum - xs.sum| := abs_add_le _ _
        _ ≤ x / (2 * 10 ^ p) + xs.sum / (2 * 10 ^ p) := add_le_add first others

end Sci

/-! ## Digits -/

/-- The digits behind the point. -/
theorem length_fraction {p : Nat} (some_ : 0 < p) (m : Nat) :
    ((Nat.toDigits 10 (m % 10 ^ p)).leftpad p '0').length = p := by
  have short : (Nat.toDigits 10 (m % 10 ^ p)).length ≤ p :=
    (Nat.length_toDigits_le_iff (by norm_num) some_).mpr (Nat.mod_lt m (by positivity))
  rw [List.length_leftpad]
  omega

/-- The characters that are printed. -/
theorem mem_fmtExp {p : Nat} {x : Rat} {c : Char} (mem : c ∈ fmtExp p x) :
    c.isDigit = true ∨ c ∈ ['-', '.', 'e', '+'] := by
  have digit : ∀ (k : Nat) {n : Nat}, c ∈ (Nat.toDigits 10 n).leftpad k '0' →
      c.isDigit = true := fun k _ here =>
    (isDigits_leftpad k (isDigits_toDigits _)).2 c here
  unfold fmtExp fmtFixed fmtExponent at mem
  simp only [List.mem_append, List.mem_cons] at mem
  rcases mem with sign | (whole | point | fraction) | exponent | sign | digits
  · split at sign
    · rw [List.mem_singleton.mp sign]
      exact Or.inr (by decide)
    · cases sign
  · exact Or.inl (isDigit_of_mem_toDigits whole)
  · rw [point]
    exact Or.inr (by decide)
  · exact Or.inl (digit _ fraction)
  · rw [exponent]
    exact Or.inr (by decide)
  · split at sign
    · rw [sign]
      exact Or.inr (by decide)
    · rw [sign]
      exact Or.inr (by decide)
  · exact Or.inl (digit 2 digits)

/-! ## What is read back -/

section Reads

variable {rest : Text}

/-- An exponent is read back. -/
theorem scanExponent_fmtExponent (e : Int) (stops : Stops Char.isDigit rest) :
    scanExponent 'e' ('e' :: (fmtExponent e ++ rest)) = some (e, rest) := by
  have digits := isDigits_leftpad 2 (isDigits_toDigits e.natAbs)
  have number := scanNat_append digits stops
  rw [digitsVal_leftpad, digitsVal_toDigits] at number
  have signed : scanSign (fmtExponent e ++ rest) =
      (if e < 0 then -1 else 1, (Nat.toDigits 10 e.natAbs).leftpad 2 '0' ++ rest) := by
    unfold fmtExponent
    split <;> rfl
  have value : (if e < 0 then (-1 : Int) else 1) * e.natAbs = e := by
    split <;> omega
  have letter : ('e'.toLower == 'e') = true := rfl
  simp only [scanExponent, letter, if_true, signed, number, Option.map_some, value]

/-- A fixed-point number with an exponent is read back, with the sign before it. -/
theorem scanDecimal_fixed {p : Nat} (some_ : 0 < p) (m : Nat) (e : Int)
    (stops : Stops Char.isDigit rest) (negative : Bool) :
    scanDecimal ((if negative then ['-'] else []) ++
        (fmtFixed p m ++ 'e' :: (fmtExponent e ++ rest))) =
      some ((if negative then -1 else 1) * ((m : Rat) * 10 ^ (e - p)), rest) := by
  have whole := isDigits_toDigits (m / 10 ^ p)
  have frac := isDigits_leftpad p (isDigits_toDigits (m % 10 ^ p))
  have signed : scanSign (skipSpace ((if negative then ['-'] else []) ++
      (fmtFixed p m ++ 'e' :: (fmtExponent e ++ rest)))) =
        (if negative then -1 else 1, fmtFixed p m ++ 'e' :: (fmtExponent e ++ rest)) := by
    cases negative with
    | true => rfl
    | false =>
        unfold fmtFixed
        simp only [Bool.false_eq_true, if_false, List.nil_append, List.append_assoc]
        rw [whole.skipSpace_append, whole.scanSign_append]
  have value : digitsVal (Nat.toDigits 10 (m / 10 ^ p) ++
      (Nat.toDigits 10 (m % 10 ^ p)).leftpad p '0') = m := by
    rw [digitsVal_append, digitsVal_leftpad, digitsVal_toDigits, digitsVal_toDigits,
      length_fraction some_, Nat.div_add_mod']
  have behind : Stops Char.isDigit ('e' :: (fmtExponent e ++ rest)) := stops_cons.mpr rfl
  have scaled : (m : Rat) / 10 ^ p * 10 ^ e = m * 10 ^ (e - p) := by
    rw [zpow_sub₀ (by norm_num), zpow_natCast]
    ring
  have mantissa := scanMantissa_append rfl whole.2 frac.2 frac.1 behind
  unfold scanDecimal
  rw [signed]
  unfold fmtFixed
  simp only [List.append_assoc, List.cons_append, mantissa, scanExponent_fmtExponent e stops,
    Option.map_some, Option.getD_some, decimalVal, value, length_fraction some_, scaled]
  cases negative <;> norm_num

/-- `%.<p>e` is read back as the nearest number it has printed. -/
theorem scanDecimal_fmtExp {p : Nat} (some_ : 0 < p) (x : Rat) (stops : Stops Char.isDigit rest) :
    scanDecimal (fmtExp p x ++ rest) = some (near p x, rest) := by
  have read := scanDecimal_fixed some_ (sci p |x|).mant (sci p |x|).exp stops (decide (x < 0))
  simp only [decide_eq_true_eq] at read
  unfold fmtExp near Sci.val
  rwa [List.append_assoc, List.append_assoc, List.cons_append]

/-- `%d` is read back. -/
theorem integer_fmtInt (z : Int) : integer (fmtInt z) = z := by
  have read := scanInteger_fmtInt z (r := []) nofun
  rw [List.append_nil] at read
  rw [integer, read]
  rfl

end Reads

end Scientific
