import Mathlib.Data.Nat.Bitwise
import Mathlib.Data.Nat.Size
import Mathlib.Order.Bounds.Basic

/-!
# Masks and powers of two

* `high w k`: the mask of the bits `k`, …, `w - 1`.  Shifting it up by one inside a
  word of `w` bits drops its lowest bit (`high_succ`), and masking with it clears
  exactly the low bits (`and_high`).
* `smear`: or-ing a number with its own right shifts by `1`, `2`, `4`, … sets every
  bit below its highest one (`smear_eq`), which is how the next power of two is
  computed (`isLeast_two_pow_size`).
* `cut a k`: a number without its `k` lowest bits.  Cutting twice cuts once (`cut_cut`).
-/

namespace Bits

/-! ## Masks -/

/-- The bits `k`, …, `w - 1`. -/
def high (w k : Nat) : Nat := (2 ^ w - 1) >>> k <<< k

theorem testBit_high (w k i : Nat) : (high w k).testBit i = decide (k ≤ i ∧ i < w) := by
  rw [high, Nat.testBit_shiftLeft, Nat.testBit_shiftRight, Nat.testBit_two_pow_sub_one,
    Bool.decide_and]
  by_cases le : k ≤ i
  · rw [Nat.add_sub_cancel' le]
  · simp [le]

/-- Shifted by one inside the word, the mask loses its lowest bit. -/
theorem high_succ (w k : Nat) {v : Nat} (fits : w ≤ v) :
    high w k <<< 1 % 2 ^ v &&& (2 ^ w - 1) = high w (k + 1) := by
  refine Nat.eq_of_testBit_eq fun i => ?_
  rw [Nat.testBit_and, Nat.testBit_mod_two_pow, Nat.testBit_shiftLeft, testBit_high,
    testBit_high, Nat.testBit_two_pow_sub_one]
  rcases Nat.eq_zero_or_pos i with rfl | positive
  · simp
  · simp only [← Bool.decide_and, decide_eq_decide, ge_iff_le]
    omega

/-- Masking clears exactly the bits below the mask. -/
theorem and_high {n w : Nat} (small : n < 2 ^ w) (k : Nat) : n &&& high w k = n - n % 2 ^ k := by
  have cleared : n - n % 2 ^ k = n >>> k <<< k := by
    rw [Nat.shiftLeft_eq, Nat.shiftRight_eq_div_pow]
    have := Nat.div_add_mod n (2 ^ k)
    rw [Nat.mul_comm] at this
    omega
  rw [cleared]
  refine Nat.eq_of_testBit_eq fun i => ?_
  rw [Nat.testBit_and, testBit_high, Nat.testBit_shiftLeft, Nat.testBit_shiftRight]
  by_cases le : k ≤ i
  · rw [Nat.add_sub_cancel' le]
    by_cases inWord : i < w
    · simp [le, inWord]
    · have out : n.testBit i = false :=
        Nat.testBit_eq_false_of_lt (small.trans_le (Nat.pow_le_pow_right (by decide) (by omega)))
      simp [out]
  · simp [le]

/-! ## Smearing -/

/-- Or-ing with the right shifts by `1`, `2`, `4`, …, `2 ^ (j - 1)`. -/
def smear : Nat → Nat → Nat
  | 0, n => n
  | j + 1, n => smear j n ||| smear j n >>> 2 ^ j

/-- Smearing leaves a word inside its width. -/
theorem smear_lt {n w : Nat} (small : n < 2 ^ w) : ∀ j, smear j n < 2 ^ w
  | 0 => small
  | j + 1 =>
      Nat.or_lt_two_pow (smear_lt small j) ((Nat.shiftRight_le _ _).trans_lt (smear_lt small j))

/-- Every bit of the number reaches the `2 ^ j - 1` places below it. -/
theorem testBit_smear (j n i : Nat) :
    (smear j n).testBit i = true ↔ ∃ d < 2 ^ j, n.testBit (i + d) = true := by
  induction j generalizing i with
  | zero => simp [smear]
  | succ j ih =>
      rw [smear, Nat.testBit_or, Nat.testBit_shiftRight, Bool.or_eq_true, ih, ih]
      constructor
      · intro given
        rcases given with ⟨d, small, bit⟩ | ⟨d, small, bit⟩
        · exact ⟨d, by omega, bit⟩
        · refine ⟨2 ^ j + d, by omega, ?_⟩
          rwa [show i + (2 ^ j + d) = 2 ^ j + i + d by omega]
      · intro given
        rcases given with ⟨d, small, bit⟩
        rcases Nat.lt_or_ge d (2 ^ j) with near | far
        · exact .inl ⟨d, near, bit⟩
        · refine .inr ⟨d - 2 ^ j, by omega, ?_⟩
          rwa [show 2 ^ j + i + (d - 2 ^ j) = i + d by omega]

/-- Enough shifts set all the bits below the highest one. -/
theorem smear_eq {j n : Nat} (small : n < 2 ^ 2 ^ j) : smear j n = 2 ^ n.size - 1 := by
  refine Nat.eq_of_testBit_eq fun i => Bool.eq_iff_iff.mpr ?_
  rw [testBit_smear, Nat.testBit_two_pow_sub_one, decide_eq_true_iff]
  constructor
  · intro given
    rcases given with ⟨d, -, bit⟩
    have := Nat.lt_size.mpr (Nat.ge_two_pow_of_testBit bit)
    omega
  · intro below
    have le : n.size ≤ 2 ^ j := Nat.size_le.mpr small
    refine ⟨n.size - 1 - i, by omega, ?_⟩
    rw [show i + (n.size - 1 - i) = n.size - 1 by omega]
    -- the highest bit of `n` is set, for `n` is at least that power and below the next one
    have ge : 2 ^ (n.size - 1) ≤ n := Nat.lt_size.mp (by omega)
    have lt : n < 2 ^ (n.size - 1 + 1) := by
      rw [Nat.sub_add_cancel (by omega)]
      exact Nat.lt_size_self n
    rw [Nat.testBit_eq_decide_div_mod_eq, decide_eq_true_iff]
    have : n / 2 ^ (n.size - 1) = 1 :=
      Nat.div_eq_of_lt_le (by omega) (by rw [Nat.pow_succ] at lt; omega)
    omega

/-- The power above all bits of `n - 1` is the least power of two not below `n`. -/
theorem isLeast_two_pow_size {n : Nat} (positive : 0 < n) :
    IsLeast {m | n ≤ m ∧ ∃ k, m = 2 ^ k} (2 ^ (n - 1).size) := by
  refine ⟨⟨?_, _, rfl⟩, ?_⟩
  · have := Nat.lt_size_self (n - 1)
    omega
  · rintro m ⟨le, k, rfl⟩
    refine Nat.pow_le_pow_right (by decide) (Nat.size_le.mpr ?_)
    omega

/-! ## Lost bits -/

/-- A number without its lowest bits. -/
def cut (a : Int) (k : Nat) : Int := a - a % 2 ^ k

theorem int_two_pow_pos (k : Nat) : (0 : Int) < 2 ^ k := Int.pow_pos (by decide)

theorem emod_two_pow_nonneg (a : Int) (k : Nat) : 0 ≤ a % 2 ^ k :=
  Int.emod_nonneg a (int_two_pow_pos k).ne'

theorem emod_two_pow_le {j k : Nat} (le : j ≤ k) (a : Int) : a % 2 ^ j ≤ a % 2 ^ k := by
  rw [← Int.emod_emod_of_dvd a (pow_dvd_pow 2 le)]
  have quotient := Int.ediv_nonneg (emod_two_pow_nonneg a k) (int_two_pow_pos j).le
  have product := Int.mul_nonneg (int_two_pow_pos j).le quotient
  have whole := Int.emod_add_mul_ediv (a % 2 ^ k) (2 ^ j)
  omega

theorem cut_le (a : Int) (k : Nat) : cut a k ≤ a :=
  Int.sub_le_self a (emod_two_pow_nonneg a k)

theorem cut_le_cut {j k : Nat} (le : j ≤ k) (a : Int) : cut a k ≤ cut a j :=
  Int.sub_le_sub_left (emod_two_pow_le le a) a

/-- Bits that are lost already are not lost again. -/
theorem cut_cut {j k : Nat} (le : j ≤ k) (a : Int) : cut (cut a j) k = cut a k := by
  have low : cut a j % 2 ^ k = a % 2 ^ k - a % 2 ^ j := by
    have nonneg := emod_two_pow_nonneg a j
    have below := Int.emod_lt_of_pos a (int_two_pow_pos k)
    have less := emod_two_pow_le le a
    have split : cut a j = a % 2 ^ k - a % 2 ^ j + 2 ^ k * (a / 2 ^ k) := by
      have whole := Int.emod_add_mul_ediv a (2 ^ k)
      unfold cut
      omega
    rw [split, Int.add_mul_emod_self_left]
    exact Int.emod_eq_of_lt (by omega) (by omega)
  rw [cut, low]
  unfold cut
  omega

end Bits
