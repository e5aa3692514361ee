import Ipm.Key.Precision
import Ipm.Wrapper.History

/-!
# Rounded byte counts

With `IPM_ROUNDED` a wrapper rounds the byte count of an event up to a power of two
before it builds the key.

* `roundBytes_ofNat`: the shifts and ors compute the power above all bits of the
  count less one, in 32 bits.
* `roundBytes_ofNat_high`: above `2 ^ 30` that power is `2 ^ 31`, which an `int` holds
  as `-2 ^ 31`, and `keyRank_rounded`: such a count writes over the rank of the key.
* `roundBytes_survives`: the round trip holds up to `2 ^ 30` and no further.
-/

namespace Ipm

/-! ## `int` arithmetic on small numbers -/

/-- Only amounts below the width are shifted by. -/
theorem int32_ofNat_shiftRight {n k : Nat} (small : n < 2 ^ 31) (inWord : k < 32) :
    Int32.ofNat n >>> Int32.ofNat k = Int32.ofNat (n >>> k) := by
  have amount : ∀ k < 32, ((BitVec.ofNat 32 k).smod 32#32).toNat = k := by decide
  have le : n >>> k ≤ n := Nat.shiftRight_le n k
  have nonneg : (BitVec.ofNat 32 n).msb = false := by
    rw [BitVec.msb_eq_decide, BitVec.toNat_ofNat, decide_eq_false_iff_not]
    omega
  refine Int32.toBitVec_inj.mp (BitVec.eq_of_toNat_eq ?_)
  rw [Int32.toBitVec_shiftRight, BitVec.sshiftRight_eq']
  change ((BitVec.ofNat 32 n).sshiftRight ((BitVec.ofNat 32 k).smod 32#32).toNat).toNat =
    (BitVec.ofNat 32 (n >>> k)).toNat
  rw [amount k inWord, BitVec.toNat_sshiftRight_of_msb_false nonneg, BitVec.toNat_ofNat,
    BitVec.toNat_ofNat, Nat.mod_eq_of_lt (by omega), Nat.mod_eq_of_lt (by omega)]

theorem int32_ofNat_or (n m : Nat) : Int32.ofNat n ||| Int32.ofNat m = Int32.ofNat (n ||| m) :=
  Int32.toBitVec_inj.mp BitVec.ofNat_or.symm

/-- A nonnegative `int` is the natural number it stands for. -/
theorem int32_eq_ofNat {x : Int32} (nonneg : 0 ≤ x.toInt) : x = Int32.ofNat x.toInt.toNat :=
  (Int32.ofNat_toNatClampNeg x (Int32.le_iff_toInt_le.mpr nonneg)).symm

/-- One shift and or of the rounding. -/
theorem int32_smear {n : Nat} (small : n < 2 ^ 31) {j : Nat} (inWord : 2 ^ j < 32) :
    Int32.ofNat (Bits.smear j n) ||| Int32.ofNat (Bits.smear j n) >>> Int32.ofNat (2 ^ j) =
      Int32.ofNat (Bits.smear (j + 1) n) := by
  rw [int32_ofNat_shiftRight (Bits.smear_lt small j) inWord, int32_ofNat_or]
  rfl

/-! ## The rounding -/

/-- The rounding computes the power above all bits of the count less one. -/
theorem roundBytes_ofNat {n : Nat} (positive : 0 < n) (small : n < 2 ^ 31) :
    roundBytes (Int32.ofNat n) = Int32.ofNat (2 ^ (n - 1).size) := by
  have nonzero : Int32.ofNat n ≠ 0 := by
    intro zero
    have := congrArg Int32.toInt zero
    rw [Int32.toInt_ofNat_of_lt small, Int32.toInt_zero] at this
    omega
  have less : Int32.ofNat n - 1 = Int32.ofNat (n - 1) := by
    rw [Int32.ofNat_sub n 1 positive]
    rfl
  have word : n - 1 < 2 ^ 31 := by omega
  have shift1 := int32_smear word (j := 0) (by decide)
  have shift2 := int32_smear word (j := 1) (by decide)
  have shift4 := int32_smear word (j := 2) (by decide)
  have shift8 := int32_smear word (j := 3) (by decide)
  have shift16 := int32_smear word (j := 4) (by decide)
  have all : Bits.smear 5 (n - 1) = 2 ^ (n - 1).size - 1 := Bits.smear_eq (word.trans (by decide))
  have power : 0 < 2 ^ (n - 1).size := Nat.two_pow_pos _
  have more : Int32.ofNat (Bits.smear 5 (n - 1)) + 1 = Int32.ofNat (2 ^ (n - 1).size) := by
    rw [all, ← Nat.sub_add_cancel power, Int32.ofNat_add, Nat.add_sub_cancel]
    rfl
  rw [roundBytes, if_pos nonzero, less, ← more, ← shift16, ← shift8, ← shift4, ← shift2, ← shift1]
  rfl

/-- Up to `2 ^ 30` the power fits an `int`. -/
theorem toInt_roundBytes_low {n : Nat} (positive : 0 < n) (low : n ≤ 2 ^ 30) :
    (roundBytes (Int32.ofNat n)).toInt = (2 ^ (n - 1).size : Nat) := by
  have fits : 2 ^ (n - 1).size ≤ 2 ^ 30 :=
    Nat.pow_le_pow_right (by decide) (Nat.size_le.mpr (by omega))
  rw [roundBytes_ofNat positive (by omega), Int32.toInt_ofNat_of_lt (by omega)]

/-- Above `2 ^ 30` it is one too many. -/
theorem roundBytes_ofNat_high {n : Nat} (high : 2 ^ 30 < n) (small : n < 2 ^ 31) :
    roundBytes (Int32.ofNat n) = -2 ^ 31 := by
  have size : (n - 1).size = 31 := by
    have le : (n - 1).size ≤ 31 := Nat.size_le.mpr (by omega)
    have lt : 30 < (n - 1).size := Nat.lt_size.mpr (by omega)
    omega
  rw [roundBytes_ofNat (by omega) small, size]
  decide

/-! ## The key of a rounded count -/

/-- The count is rounded to the least power of two not below it, 0 to 0. -/
def RoundsUp (bytes : Int32) : Prop :=
  if bytes = 0 then roundBytes bytes = 0
  else IsLeast {m : Int | bytes.toInt ≤ m ∧ ∃ k : Nat, m = 2 ^ k} (roundBytes bytes).toInt

/-- The event's fields are read from the key of the rounded count. -/
def RoundedKeyOk (callMask : Nat → Nat) (region : Int) (call : Nat) (rank : Int) (bytes : Int32) :
    Prop :=
  let key := ipmMpiKey callMask region call rank (roundBytes bytes).toInt
  keyRegion key = region ∧ keyCall key = call ∧ keyRank key = rank

theorem roundsUp_low {bytes : Int32} (nonneg : 0 ≤ bytes.toInt) (low : bytes.toInt ≤ 2 ^ 30) :
    RoundsUp bytes := by
  rw [RoundsUp]
  split
  case isTrue zero =>
    rw [zero]
    rfl
  case isFalse nonzero =>
    have natural := int32_eq_ofNat nonneg
    have positive : 0 < bytes.toInt.toNat := by
      rcases Nat.eq_zero_or_pos bytes.toInt.toNat with zero | positive
      · rw [zero] at natural
        exact absurd natural nonzero
      · exact positive
    have rounded := toInt_roundBytes_low positive (by omega)
    obtain ⟨⟨ge, -⟩, least⟩ := Bits.isLeast_two_pow_size positive
    rw [← natural] at rounded
    rw [rounded]
    refine ⟨⟨by omega, _, Nat.cast_pow 2 _⟩, ?_⟩
    intro m above
    obtain ⟨le, k, rfl⟩ := above
    have power : bytes.toInt.toNat ≤ 2 ^ k := by
      have cast : ((2 ^ k : Nat) : Int) = 2 ^ k := Nat.cast_pow 2 k
      omega
    have := least ⟨power, k, rfl⟩
    exact_mod_cast this

theorem roundedKeyOk_low {callMask : Nat → Nat} {region : Int} {call : Nat} {rank : Int}
    {bytes : Int32} (ok : FieldsOk region call rank bytes.toInt) (low : bytes.toInt ≤ 2 ^ 30) :
    RoundedKeyOk callMask region call rank bytes := by
  have range : 0 ≤ (roundBytes bytes).toInt ∧ (roundBytes bytes).toInt < 2 ^ 31 := by
    refine ⟨?_, (roundBytes bytes).toInt_lt⟩
    rw [int32_eq_ofNat ok.size_nonneg]
    rcases Nat.eq_zero_or_pos bytes.toInt.toNat with zero | positive
    · rw [zero]
      decide
    · rw [toInt_roundBytes_low positive (by omega)]
      exact Int.natCast_nonneg _
  have rounded : FieldsOk region call rank (roundBytes bytes).toInt :=
    { ok with size_nonneg := range.1, size_lt := range.2 }
  exact ⟨keyRegion_ipmMpiKey rounded, keyCall_ipmMpiKey rounded, keyRank_ipmMpiKey rounded⟩

/-- At full precision a count above `2 ^ 30` writes over the rank: every partner reads as
-65535. -/
theorem keyRank_rounded {callMask : Nat → Nat} {call : Nat}
    (full : callBufPrecision callMask call = callMaskBprec) {bytes : Int32}
    (high : 2 ^ 30 < bytes.toInt) (region rank : Int) :
    keyRank (ipmMpiKey callMask region call rank (roundBytes bytes).toInt) = -65535 := by
  have small := bytes.toInt_lt
  have overflow := roundBytes_ofNat_high (n := bytes.toInt.toNat) (by omega) (by omega)
  rw [← int32_eq_ofNat (by omega)] at overflow
  have size : toU64 (roundBytes bytes).toInt &&& callMaskBprec = 0x0000FFFF80000000 := by
    rw [overflow]
    decide
  have rankBits : ∀ word : Nat, (word ||| 0x0000FFFF80000000) &&& keyMaskRank = keyMaskRank := by
    intro word
    have inside : 0x0000FFFF80000000 &&& keyMaskRank = keyMaskRank := by decide
    rw [Nat.and_or_distrib_right, inside]
    refine Nat.eq_of_testBit_eq fun i => ?_
    rw [Nat.testBit_or, Nat.testBit_and]
    cases keyMaskRank.testBit i <;> simp
  have signBit : ∀ word : Nat, (word ||| 0x0000FFFF80000000) &&& keyMaskNorank ≠ 0 := by
    intro word zero
    have inside : 0x0000FFFF80000000 &&& keyMaskNorank = keyMaskNorank := by decide
    rw [Nat.and_or_distrib_right, inside] at zero
    exact absurd (Nat.or_eq_zero_iff.mp zero).2 (by decide)
  rw [keyRank, ipmMpiKey, full, size]
  rw [if_pos (signBit _), rankBits]
  decide

/-- One byte more than 1 GiB to rank 7 is logged as traffic with rank -65535. -/
theorem roundBytes_overflow :
    ¬ (RoundsUp (2 ^ 30 + 1) ∧ RoundedKeyOk (fun _ => callMaskBprec) 1 3 7 (2 ^ 30 + 1)) := by
  intro survives
  have rank := survives.2.2.2
  rw [keyRank_rounded rfl (by decide)] at rank
  exact absurd rank (by decide)

/-- Rounded byte counts survive key packing up to `2 ^ 30` and no further. -/
theorem roundBytes_survives {callMask : Nat → Nat} {region : Int} {call : Nat} {rank : Int}
    {bytes : Int32} (ok : FieldsOk region call rank bytes.toInt) :
    RoundsUp bytes ∧ RoundedKeyOk callMask region call rank bytes ↔ bytes.toInt ≤ 2 ^ 30 := by
  constructor
  · intro survives
    by_contra high
    have small := ok.size_lt
    have rounds := survives.1
    have nonzero : bytes ≠ 0 := by
      intro zero
      rw [zero] at high
      exact high (by decide)
    rw [RoundsUp, if_neg nonzero] at rounds
    have overflow := roundBytes_ofNat_high (n := bytes.toInt.toNat) (by omega) (by omega)
    rw [← int32_eq_ofNat ok.size_nonneg] at overflow
    have above := rounds.1.1
    rw [overflow] at above
    have : (-2 ^ 31 : Int32).toInt = -2 ^ 31 := by decide
    omega
  · intro low
    exact ⟨roundsUp_low ok.size_nonneg low, roundedKeyOk_low ok low⟩

/-- A message of 1 GiB is rounded to itself. -/
theorem roundBytes_survives_gib :
    RoundsUp (2 ^ 30) ∧ RoundedKeyOk (fun _ => callMaskBprec) 1 3 7 (2 ^ 30) :=
  (roundBytes_survives (by decide)).mpr (by decide)

end Ipm
