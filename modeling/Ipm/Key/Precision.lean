import Mathlib.Data.List.Induction
import Ipm.Key
import Ipm.Lib.Bits

/-!
# Keys under lowered precision

`CALL_BUF_PRECISION_DOWN` on the words of `call_mask`, and what the key macros read
from a key whose size was cut by a mask that any number of these steps has left.

* `precisionDowns`: the masks after the steps on the listed calls.
* `callBufPrecision_downs`: after `k` steps on its call a full mask has lost its `k`
  lowest bits.
* `ipmMpiKey_roundTrip`: fields read back and injectivity, for all of these masks.
-/

namespace Ipm

/-! ## Lowered masks -/

/-- `CALL_BUF_PRECISION_DOWN(call)` on the array. -/
def precisionDown (callMask : Nat → Nat) (call : Nat) : Nat → Nat :=
  Function.update callMask call (callBufPrecisionDown (callMask call))

/-- The array after the steps on the calls of a list. -/
def precisionDowns (callMask : Nat → Nat) (calls : List Nat) : Nat → Nat :=
  calls.foldl precisionDown callMask

/-- A step shifts the precision and keeps nothing else of it. -/
theorem callBufPrecisionDown_bprec (word : Nat) :
    callBufPrecisionDown word &&& callMaskBprec =
      shl64 (word &&& callMaskBprec) 1 &&& callMaskBprec := by
  have apart : (callMaskState ||| callMaskOpt) &&& callMaskBprec = 0 := by decide
  rw [callBufPrecisionDown, Nat.and_or_distrib_right, Nat.and_assoc, apart, Nat.and_zero,
    Nat.zero_or, Nat.and_assoc, Nat.and_self]

/-- A step keeps the options. -/
theorem callBufPrecisionDown_options (word : Nat) :
    callBufPrecisionDown word &&& (callMaskState ||| callMaskOpt) =
      word &&& (callMaskState ||| callMaskOpt) := by
  have apart : callMaskBprec &&& (callMaskState ||| callMaskOpt) = 0 := by decide
  rw [callBufPrecisionDown, Nat.and_or_distrib_right, Nat.and_assoc, Nat.and_self, Nat.and_assoc,
    apart, Nat.and_zero, Nat.or_zero]

/-- A precision that has lost `k` bits loses one more. -/
theorem callBufPrecisionDown_high {word k : Nat} (lost : word &&& callMaskBprec = Bits.high 48 k) :
    callBufPrecisionDown word &&& callMaskBprec = Bits.high 48 (k + 1) := by
  rw [callBufPrecisionDown_bprec, lost]
  exact Bits.high_succ 48 k (by decide)

/-- After the steps a full mask has lost one bit for each step on its call. -/
theorem callBufPrecision_downs {callMask : Nat → Nat}
    (full : ∀ call, callBufPrecision callMask call = callMaskBprec) (calls : List Nat)
    (call : Nat) :
    callBufPrecision (precisionDowns callMask calls) call = Bits.high 48 (calls.count call) := by
  induction calls using List.reverseRecOn with
  | nil => exact full call
  | append_singleton calls last ih =>
      rw [precisionDowns, List.foldl_append, List.count_append]
      change callBufPrecision (precisionDown (precisionDowns callMask calls) last) call = _
      rcases eq_or_ne call last with rfl | other
      · rw [callBufPrecision, precisionDown, Function.update_self, List.count_singleton_self]
        exact callBufPrecisionDown_high ih
      · rw [callBufPrecision, precisionDown, Function.update_of_ne other,
          List.count_singleton, if_neg (by simpa using other.symm)]
        exact ih

/-! ## Keys -/

section RoundTrip

variable {callMask callMask' : Nat → Nat} {region region' : Int} {call call' : Nat}
  {rank rank' size size' : Int}

/-- The size that reaches the key has lost its bits below the precision. -/
theorem maskedSize_downs (full : ∀ c, callBufPrecision callMask c = callMaskBprec)
    (calls : List Nat) (ok : FieldsOk region call rank size) :
    (maskedSize (precisionDowns callMask calls) call size : Int) =
      size - size % 2 ^ calls.count call := by
  have nonneg := ok.size_nonneg
  have small : size.toNat < 2 ^ 48 := by
    have := ok.size_lt
    omega
  have le : size.toNat % 2 ^ calls.count call ≤ size.toNat := Nat.mod_le _ _
  rw [maskedSize, callBufPrecision_downs full, Bits.and_high small]
  push_cast [le]
  rw [Int.toNat_of_nonneg nonneg]

/-- Keys of fields within bounds are equal exactly when their fields are, the sizes as
far as the masks let them through. -/
theorem ipmMpiKey_inj (ok : FieldsOk region call rank size)
    (ok' : FieldsOk region' call' rank' size') :
    ipmMpiKey callMask region call rank size = ipmMpiKey callMask' region' call' rank' size' ↔
      region = region' ∧ call = call' ∧ rank = rank' ∧
        maskedSize callMask call size = maskedSize callMask' call' size' := by
  constructor
  · intro same
    refine ⟨?_, ?_, ?_, ?_⟩
    · have region : (keyRegion (ipmMpiKey callMask _ _ _ _) : Int) = _ := keyRegion_ipmMpiKey ok
      rw [← region, same, keyRegion_ipmMpiKey ok']
    · have call : keyCall (ipmMpiKey callMask _ _ _ _) = _ := keyCall_ipmMpiKey ok
      rw [← call, same, keyCall_ipmMpiKey ok']
    · have rank : keyRank (ipmMpiKey callMask _ _ _ _) = _ := keyRank_ipmMpiKey ok
      rw [← rank, same, keyRank_ipmMpiKey ok']
    · have bytes : keyByte (ipmMpiKey callMask _ _ _ _) = _ := keyByte_ipmMpiKey ok
      rw [same, keyByte_ipmMpiKey ok'] at bytes
      exact (Int.ofNat_inj.mp bytes).symm
  · intro fields
    obtain ⟨rfl, rfl, rfl, size⟩ := fields
    rw [ipmMpiKey_eq ok, ipmMpiKey_eq ok', size]

theorem ipmMpiKey_ne_zero (ok : FieldsOk region call rank size) (named : 1 ≤ call) :
    ipmMpiKey callMask region call rank size ≠ 0 :=
  KeyOk.ne_zero (by rwa [KeyOk, keyCall_ipmMpiKey ok])

/-- Round trip and injectivity of MPI keys, under every mask that
`CALL_BUF_PRECISION_DOWN` steps leave of full precision. -/
theorem ipmMpiKey_roundTrip (full : ∀ c, callBufPrecision callMask c = callMaskBprec)
    (calls : List Nat) (ok : FieldsOk region call rank size) (named : 1 ≤ call) :
    let mask := precisionDowns callMask calls
    let key := ipmMpiKey mask region call rank size
    keyRegion key = region ∧ keyCall key = call ∧ keyRank key = rank ∧
      keyByte key = size - size % 2 ^ calls.count call ∧
      keyByte key = maskedSize mask call size ∧ key ≠ 0 ∧
      ∀ {region' : Int} {call' : Nat} {rank' size' : Int},
        FieldsOk region' call' rank' size' →
          (key = ipmMpiKey mask region' call' rank' size' ↔
            region = region' ∧ call = call' ∧ rank = rank' ∧
              maskedSize mask call size = maskedSize mask call' size') := by
  intro mask key
  have byte : keyByte key = maskedSize mask call size := keyByte_ipmMpiKey ok
  refine ⟨keyRegion_ipmMpiKey ok, keyCall_ipmMpiKey ok, keyRank_ipmMpiKey ok, ?_, byte,
    ipmMpiKey_ne_zero ok named, ?_⟩
  · rw [byte]
    exact maskedSize_downs full calls ok
  · intro region' call' rank' size' ok'
    exact ipmMpiKey_inj ok ok'

end RoundTrip

/-- An `MPI_Send` of 1023 bytes to no rank, after two steps on its call and one on another. -/
theorem ipmMpiKey_roundTrip_send :
    let mask := precisionDowns (fun _ => callMaskBprec) [3, 7, 3]
    keyByte (ipmMpiKey mask 255 3 (-2) 1023) = 1020 :=
  have full : ∀ c, callBufPrecision (fun _ => callMaskBprec) c = callMaskBprec :=
    fun _ => Nat.and_self _
  (ipmMpiKey_roundTrip full [3, 7, 3] (by decide) (by decide)).2.2.2.1

end Ipm
