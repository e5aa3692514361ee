import Mathlib.Data.Nat.Bitwise
import Mathlib.Data.Int.Order.Basic
import Mathlib.Tactic.Ring

/-!
# Hash keys of MPI events

The key macros of `include/ipm.h`.  A key is an `unsigned long long int`, here a
`Nat` with the conversions and shifts taken modulo `2 ^ 64`; a call mask is the
`call_mask` array of a task.

* `ipmMpiKey_eq`: for fields within the bounds of the layout comment a key is the
  sum of its four fields at their positions.
* `keyRegion_ipmMpiKey` and its siblings read the fields back.
* `rekey` rebuilds a key from its own decoded fields, as `ipm_hash_cull` does: it
  keeps the region, the call and the rank (`keyTarget_rekey`) and is idempotent
  under one mask (`rekey_rekey`).
-/

namespace Ipm

/-! ## The macros -/

/-- Conversion of an `int` to `unsigned long long int`. -/
def toU64 (i : Int) : Nat := (i % 2 ^ 64).toNat

/-- Left shift of an `unsigned long long int`. -/
def shl64 (k n : Nat) : Nat := k <<< n % 2 ^ 64

def keyMaskByte : Nat := 0x000000007FFFFFFF
def keyMaskRank : Nat := 0x0000FFFF00000000
def keyMaskNorank : Nat := 0x0000000080000000
def keyMaskCall : Nat := 0x00FF000000000000
def keyMaskRegion : Nat := 0xFF00000000000000

def callMaskState : Nat := 0xFF00000000000000
def callMaskOpt : Nat := 0x00FF000000000000
def callMaskBprec : Nat := 0x0000FFFFFFFFFFFF

/-- `KEY_BYTE`. -/
def keyByte (k : Nat) : Int := (k &&& keyMaskByte : Nat)

/-- `KEY_RANK`. -/
def keyRank (k : Nat) : Int :=
  if k &&& keyMaskNorank ≠ 0 then -(((k &&& keyMaskRank) >>> 32 : Nat) : Int)
  else ((k &&& keyMaskRank) >>> 32 : Nat)

/-- `KEY_CALL`. -/
def keyCall (k : Nat) : Nat := (k &&& keyMaskCall) >>> 48

/-- `KEY_REGION`. -/
def keyRegion (k : Nat) : Nat := (k &&& keyMaskRegion) >>> 56

/-- `CALL_BUF_PRECISION`. -/
def callBufPrecision (callMask : Nat → Nat) (call : Nat) : Nat :=
  callMask call &&& callMaskBprec

/-- `CALL_BUF_PRECISION_DOWN`, as the new value of the call's mask word. -/
def callBufPrecisionDown (word : Nat) : Nat :=
  (word &&& (callMaskState ||| callMaskOpt)) |||
    (shl64 (word &&& callMaskBprec) 1 &&& callMaskBprec)

/-- `IPM_MPI_KEY`. -/
def ipmMpiKey (callMask : Nat → Nat) (region : Int) (call : Nat) (rank size : Int) : Nat :=
  let key := toU64 region
  let key := shl64 key 8
  let key := key ||| call
  let key := shl64 key 16
  let key :=
    if rank < 0 then shl64 (key ||| toU64 (-rank)) 32 ||| keyMaskNorank
    else shl64 (key ||| toU64 rank) 32
  key ||| (toU64 size &&& callBufPrecision callMask call)

/-! ## The layout -/

/-- The fields fit the bounds the layout comment gives them: eight bits of region
and call, sixteen of rank beside the sign bit, thirty-one of size. -/
structure FieldsOk (region : Int) (call : Nat) (rank size : Int) : Prop where
  region_nonneg : 0 ≤ region
  region_lt : region < 256
  call_lt : call < 256
  rank_le : rank.natAbs ≤ 65535
  size_nonneg : 0 ≤ size
  size_lt : size < 2 ^ 31

instance (region : Int) (call : Nat) (rank size : Int) :
    Decidable (FieldsOk region call rank size) :=
  decidable_of_iff
    (0 ≤ region ∧ region < 256 ∧ call < 256 ∧ rank.natAbs ≤ 65535 ∧ 0 ≤ size ∧ size < 2 ^ 31)
    ⟨fun ⟨h₁, h₂, h₃, h₄, h₅, h₆⟩ => ⟨h₁, h₂, h₃, h₄, h₅, h₆⟩,
      fun ⟨h₁, h₂, h₃, h₄, h₅, h₆⟩ => ⟨h₁, h₂, h₃, h₄, h₅, h₆⟩⟩

theorem toU64_of_nonneg {i : Int} (nonneg : 0 ≤ i) (small : i < 2 ^ 64) :
    toU64 i = i.toNat := by
  rw [toU64, Int.emod_eq_of_lt nonneg small]

theorem shl64_of_lt {k n : Nat} (small : k * 2 ^ n < 2 ^ 64) : shl64 k n = k * 2 ^ n := by
  rw [shl64, Nat.shiftLeft_eq, Nat.mod_eq_of_lt small]

/-- Or-ing a field below a shifted word adds it. -/
theorem mul_two_pow_or {a b n : Nat} (small : b < 2 ^ n) : a * 2 ^ n ||| b = a * 2 ^ n + b := by
  rw [Nat.mul_comm, Nat.two_pow_add_eq_or_of_lt small]

/-- The sign bit of a packed rank. -/
def norankBit (rank : Int) : Nat := if rank < 0 then 1 else 0

theorem norankBit_le (rank : Int) : norankBit rank ≤ 1 := by
  unfold norankBit
  split <;> omega

/-- The size that reaches the key. -/
def maskedSize (callMask : Nat → Nat) (call : Nat) (size : Int) : Nat :=
  size.toNat &&& callBufPrecision callMask call

theorem maskedSize_lt (callMask : Nat → Nat) (call : Nat) {size : Int}
    (small : size < 2 ^ 31) : maskedSize callMask call size < 2 ^ 31 :=
  Nat.lt_of_le_of_lt Nat.and_le_left (by omega)

/-- A key of fields within bounds is the sum of the fields at their positions. -/
theorem ipmMpiKey_eq {callMask : Nat → Nat} {region : Int} {call : Nat} {rank size : Int}
    (ok : FieldsOk region call rank size) :
    ipmMpiKey callMask region call rank size =
      ((region.toNat * 2 ^ 8 + call) * 2 ^ 16 + rank.natAbs) * 2 ^ 32 +
        (norankBit rank * 2 ^ 31 + maskedSize callMask call size) := by
  obtain ⟨regionNonneg, regionLt, callLt, rankLe, sizeNonneg, sizeLt⟩ := ok
  have regionWord : toU64 region = region.toNat := toU64_of_nonneg regionNonneg (by omega)
  have sizeWord : toU64 size = size.toNat := toU64_of_nonneg sizeNonneg (by omega)
  have masked := maskedSize_lt callMask call sizeLt
  have word : ∀ r : Nat, r ≤ 65535 →
      shl64 (shl64 (shl64 region.toNat 8 ||| call) 16 ||| r) 32 =
        ((region.toNat * 2 ^ 8 + call) * 2 ^ 16 + r) * 2 ^ 32 := by
    intro r rLe
    rw [shl64_of_lt (k := region.toNat) (by omega), mul_two_pow_or (by omega),
      shl64_of_lt (n := 16) (by omega), mul_two_pow_or (by omega), shl64_of_lt (by omega)]
  simp only [ipmMpiKey, regionWord, sizeWord]
  change _ ||| maskedSize callMask call size = _
  by_cases negative : rank < 0
  · rw [if_pos negative, toU64_of_nonneg (by omega) (by omega),
      word (-rank).toNat (by omega), show (-rank).toNat = rank.natAbs by omega]
    have bit : keyMaskNorank = norankBit rank * 2 ^ 31 := by
      rw [norankBit, if_pos negative]
      rfl
    rw [Nat.or_assoc, bit, mul_two_pow_or masked, mul_two_pow_or]
    have := norankBit_le rank
    omega
  · rw [if_neg negative, toU64_of_nonneg (by omega) (by omega),
      word rank.toNat (by omega), show rank.toNat = rank.natAbs by omega]
    have bit : norankBit rank = 0 := by rw [norankBit, if_neg negative]
    rw [mul_two_pow_or (by omega), bit, Nat.zero_mul, Nat.zero_add]

/-- Only the low eight bits of the region reach a key. -/
theorem ipmMpiKey_emod (callMask : Nat → Nat) (region : Int) (call : Nat) (rank size : Int) :
    ipmMpiKey callMask region call rank size =
      ipmMpiKey callMask (region % 256) call rank size := by
  have low : ∀ i, i < 8 → (toU64 region).testBit i = (toU64 (region % 256)).testBit i := by
    intro i small
    have same : toU64 region % 2 ^ 8 = toU64 (region % 256) % 2 ^ 8 := by
      simp only [toU64]
      omega
    have bit := congrArg (fun n => n.testBit i) same
    simpa only [Nat.testBit_mod_two_pow, small, decide_true, Bool.true_and] using bit
  have word : ∀ r : Nat,
      shl64 (shl64 (shl64 (toU64 region) 8 ||| call) 16 ||| r) 32 =
        shl64 (shl64 (shl64 (toU64 (region % 256)) 8 ||| call) 16 ||| r) 32 := by
    intro r
    refine Nat.eq_of_testBit_eq fun i => ?_
    simp only [shl64, Nat.testBit_mod_two_pow, Nat.testBit_shiftLeft, Nat.testBit_or]
    by_cases field : i < 64 ∧ 56 ≤ i
    · rw [low (i - 32 - 16 - 8) (by omega)]
    · by_cases inWord : i < 64
      · have below : ¬ i - 32 - 16 ≥ 8 := by omega
        simp [below]
      · simp [inWord]
  simp only [ipmMpiKey, word]

/-- The mask reaches only the low forty-eight bits of a key. -/
theorem keyRegion_callMask (callMask callMask' : Nat → Nat) (region : Int) (call : Nat)
    (rank size : Int) :
    keyRegion (ipmMpiKey callMask region call rank size) =
      keyRegion (ipmMpiKey callMask' region call rank size) := by
  have masked : ∀ (mask : Nat → Nat) (word : Nat),
      (word ||| (toU64 size &&& callBufPrecision mask call)) &&& keyMaskRegion =
        word &&& keyMaskRegion := by
    intro mask word
    have out : callMaskBprec &&& keyMaskRegion = 0 := by decide
    rw [Nat.and_or_distrib_right, callBufPrecision, Nat.and_assoc, Nat.and_assoc, out,
      Nat.and_zero, Nat.and_zero, Nat.or_zero]
  simp only [keyRegion, ipmMpiKey, masked]

/-! ## Reading the fields back -/

/-- A field of `width` bits at position `low`. -/
theorem and_shiftRight_field (k low width : Nat) :
    (k &&& (2 ^ width - 1) <<< low) >>> low = k / 2 ^ low % 2 ^ width := by
  rw [Nat.shiftRight_and_distrib, Nat.shiftLeft_shiftRight, Nat.and_two_pow_sub_one_eq_mod,
    Nat.shiftRight_eq_div_pow]

theorem keyRegion_eq (k : Nat) : keyRegion k = k / 2 ^ 56 % 2 ^ 8 :=
  and_shiftRight_field k 56 8

theorem keyCall_eq (k : Nat) : keyCall k = k / 2 ^ 48 % 2 ^ 8 :=
  and_shiftRight_field k 48 8

theorem keyByte_eq (k : Nat) : keyByte k = (k % 2 ^ 31 : Nat) := by
  rw [keyByte, show keyMaskByte = 2 ^ 31 - 1 from rfl, Nat.and_two_pow_sub_one_eq_mod]

theorem keyRank_eq (k : Nat) :
    keyRank k = if k / 2 ^ 31 % 2 = 1 then -((k / 2 ^ 32 % 2 ^ 16 : Nat) : Int)
      else (k / 2 ^ 32 % 2 ^ 16 : Nat) := by
  have sign : k &&& keyMaskNorank ≠ 0 ↔ k / 2 ^ 31 % 2 = 1 := by
    rw [show keyMaskNorank = 2 ^ 31 from rfl, Nat.and_two_pow, Nat.testBit_eq_decide_div_mod_eq]
    by_cases bit : k / 2 ^ 31 % 2 = 1 <;> simp_all
  have field : (k &&& keyMaskRank) >>> 32 = k / 2 ^ 32 % 2 ^ 16 := and_shiftRight_field k 32 16
  simp only [keyRank, field, sign]

section Decode

variable {callMask : Nat → Nat} {region : Int} {call : Nat} {rank size : Int}
  (ok : FieldsOk region call rank size)
include ok

theorem keyRegion_ipmMpiKey :
    (keyRegion (ipmMpiKey callMask region call rank size) : Int) = region := by
  have := norankBit_le rank
  have := maskedSize_lt callMask call ok.size_lt
  rw [keyRegion_eq, ipmMpiKey_eq ok]
  obtain ⟨regionNonneg, regionLt, callLt, rankLe, -, -⟩ := ok
  omega

theorem keyCall_ipmMpiKey : keyCall (ipmMpiKey callMask region call rank size) = call := by
  have := norankBit_le rank
  have := maskedSize_lt callMask call ok.size_lt
  rw [keyCall_eq, ipmMpiKey_eq ok]
  obtain ⟨regionNonneg, regionLt, callLt, rankLe, -, -⟩ := ok
  omega

theorem keyRank_ipmMpiKey : keyRank (ipmMpiKey callMask region call rank size) = rank := by
  have := maskedSize_lt callMask call ok.size_lt
  rw [keyRank_eq, ipmMpiKey_eq ok, norankBit]
  obtain ⟨regionNonneg, regionLt, callLt, rankLe, -, -⟩ := ok
  split <;> split <;> omega

theorem keyByte_ipmMpiKey :
    keyByte (ipmMpiKey callMask region call rank size) = (maskedSize callMask call size : Nat) := by
  have := norankBit_le rank
  have := maskedSize_lt callMask call ok.size_lt
  rw [keyByte_eq, ipmMpiKey_eq ok]
  omega

end Decode

/-! ## Rebuilding a key from its own fields -/

/-- Whatever its bits, a key decodes to fields within the bounds of the layout. -/
theorem fieldsOk_decode (k : Nat) :
    FieldsOk (keyRegion k) (keyCall k) (keyRank k) (keyByte k) := by
  rw [keyRegion_eq, keyCall_eq, keyRank_eq, keyByte_eq]
  constructor <;> omega

/-- The key `IPM_MPI_KEY` builds from the decoded fields of `k`. -/
def rekey (callMask : Nat → Nat) (k : Nat) : Nat :=
  ipmMpiKey callMask (keyRegion k) (keyCall k) (keyRank k) (keyByte k)

/-- What a key attributes its events to: region, call and partner rank. -/
def keyTarget (k : Nat) : Nat × Nat × Int := (keyRegion k, keyCall k, keyRank k)

theorem keyTarget_rekey (callMask : Nat → Nat) (k : Nat) :
    keyTarget (rekey callMask k) = keyTarget k := by
  have fields := fieldsOk_decode k
  have region : keyRegion (rekey callMask k) = keyRegion k :=
    Int.ofNat_inj.mp (keyRegion_ipmMpiKey fields)
  rw [keyTarget, region, rekey, keyCall_ipmMpiKey fields, keyRank_ipmMpiKey fields]
  rfl

/-- Building a key again from its own fields under the same mask changes nothing. -/
theorem rekey_ipmMpiKey {callMask : Nat → Nat} {region : Int} {call : Nat} {rank size : Int}
    (ok : FieldsOk region call rank size) :
    rekey callMask (ipmMpiKey callMask region call rank size) =
      ipmMpiKey callMask region call rank size := by
  have again : maskedSize callMask call (maskedSize callMask call size : Nat) =
      maskedSize callMask call size := by
    rw [maskedSize, Int.toNat_natCast, maskedSize, Nat.and_assoc, Nat.and_self]
  have small := maskedSize_lt callMask call ok.size_lt
  have masked : FieldsOk region call rank (maskedSize callMask call size : Nat) :=
    { ok with size_nonneg := by omega, size_lt := by omega }
  rw [rekey, keyRegion_ipmMpiKey ok, keyCall_ipmMpiKey ok, keyRank_ipmMpiKey ok,
    keyByte_ipmMpiKey ok, ipmMpiKey_eq masked, again]
  exact (ipmMpiKey_eq ok).symm

theorem rekey_rekey (callMask : Nat → Nat) (k : Nat) :
    rekey callMask (rekey callMask k) = rekey callMask k :=
  rekey_ipmMpiKey (fieldsOk_decode k)

/-- A key that names a call; no such key is the vacant key. -/
def KeyOk (k : Nat) : Prop := 1 ≤ keyCall k

theorem KeyOk.ne_zero {k : Nat} (ok : KeyOk k) : k ≠ 0 := by
  rintro rfl
  exact absurd ok (show ¬ 1 ≤ keyCall 0 by decide)

theorem KeyOk.rekey {k : Nat} (ok : KeyOk k) (callMask : Nat → Nat) :
    KeyOk (rekey callMask k) := by
  rw [KeyOk, Ipm.rekey, keyCall_ipmMpiKey (fieldsOk_decode k)]
  exact ok

end Ipm
