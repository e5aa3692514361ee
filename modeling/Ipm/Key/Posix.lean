import Ipm.Key.Precision

/-!
# Keys of I/O events

`IPM_IO_KEY` (`include/ipm.h`) beside the decoders and `IPM_MPI_KEY`.

* `ipmIoKey_eq`: the macro puts the call at bit 40 and the region at bit 48, eight
  bits below the places `KEY_CALL` and `KEY_REGION` read.
* `ipmIoKey_eq_ipmMpiKey`: so the key of an I/O event of a region is the key of an
  MPI event of region 0 whose call is that region.
* `ipmIoKey_misread`: no I/O event is read back from its key, and which of its promises
  the macro keeps.
-/

namespace Ipm

def keyMaskIobyte : Nat := 0x0000FFFFFFFFFFFF

/-- `IPM_IO_KEY`; the size is a `size_t`. -/
def ipmIoKey (callMask : Nat → Nat) (region : Int) (call size : Nat) : Nat :=
  let key := toU64 region
  let key := shl64 key 8
  let key := key ||| call
  let key := shl64 key 40
  key ||| (size &&& callBufPrecision callMask call)

/-- The fields of an I/O event within the widths the header states. -/
structure IoFieldsOk (region : Int) (call size : Nat) : Prop where
  region_nonneg : 0 ≤ region
  region_lt : region < 256
  call_lt : call < 256
  named : 1 ≤ call
  size_lt : size < 2 ^ 40

instance (region : Int) (call size : Nat) : Decidable (IoFieldsOk region call size) :=
  decidable_of_iff (0 ≤ region ∧ region < 256 ∧ call < 256 ∧ 1 ≤ call ∧ size < 2 ^ 40)
    ⟨fun ⟨h₁, h₂, h₃, h₄, h₅⟩ => ⟨h₁, h₂, h₃, h₄, h₅⟩,
      fun ⟨h₁, h₂, h₃, h₄, h₅⟩ => ⟨h₁, h₂, h₃, h₄, h₅⟩⟩

/-- The size masked to the precision of the call. -/
def ioMaskedSize (callMask : Nat → Nat) (call size : Nat) : Nat :=
  size &&& callBufPrecision callMask call

/-! ## What the encoding promises -/

/-- The decoders return the region, the call and the masked size of the event. -/
structure IoReadsBack (callMask : Nat → Nat) (region : Int) (call size : Nat) : Prop where
  keyRegion_eq : (keyRegion (ipmIoKey callMask region call size) : Int) = region
  keyCall_eq : keyCall (ipmIoKey callMask region call size) = call
  iobyte_eq : ipmIoKey callMask region call size &&& keyMaskIobyte = ioMaskedSize callMask call size

/-- I/O events with the key of this one agree with it in region, call and masked size. -/
def IoInjective (callMask : Nat → Nat) (region : Int) (call size : Nat) : Prop :=
  ∀ {region' : Int} {call' size' : Nat}, IoFieldsOk region' call' size' →
    ipmIoKey callMask region call size = ipmIoKey callMask region' call' size' →
      region = region' ∧ call = call' ∧
        ioMaskedSize callMask call size = ioMaskedSize callMask call' size'

/-- No MPI event of a different call has the key of this event. -/
def IoSeparated (callMask : Nat → Nat) (region : Int) (call size : Nat) : Prop :=
  ∀ {region' : Int} {call' : Nat} {rank' size' : Int}, FieldsOk region' call' rank' size' →
    1 ≤ call' → call' ≠ call →
      ipmIoKey callMask region call size ≠ ipmMpiKey callMask region' call' rank' size'

/-! ## What the macro builds -/

section IoKey

variable {callMask : Nat → Nat} {region : Int} {call size : Nat}

theorem ioMaskedSize_lt (small : size < 2 ^ 40) : ioMaskedSize callMask call size < 2 ^ 40 :=
  Nat.lt_of_le_of_lt Nat.and_le_left small

/-- The key is the sum of its fields at bits 48, 40 and 0. -/
theorem ipmIoKey_eq (ok : IoFieldsOk region call size) :
    ipmIoKey callMask region call size =
      (region.toNat * 2 ^ 8 + call) * 2 ^ 40 + ioMaskedSize callMask call size := by
  have masked : ioMaskedSize callMask call size < 2 ^ 40 := ioMaskedSize_lt ok.size_lt
  obtain ⟨regionNonneg, regionLt, callLt, -, -⟩ := ok
  have regionWord : toU64 region = region.toNat := toU64_of_nonneg regionNonneg (by omega)
  simp only [ipmIoKey, regionWord]
  change _ ||| ioMaskedSize callMask call size = _
  rw [shl64_of_lt (k := region.toNat) (by omega), mul_two_pow_or (by omega),
    shl64_of_lt (by omega), mul_two_pow_or masked]

variable (ok : IoFieldsOk region call size)
include ok

theorem keyRegion_ipmIoKey : keyRegion (ipmIoKey callMask region call size) = 0 := by
  have masked : ioMaskedSize callMask call size < 2 ^ 40 := ioMaskedSize_lt ok.size_lt
  rw [keyRegion_eq, ipmIoKey_eq ok]
  obtain ⟨regionNonneg, regionLt, callLt, -, -⟩ := ok
  omega

theorem keyCall_ipmIoKey : (keyCall (ipmIoKey callMask region call size) : Int) = region := by
  have masked : ioMaskedSize callMask call size < 2 ^ 40 := ioMaskedSize_lt ok.size_lt
  rw [keyCall_eq, ipmIoKey_eq ok]
  obtain ⟨regionNonneg, regionLt, callLt, -, -⟩ := ok
  omega

/-- The mask of the I/O size lets the call through. -/
theorem keyMaskIobyte_ipmIoKey :
    ipmIoKey callMask region call size &&& keyMaskIobyte =
      call * 2 ^ 40 + ioMaskedSize callMask call size := by
  have masked : ioMaskedSize callMask call size < 2 ^ 40 := ioMaskedSize_lt ok.size_lt
  rw [show keyMaskIobyte = 2 ^ 48 - 1 from rfl, Nat.and_two_pow_sub_one_eq_mod, ipmIoKey_eq ok]
  obtain ⟨regionNonneg, regionLt, callLt, -, -⟩ := ok
  omega

/-- The fields stand apart in the key, if not where they are read. -/
theorem ioInjective : IoInjective callMask region call size := by
  intro region' call' size' ok' same
  have masked : ioMaskedSize callMask call size < 2 ^ 40 := ioMaskedSize_lt ok.size_lt
  have masked' : ioMaskedSize callMask call' size' < 2 ^ 40 := ioMaskedSize_lt ok'.size_lt
  rw [ipmIoKey_eq ok, ipmIoKey_eq ok'] at same
  obtain ⟨regionNonneg, regionLt, callLt, -, -⟩ := ok
  obtain ⟨regionNonneg', regionLt', callLt', -, -⟩ := ok'
  omega

/-- The partner rank the key of an I/O event shows. -/
def ioShownRank (callMask : Nat → Nat) (call size : Nat) : Int :=
  let masked := ioMaskedSize callMask call size
  let rank : Nat := call * 2 ^ 8 + masked / 2 ^ 32
  if masked / 2 ^ 31 % 2 = 1 then -(rank : Int) else rank

omit ok in
theorem norankBit_ioShownRank (named : 1 ≤ call) :
    norankBit (ioShownRank callMask call size) =
      ioMaskedSize callMask call size / 2 ^ 31 % 2 := by
  rw [norankBit, ioShownRank]
  split <;> split <;> omega

omit ok in
theorem natAbs_ioShownRank :
    (ioShownRank callMask call size).natAbs =
      call * 2 ^ 8 + ioMaskedSize callMask call size / 2 ^ 32 := by
  rw [ioShownRank]
  split <;> omega

/-- The bytes the key of an I/O event shows. -/
theorem keyByte_ipmIoKey :
    keyByte (ipmIoKey callMask region call size) =
      (ioMaskedSize callMask call size % 2 ^ 31 : Nat) := by
  have masked : ioMaskedSize callMask call size < 2 ^ 40 := ioMaskedSize_lt ok.size_lt
  rw [keyByte_eq, ipmIoKey_eq ok]
  omega

/-- An MPI key equals the key of an I/O event exactly when its event is of region 0,
its call is the region of the I/O event and the rest of the bits match. -/
theorem ipmIoKey_eq_ipmMpiKey {region' : Int} {call' : Nat} {rank' size' : Int}
    (ok' : FieldsOk region' call' rank' size') :
    ipmIoKey callMask region call size = ipmMpiKey callMask region' call' rank' size' ↔
      region' = 0 ∧ (call' : Int) = region ∧ rank' = ioShownRank callMask call size ∧
        maskedSize callMask call' size' = ioMaskedSize callMask call size % 2 ^ 31 := by
  have masked : ioMaskedSize callMask call size < 2 ^ 40 := ioMaskedSize_lt ok.size_lt
  have named := ok.named
  have sign : norankBit (ioShownRank callMask call size) = _ := norankBit_ioShownRank named
  have abs : (ioShownRank callMask call size).natAbs = _ := natAbs_ioShownRank
  constructor
  · intro same
    refine ⟨?_, ?_, ?_, ?_⟩
    · have region : (keyRegion (ipmMpiKey callMask _ _ _ _) : Int) = _ := keyRegion_ipmMpiKey ok'
      rw [← region, ← same, keyRegion_ipmIoKey ok]
      rfl
    · have call : keyCall (ipmMpiKey callMask _ _ _ _) = _ := keyCall_ipmMpiKey ok'
      rw [← call, ← same, keyCall_ipmIoKey ok]
    · have masked' := maskedSize_lt callMask call' ok'.size_lt
      have bit := norankBit_le rank'
      have rank : norankBit rank' = norankBit (ioShownRank callMask call size) ∧
          rank'.natAbs = (ioShownRank callMask call size).natAbs := by
        rw [sign, abs]
        rw [ipmIoKey_eq ok, ipmMpiKey_eq ok'] at same
        obtain ⟨regionNonneg, regionLt, callLt, -, -⟩ := ok
        obtain ⟨regionNonneg', regionLt', callLt', rankLe, -, -⟩ := ok'
        omega
      simp only [norankBit] at rank
      split at rank <;> split at rank <;> omega
    · have bytes : keyByte (ipmMpiKey callMask _ _ _ _) = _ := keyByte_ipmMpiKey ok'
      rw [← same, keyByte_ipmIoKey ok] at bytes
      exact (Int.ofNat_inj.mp bytes).symm
  · intro fields
    obtain ⟨rfl, rfl, rfl, low⟩ := fields
    rw [ipmIoKey_eq ok, ipmMpiKey_eq ok', sign, abs, low]
    omega

/-- No I/O event is read back from its key: the region would have to be 0 and the call's
own number at once. -/
theorem not_ioReadsBack : ¬ IoReadsBack callMask region call size := by
  intro promised
  have region0 := promised.keyRegion_eq
  have call := promised.keyCall_eq
  rw [keyRegion_ipmIoKey ok] at region0
  have shown : (keyCall (ipmIoKey callMask region _ size) : Int) = region := keyCall_ipmIoKey ok
  have named := ok.named
  omega

/-- The key is an MPI key of another call exactly when its region is another call's number
and the precision of that call lets the size through. -/
theorem ioSeparated_iff :
    IoSeparated callMask region call size ↔
      region = 0 ∨ (call : Int) = region ∨
        maskedSize callMask region.toNat (ioMaskedSize callMask call size % 2 ^ 31 : Nat) ≠
          ioMaskedSize callMask call size % 2 ^ 31 := by
  have masked : ioMaskedSize callMask call size < 2 ^ 40 := ioMaskedSize_lt ok.size_lt
  have named := ok.named
  constructor
  · intro separated
    by_contra crossed
    push Not at crossed
    obtain ⟨region0, other, low⟩ := crossed
    obtain ⟨regionNonneg, regionLt, callLt, -, -⟩ := id ok
    -- the MPI event whose fields the decoders read from the key
    have shown : FieldsOk 0 region.toNat (ioShownRank callMask call size)
        (ioMaskedSize callMask call size % 2 ^ 31 : Nat) := by
      have rank : (ioShownRank callMask call size).natAbs = _ := natAbs_ioShownRank
      constructor <;> omega
    refine separated shown (by omega) (by omega) ?_
    exact (ipmIoKey_eq_ipmMpiKey ok shown).mpr ⟨rfl, by omega, rfl, low⟩
  · intro apart region' call' rank' size' ok' named' other same
    obtain ⟨-, calls, -, low⟩ := (ipmIoKey_eq_ipmMpiKey ok ok').mp same
    have sameCall : region.toNat = call' := by omega
    rcases apart with zero | mine | cut
    · omega
    · omega
    · refine cut ?_
      rw [← low, sameCall, maskedSize, Int.toNat_natCast, maskedSize, Nat.and_assoc, Nat.and_self]

/-- `IPM_IO_KEY` keeps its promise for no event.  The region reads as 0, the call as
the region, the size with the call over it; I/O keys stay distinct, but those of a
region other than 0 and the call itself are keys of MPI events of the call with the
region's number, as far as the precision of that call lets the size through. -/
theorem ipmIoKey_misread :
    ¬ (IoReadsBack callMask region call size ∧ IoInjective callMask region call size ∧
        IoSeparated callMask region call size) ∧
      ((keyRegion (ipmIoKey callMask region call size) : Int) = region ↔ region = 0) ∧
      (keyCall (ipmIoKey callMask region call size) = call ↔ (call : Int) = region) ∧
      ipmIoKey callMask region call size &&& keyMaskIobyte ≠ ioMaskedSize callMask call size ∧
      IoInjective callMask region call size ∧
      (IoSeparated callMask region call size ↔
        region = 0 ∨ (call : Int) = region ∨
          maskedSize callMask region.toNat (ioMaskedSize callMask call size % 2 ^ 31 : Nat) ≠
            ioMaskedSize callMask call size % 2 ^ 31) := by
  have shown : (keyCall (ipmIoKey callMask region call size) : Int) = region :=
    keyCall_ipmIoKey ok
  have named := ok.named
  refine ⟨fun promised => not_ioReadsBack ok promised.1, ?_, ?_, ?_, ioInjective ok,
    ioSeparated_iff ok⟩
  · rw [keyRegion_ipmIoKey ok]
    exact eq_comm
  · omega
  · rw [keyMaskIobyte_ipmIoKey ok]
    omega

end IoKey

/-- A `write` of 4096 bytes with call 2 in region 1, at full precision, is one. -/
theorem ipmIoKey_misread_write :
    let mask := fun _ => callMaskBprec
    ¬ (IoReadsBack mask 1 2 4096 ∧ IoInjective mask 1 2 4096 ∧ IoSeparated mask 1 2 4096) :=
  (ipmIoKey_misread (by decide)).1

/-- It is not read back: `KEY_CALL` returns 1. -/
theorem ioReadsBack_write :
    let mask := fun _ => callMaskBprec
    ¬ (IoReadsBack mask 1 2 4096 ∧ IoInjective mask 1 2 4096 ∧ IoSeparated mask 1 2 4096) := by
  intro mask promised
  exact absurd promised.1.keyCall_eq (by decide)

end Ipm
