import Mathlib.Data.Rat.Defs
import Mathlib.Logic.Function.Basic
import Mathlib.Algebra.Ring.Rat
import Ipm.Lib.Runs
import Ipm.Sizes
import Ipm.Key

/-!
# Regions

The region part of `task` and `ipm_region` (`src/ipm_api.c`), started by
`ipm_init` (`src/ipm_init.c`).

The region arrays are functions of an `Int`, because `region_current` is an `int`
that `ipm_region` sets to -1 when an exit names no region, and its tracing switch
then reads `region_label[-1]` and `region_count[-1]`.

* `lookupRegion_cases`: the three outcomes of the search for a label.
* `ipmRegion_eq_ok`: what a call that does not exit did.
-/

namespace Ipm

/-! ## State -/

/-- The bytes of a string before its terminating zero. -/
abbrev Label := List Char

/-- `!strncmp(tag, label, MAXSIZE_LABEL)`. -/
def sameLabel (tag label : Label) : Bool :=
  tag.take maxsizeLabel == label.take maxsizeLabel

/-- What `strncpy(label, tag, MAXSIZE_LABEL)` leaves in a label. -/
def copyLabel (tag : Label) : Label := tag.take maxsizeLabel

/-- One reading of the clock, the resource usage and the hardware counters. -/
structure Reading where
  wall : Rat
  user : Rat
  sys : Rat
  hpm : Nat → Int

/-- The wall clock alone. -/
def Reading.at (wall : Rat) : Reading := ⟨wall, 0, 0, fun _ => 0⟩

/-- The fields of `task` that `ipm_region` reads and writes, and its
`region_wtime_init`, `region_utime_init` and `region_stime_init`. -/
structure RegionState where
  regionCurrent : Int
  nregion : Nat
  label : Int → Label
  count : Int → Nat
  wtime : Int → Rat
  utime : Int → Rat
  stime : Int → Rat
  hpmCount : Int → Nat → Nat → Int
  hpmEventset : Nat
  hpmRegionInit : Nat → Int
  hpmRegionFinal : Nat → Int
  trcNregion : Nat
  trcMaskRegion : Nat → Label
  trcMaskRegionIti : Nat → Int
  trcMaskRegionItf : Nat → Int
  hpmCanceled : Bool
  hpmActive : Bool
  trcActive : Bool
  regionalized : Bool
  wtimeInit : Rat
  utimeInit : Rat
  stimeInit : Rat

/-- What the environment and the start-up tests decide before the first region. -/
structure RegionSettings where
  hpmEventset : Nat
  trcNregion : Nat
  trcMaskRegion : Nat → Label
  trcMaskRegionIti : Nat → Int
  trcMaskRegionItf : Nat → Int
  hpmCanceled : Bool
  hpmActive : Bool
  trcActive : Bool

/-- No tracing and no hardware counters. -/
def RegionSettings.plain : RegionSettings where
  hpmEventset := 0
  trcNregion := 0
  trcMaskRegion := fun _ => []
  trcMaskRegionIti := fun _ => 1
  trcMaskRegionItf := fun _ => -1
  hpmCanceled := true
  hpmActive := false
  trcActive := false

/-- `ipm_init`, at wall clock time `stamp`. -/
def ipmInit (env : RegionSettings) (stamp : Rat) : RegionState where
  regionCurrent := 0
  nregion := 0
  label := fun _ => []
  count := fun _ => 0
  wtime := fun _ => 0
  utime := fun _ => 0
  stime := fun _ => 0
  hpmCount := fun _ _ _ => 0
  hpmEventset := env.hpmEventset
  hpmRegionInit := fun _ => 0
  hpmRegionFinal := fun _ => 0
  trcNregion := env.trcNregion
  trcMaskRegion := env.trcMaskRegion
  trcMaskRegionIti := env.trcMaskRegionIti
  trcMaskRegionItf := env.trcMaskRegionItf
  hpmCanceled := env.hpmCanceled
  hpmActive := env.hpmActive
  trcActive := env.trcActive
  regionalized := false
  wtimeInit := stamp
  utimeInit := 0
  stimeInit := 0

/-- A call of `ipm_region`, with what it reads on entry and before it returns. -/
structure RegionCall where
  io : Int
  tag : Label
  enter : Reading
  leave : Reading

/-- How `ipm_region` exits the program. -/
inductive RegionStop
  | tooManyRegions
  | incorrectIo
  deriving DecidableEq, Repr

/-! ## `ipm_region` -/

namespace RegionState

/-- The state captured on entry. -/
def capture (t : RegionState) (now : Reading) : RegionState :=
  { t with hpmRegionFinal := if t.hpmCanceled then t.hpmRegionFinal else now.hpm }

/-- The search for a label among the first `n` regions: the last index that has
it, or -1. -/
def findUpTo (t : RegionState) (tag : Label) (n : Nat) : Int :=
  (List.range n).foldl
    (fun (found : Int) (i : Nat) => if sameLabel tag (t.label i) then (i : Int) else found) (-1)

/-- The search for a label among the regions made so far. -/
def findRegion (t : RegionState) (tag : Label) : Int := t.findUpTo tag t.nregion

/-- Make a region of an unknown label. -/
def addRegion (t : RegionState) (tag : Label) : RegionState :=
  { t with
    label := Function.update t.label t.nregion (copyLabel tag)
    nregion := t.nregion + 1 }

/-- `region_tag`: the region of a label, a new one on entry. -/
def lookupRegion (t : RegionState) (io : Int) (tag : Label) :
    Except RegionStop (RegionState × Int) :=
  if t.findRegion tag < 0 ∧ io = 1 then
    if t.nregion < maxsizeRegion then .ok (t.addRegion tag, t.nregion)
    else .error .tooManyRegions
  else .ok (t, t.findRegion tag)

/-- Credit the time and the counts since the last call to the current region. -/
def credit (t : RegionState) (now : Reading) : RegionState :=
  let r := t.regionCurrent
  { t with
    wtime := Function.update t.wtime r (t.wtime r + (now.wall - t.wtimeInit))
    utime := Function.update t.utime r (t.utime r + (now.user - t.utimeInit))
    stime := Function.update t.stime r (t.stime r + (now.sys - t.stimeInit))
    count := Function.update t.count r (t.count r + 1)
    hpmCount :=
      if t.hpmActive then
        Function.update t.hpmCount r (Function.update (t.hpmCount r) t.hpmEventset
          fun i => t.hpmCount r t.hpmEventset i + (t.hpmRegionFinal i - t.hpmRegionInit i))
      else t.hpmCount }

/-- The choice of the next region. -/
def nextRegion (t : RegionState) (io regionTag : Int) : Int :=
  if 0 ≤ t.regionCurrent then
    if regionTag > 0 ∧ io = -1 ∨ regionTag = 0 ∧ io = 1 then 0 else regionTag
  else regionTag

/-- Region `i` of the trace selection asks for this pass through the region. -/
def traces (t : RegionState) (i : Nat) : Bool :=
  sameLabel (t.label t.regionCurrent) (t.trcMaskRegion i) &&
    (t.trcMaskRegionIti i == -1 ||
      toU64 (t.trcMaskRegionIti i) ≤ t.count t.regionCurrent &&
        toU64 (t.trcMaskRegionItf i) ≥ t.count t.regionCurrent)

/-- Switch on tracing if the region is traced. -/
def switchTracing (t : RegionState) : RegionState :=
  { t with trcActive := t.trcActive || (List.range t.trcNregion).any t.traces }

/-- Mark the beginning of the region. -/
def mark (t : RegionState) (now : Reading) : RegionState :=
  { t with
    regionalized := decide (t.regionCurrent > 0)
    wtimeInit := now.wall
    utimeInit := now.user
    stimeInit := now.sys
    hpmRegionInit := if t.hpmCanceled then t.hpmRegionInit else now.hpm }

/-- Leave the current region, if there is one, for the next. -/
def moveTo (t : RegionState) (io regionTag : Int) (now : Reading) : RegionState :=
  { (if 0 ≤ t.regionCurrent then t.credit now else t) with
    regionCurrent := t.nextRegion io regionTag }

/-- Leaving a region makes and renames none. -/
theorem moveTo_regions (t : RegionState) (io regionTag : Int) (now : Reading) :
    (t.moveTo io regionTag now).nregion = t.nregion ∧
      (t.moveTo io regionTag now).label = t.label := by
  unfold moveTo
  split
  · exact ⟨rfl, rfl⟩
  · exact ⟨rfl, rfl⟩

end RegionState

/-- `ipm_region`. -/
def ipmRegion (t : RegionState) (c : RegionCall) : Except RegionStop RegionState := do
  let (t, regionTag) ← (t.capture c.enter).lookupRegion c.io c.tag
  if c.io ≠ 1 ∧ c.io ≠ -1 then .error .incorrectIo
  else .ok (((t.moveTo c.io regionTag c.enter).switchTracing).mark c.leave)

/-! ## What a call did -/

namespace RegionState

variable (t : RegionState)

/-- The labels of the regions found and made so far. -/
def Labelled (tag : Label) : Prop := ∃ i : Nat, i < t.nregion ∧ sameLabel tag (t.label i) = true

instance (tag : Label) : Decidable (t.Labelled tag) :=
  decidable_of_iff (∃ i ∈ List.range t.nregion, sameLabel tag (t.label i) = true)
    (by simp [Labelled])

/-- The search returns a region that has the label, or -1 if none has. -/
theorem findRegion_cases (tag : Label) :
    (∃ i : Nat, t.findRegion tag = i ∧ i < t.nregion ∧ sameLabel tag (t.label i) = true) ∨
      t.findRegion tag = -1 ∧ ¬ t.Labelled tag := by
  have scanned : ∀ n,
      (∃ i : Nat, t.findUpTo tag n = i ∧ i < n ∧ sameLabel tag (t.label i) = true) ∨
        t.findUpTo tag n = -1 ∧ ∀ i : Nat, i < n → sameLabel tag (t.label i) = false := by
    intro n
    induction n with
    | zero => exact Or.inr ⟨rfl, fun i below => absurd below (Nat.not_lt_zero i)⟩
    | succ n ih =>
        have last : t.findUpTo tag (n + 1) =
            if sameLabel tag (t.label n) then (n : Int) else t.findUpTo tag n := by
          simp only [findUpTo, List.range_succ, List.foldl_append, List.foldl_cons,
            List.foldl_nil]
        rw [last]
        by_cases here : sameLabel tag (t.label n) = true
        · rw [if_pos here]
          exact Or.inl ⟨n, rfl, Nat.lt_succ_self n, here⟩
        · rw [if_neg here]
          rcases ih with ⟨i, found, below, same⟩ | ⟨none, others⟩
          · exact Or.inl ⟨i, found, Nat.lt_succ_of_lt below, same⟩
          · refine Or.inr ⟨none, fun i below => ?_⟩
            rcases Nat.lt_succ_iff_lt_or_eq.mp below with earlier | rfl
            · exact others i earlier
            · exact Bool.eq_false_iff.mpr here
  rcases scanned t.nregion with found | ⟨none, others⟩
  · exact Or.inl found
  · refine Or.inr ⟨none, ?_⟩
    intro given
    rcases given with ⟨i, below, same⟩
    rw [others i below] at same
    cases same

/-- The three outcomes of the search: a known label, the exit of an unknown
one, or a new region. -/
theorem lookupRegion_cases {t m : RegionState} {io regionTag : Int} {tag : Label}
    (h : t.lookupRegion io tag = .ok (m, regionTag)) :
    (∃ i : Nat, regionTag = i ∧ i < t.nregion ∧ sameLabel tag (t.label i) = true ∧ m = t) ∨
      (regionTag = -1 ∧ io ≠ 1 ∧ ¬ t.Labelled tag ∧ m = t) ∨
      (regionTag = t.nregion ∧ io = 1 ∧ ¬ t.Labelled tag ∧ t.nregion < maxsizeRegion ∧
        m = t.addRegion tag) := by
  unfold lookupRegion at h
  rcases t.findRegion_cases tag with ⟨i, found, below, same⟩ | ⟨none, unknown⟩
  · left
    rw [if_neg (by omega)] at h
    cases h
    exact ⟨i, found, below, same, rfl⟩
  · right
    by_cases entering : io = 1
    · right
      rw [if_pos ⟨by omega, entering⟩] at h
      split at h
      · rename_i room
        cases h
        exact ⟨rfl, entering, unknown, room, rfl⟩
      · cases h
    · left
      rw [if_neg (fun both => entering both.2)] at h
      cases h
      exact ⟨none, entering, unknown, rfl⟩

end RegionState

theorem ipmRegion_eq_ok {t t' : RegionState} {c : RegionCall} (h : ipmRegion t c = .ok t') :
    (c.io = 1 ∨ c.io = -1) ∧ ∃ m regionTag,
      (t.capture c.enter).lookupRegion c.io c.tag = .ok (m, regionTag) ∧
        t' = ((m.moveTo c.io regionTag c.enter).switchTracing).mark c.leave := by
  obtain ⟨⟨m, regionTag⟩, found, rest⟩ := Runs.bind_eq_ok h
  by_cases incorrect : c.io ≠ 1 ∧ c.io ≠ -1
  · simp only [if_pos incorrect, reduceCtorEq] at rest
  · simp only [if_neg incorrect] at rest
    cases rest
    exact ⟨by omega, m, regionTag, found, rfl⟩

/-- `IPM_REGIONALIZED` says whether a region other than 0 is current. -/
theorem ipmRegion_regionalized {t t' : RegionState} {c : RegionCall}
    (h : ipmRegion t c = .ok t') : t'.regionalized = decide (t'.regionCurrent > 0) := by
  obtain ⟨-, m, regionTag, -, rfl⟩ := ipmRegion_eq_ok h
  rfl

end Ipm
