import Ipm.Region.State

/-!
# Safety of the region index

* `RegionsOk`: the labels are distinct and not too many, which every call keeps
  (`ipmRegion_regionsOk`).
* `ipmRegion_regionCurrent`: where a call leaves `region_current`.
* `region_indexSafe_iff`: in a run from `ipm_init` and the first entry of
  `ipm_noregion`, `region_current` indexes an existing region throughout exactly
  when no exit names an unknown label.  Such an exit sets it to -1.
-/

namespace Ipm

/-! ## Labels -/

theorem sameLabel_iff {tag label : Label} :
    sameLabel tag label = true ↔ tag.take maxsizeLabel = label.take maxsizeLabel := by
  rw [sameLabel, beq_iff_eq]

theorem sameLabel_comm (tag label : Label) : sameLabel tag label = sameLabel label tag := by
  rw [Bool.eq_iff_iff, sameLabel_iff, sameLabel_iff, eq_comm]

/-- A stored label compares like the string it was copied from. -/
@[simp] theorem sameLabel_copyLabel (tag label : Label) :
    sameLabel (copyLabel tag) label = sameLabel tag label := by
  rw [Bool.eq_iff_iff, sameLabel_iff, sameLabel_iff, copyLabel, List.take_take, Nat.min_self]

/-- The regions made so far have distinct labels, and the arrays have room. -/
structure RegionsOk (t : RegionState) : Prop where
  nregion_le : t.nregion ≤ maxsizeRegion
  distinct : ∀ i j : Nat, i < j → j < t.nregion → sameLabel (t.label i) (t.label j) = false

theorem RegionState.addRegion_label (t : RegionState) (tag : Label) :
    (t.addRegion tag).label t.nregion = copyLabel tag ∧
      ∀ i : Nat, i < t.nregion → (t.addRegion tag).label i = t.label i := by
  refine ⟨Function.update_self _ _ _, fun i below => Function.update_of_ne ?_ _ _⟩
  omega

theorem RegionsOk.addRegion {t : RegionState} {tag : Label} (regions : RegionsOk t)
    (unknown : ¬ t.Labelled tag) (room : t.nregion < maxsizeRegion) :
    RegionsOk (t.addRegion tag) := by
  obtain ⟨new, old⟩ := t.addRegion_label tag
  refine ⟨room, fun i j less below => ?_⟩
  rw [old i (by change j < t.nregion + 1 at below; omega)]
  rcases Nat.lt_succ_iff_lt_or_eq.mp below with earlier | rfl
  · rw [old j earlier]
    exact regions.distinct i j less earlier
  · rw [new, sameLabel_comm, sameLabel_copyLabel]
    exact Bool.eq_false_iff.mpr fun same => unknown ⟨i, less, same⟩

/-- The number and the labels of the regions after a call. -/
theorem ipmRegion_regions {t t' : RegionState} {c : RegionCall} (h : ipmRegion t c = .ok t') :
    (t'.nregion = t.nregion ∧ t'.label = t.label ∧ (c.io = 1 → t.Labelled c.tag)) ∨
      (t'.nregion = t.nregion + 1 ∧ t'.label = (t.addRegion c.tag).label ∧ c.io = 1 ∧
        ¬ t.Labelled c.tag ∧ t.nregion < maxsizeRegion) := by
  obtain ⟨-, m, regionTag, found, rfl⟩ := ipmRegion_eq_ok h
  have moved := m.moveTo_regions c.io regionTag c.enter
  change ((m.moveTo c.io regionTag c.enter).nregion = _ ∧
      (m.moveTo c.io regionTag c.enter).label = _ ∧ _) ∨
    ((m.moveTo c.io regionTag c.enter).nregion = _ ∧
      (m.moveTo c.io regionTag c.enter).label = _ ∧ _)
  rw [moved.1, moved.2]
  rcases RegionState.lookupRegion_cases found with ⟨i, -, below, same, rfl⟩ |
    ⟨-, exiting, -, rfl⟩ | ⟨-, entering, unknown, room, rfl⟩
  · exact Or.inl ⟨rfl, rfl, fun _ => ⟨i, below, same⟩⟩
  · exact Or.inl ⟨rfl, rfl, fun entering => absurd entering exiting⟩
  · exact Or.inr ⟨rfl, rfl, entering, unknown, room⟩

theorem ipmRegion_nregion_le {t t' : RegionState} {c : RegionCall}
    (h : ipmRegion t c = .ok t') : t.nregion ≤ t'.nregion := by
  rcases ipmRegion_regions h with ⟨same, -⟩ | ⟨more, -⟩ <;> omega

theorem ipmRegion_regionsOk {t t' : RegionState} {c : RegionCall} (regions : RegionsOk t)
    (h : ipmRegion t c = .ok t') : RegionsOk t' := by
  rcases ipmRegion_regions h with ⟨nregion, label, -⟩ | ⟨nregion, label, -, unknown, room⟩
  · constructor
    · rw [nregion]
      exact regions.nregion_le
    · rw [nregion, label]
      exact regions.distinct
  · have added := regions.addRegion unknown room
    constructor
    · rw [nregion]
      exact added.nregion_le
    · rw [nregion, label]
      exact added.distinct

/-- Every label ends inside its array. -/
def RegionState.ShortLabels (t : RegionState) : Prop :=
  ∀ i : Nat, (t.label i).length < maxsizeLabel

/-- A call with a short label keeps them short. -/
theorem ipmRegion_shortLabels {t t' : RegionState} {c : RegionCall} (short : t.ShortLabels)
    (tag : c.tag.length < maxsizeLabel) (h : ipmRegion t c = .ok t') : t'.ShortLabels := by
  intro i
  rcases ipmRegion_regions h with ⟨-, label, -⟩ | ⟨-, label, -⟩
  · rw [label]
    exact short i
  · rw [label, RegionState.addRegion]
    dsimp only
    rcases eq_or_ne (i : Int) t.nregion with new | old
    · rw [new, Function.update_self]
      exact Nat.lt_of_le_of_lt (List.length_take_le' _ _) tag
    · rw [Function.update_of_ne old]
      exact short i

/-! ## The current region -/

/-- An exit names a region made before. -/
def RegionCall.Known (t : RegionState) (c : RegionCall) : Prop :=
  c.io = -1 → t.Labelled c.tag

/-- Where a call leaves `region_current`: entering a region other than 0 makes it
current, the exit of an unknown label leaves -1, and everything else leads to
region 0, unless there was no current region. -/
theorem ipmRegion_regionCurrent {t t' : RegionState} {c : RegionCall}
    (h : ipmRegion t c = .ok t') :
    (∃ i : Nat, i < t'.nregion ∧ sameLabel c.tag (t'.label i) = true ∧ c.Known t ∧
      (t'.regionCurrent = i ∨ t'.regionCurrent = 0)) ∨
    (t'.regionCurrent = -1 ∧ ¬ c.Known t) := by
  obtain ⟨io, m, regionTag, found, rfl⟩ := ipmRegion_eq_ok h
  have next : ((m.moveTo c.io regionTag c.enter).switchTracing.mark c.leave).regionCurrent =
      m.nextRegion c.io regionTag := rfl
  have regions : ((m.moveTo c.io regionTag c.enter).switchTracing.mark c.leave).nregion =
        m.nregion ∧
      ((m.moveTo c.io regionTag c.enter).switchTracing.mark c.leave).label = m.label :=
    m.moveTo_regions c.io regionTag c.enter
  have orZero : m.nextRegion c.io regionTag = regionTag ∨
      m.nextRegion c.io regionTag = 0 := by
    unfold RegionState.nextRegion
    split_ifs
    · exact Or.inr rfl
    · exact Or.inl rfl
    · exact Or.inl rfl
  rw [next, regions.1, regions.2]
  rcases RegionState.lookupRegion_cases found with ⟨i, rfl, below, same, rfl⟩ |
    ⟨rfl, exiting, unknown, rfl⟩ | ⟨rfl, entering, unknown, room, rfl⟩
  · exact Or.inl ⟨i, below, same, fun _ => ⟨i, below, same⟩, orZero⟩
  · refine Or.inr ⟨?_, fun known => unknown (known (io.resolve_left exiting))⟩
    unfold RegionState.nextRegion
    split_ifs <;> omega
  · refine Or.inl ⟨t.nregion, Nat.lt_succ_self _, ?_, fun exiting => by omega, orZero⟩
    have label : ((t.capture c.enter).addRegion c.tag).label t.nregion = copyLabel c.tag :=
      (RegionState.addRegion_label (t.capture c.enter) c.tag).1
    rw [label, sameLabel_comm, sameLabel_copyLabel, sameLabel_iff]

/-! ## Runs -/

/-- The label of the region `MPI_Init` enters. -/
def noregion : Label := "ipm_noregion".toList

/-- `region_current` indexes an existing region, in the arrays and in the keys of
the events logged next. -/
structure IndexSafe (t : RegionState) : Prop extends RegionsOk t where
  regionCurrent_nonneg : 0 ≤ t.regionCurrent
  regionCurrent_lt : t.regionCurrent < t.nregion
  keyRegion_lt : ∀ callMask call rank size, FieldsOk (t.regionCurrent % 256) call rank size →
    keyRegion (ipmMpiKey callMask t.regionCurrent call rank size) < t.nregion

theorem RegionsOk.indexSafe {t : RegionState} (regions : RegionsOk t)
    (nonneg : 0 ≤ t.regionCurrent) (less : t.regionCurrent < t.nregion) : IndexSafe t := by
  refine ⟨regions, nonneg, less, fun callMask call rank size fields => ?_⟩
  have decoded : (keyRegion (ipmMpiKey callMask t.regionCurrent call rank size) : Int) =
      t.regionCurrent % 256 := by
    rw [ipmMpiKey_emod]
    exact keyRegion_ipmMpiKey fields
  have bound := regions.nregion_le
  unfold maxsizeRegion at bound
  omega

theorem ipmInit_regionsOk (env : RegionSettings) (stamp : Rat) :
    RegionsOk (ipmInit env stamp) :=
  ⟨Nat.zero_le _, fun _ j _ below => absurd below (Nat.not_lt_zero j)⟩

/-- A call whose exit is known leaves a safe index. -/
theorem ipmRegion_indexSafe {t t' : RegionState} {c : RegionCall} (regions : RegionsOk t)
    (known : c.Known t) (h : ipmRegion t c = .ok t') : IndexSafe t' := by
  rcases ipmRegion_regionCurrent h with ⟨i, below, -, -, current⟩ | ⟨-, unknown⟩
  · refine (ipmRegion_regionsOk regions h).indexSafe ?_ ?_ <;> omega
  · exact absurd known unknown

/-- Index safety over runs.  From `ipm_init` and the entry of `ipm_noregion`,
the index is safe after every call exactly when every exit names a known label. -/
theorem region_indexSafe_iff (env : RegionSettings) (stamp : Rat) (enter leave : Reading)
    (calls : List RegionCall) (t₀ u : RegionState)
    (start : ipmRegion (ipmInit env stamp) ⟨1, noregion, enter, leave⟩ = .ok t₀)
    (ok : Runs.run ipmRegion t₀ calls = .ok u) :
    (∀ t, Runs.Reached ipmRegion t₀ calls t → IndexSafe t) ↔
      ∀ t c, Runs.Visit ipmRegion t₀ calls t c → c.Known t := by
  refine Runs.forall_reached_iff_forall_visit (I := IndexSafe) ?init ?keep id ?break_ ok
  case init =>
    refine ipmRegion_indexSafe (ipmInit_regionsOk env stamp) (fun exiting => ?_) start
    exact absurd exiting (show ¬ (1 : Int) = -1 by decide)
  case keep =>
    intro t c t' safe known stepped
    exact ipmRegion_indexSafe safe.toRegionsOk known stepped
  case break_ =>
    intro t c t' safe unknown stepped safe'
    rcases ipmRegion_regionCurrent stepped with ⟨i, -, -, known, -⟩ | ⟨none, -⟩
    · exact unknown known
    · have := safe'.regionCurrent_nonneg
      omega

/-- The entry of `ipm_noregion` when `MPI_Init` returns. -/
def firstCall : RegionCall := ⟨1, noregion, .at 1, .at 2⟩

/-- One region entered from within another, and both exits. -/
def nestedCalls : List RegionCall :=
  [⟨1, ['a'], .at 3, .at 4⟩, ⟨1, ['b'], .at 5, .at 6⟩, ⟨-1, ['b'], .at 7, .at 8⟩,
    ⟨-1, ['a'], .at 9, .at 10⟩]

theorem region_indexSafe_nested :
    ∃ t₀ u, ipmRegion (ipmInit .plain 0) firstCall = .ok t₀ ∧
      Runs.run ipmRegion t₀ nestedCalls = .ok u ∧
      ((∀ t, Runs.Reached ipmRegion t₀ nestedCalls t → IndexSafe t) ↔
        ∀ t c, Runs.Visit ipmRegion t₀ nestedCalls t c → c.Known t) :=
  ⟨_, _, rfl, rfl, region_indexSafe_iff .plain 0 (.at 1) (.at 2) nestedCalls _ _ rfl rfl⟩

/-- The exit of a label never entered leaves `region_current` at -1, and the next
event is logged under region 255 although there is one region. -/
theorem unmatched_exit_unsafe :
    ∃ t₀ t, ipmRegion (ipmInit .plain 0) firstCall = .ok t₀ ∧
      ipmRegion t₀ ⟨-1, ['x'], .at 3, .at 4⟩ = .ok t ∧ t.regionCurrent = -1 ∧
      t.nregion = 1 ∧
      keyRegion (ipmMpiKey (fun _ => callMaskBprec) t.regionCurrent 1 0 8) = 255 ∧
      ¬ IndexSafe t := by
  refine ⟨_, _, rfl, rfl, rfl, rfl, by decide, fun safe => ?_⟩
  exact absurd safe.regionCurrent_nonneg (by decide)

end Ipm
