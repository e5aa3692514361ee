import Mathlib.Algebra.BigOperators.Fin
import Ipm.Lib.Shares
import Ipm.Region.Safety

/-!
# Accounting of region times

`ipm_region` credits the time since the last call to the current region, if there
is one.

* `credited_iff`: a call credits an existing region exactly when the index it finds
  is one.
* `run_totals`: what credited calls leave in the regions adds up.
* `region_accounting_iff`: a run from `ipm_init` accounts for every interval
  exactly when it begins with an entry and no call follows the exit of an unknown
  label.
-/

namespace Ipm

/-! ## One call -/

/-- A call adds the time since the last one to the current region, which exists,
and counts a pass through it. -/
def Credited (t : RegionState) (c : RegionCall) (t' : RegionState) : Prop :=
  ∃ r : Nat, t.regionCurrent = r ∧ r < t'.nregion ∧
    t'.wtime = Function.update t.wtime r (t.wtime r + (c.enter.wall - t.wtimeInit)) ∧
    t'.count = Function.update t.count r (t.count r + 1)

/-- The region arrays after a call. -/
theorem ipmRegion_credit {t t' : RegionState} {c : RegionCall} (h : ipmRegion t c = .ok t') :
    t'.wtimeInit = c.leave.wall ∧
      if 0 ≤ t.regionCurrent then
        t'.wtime = Function.update t.wtime t.regionCurrent
            (t.wtime t.regionCurrent + (c.enter.wall - t.wtimeInit)) ∧
          t'.count = Function.update t.count t.regionCurrent (t.count t.regionCurrent + 1)
      else t'.wtime = t.wtime ∧ t'.count = t.count := by
  obtain ⟨-, m, regionTag, found, rfl⟩ := ipmRegion_eq_ok h
  have kept : m.regionCurrent = t.regionCurrent ∧ m.wtime = t.wtime ∧ m.count = t.count ∧
      m.wtimeInit = t.wtimeInit := by
    rcases RegionState.lookupRegion_cases found with ⟨i, -, -, -, rfl⟩ | ⟨-, -, -, rfl⟩ |
      ⟨-, -, -, -, rfl⟩ <;> exact ⟨rfl, rfl, rfl, rfl⟩
  obtain ⟨current, wtime, count, wtimeInit⟩ := kept
  refine ⟨rfl, ?_⟩
  rw [← current, ← wtime, ← count, ← wtimeInit]
  by_cases nonneg : 0 ≤ m.regionCurrent
  · have moved : (m.moveTo c.io regionTag c.enter).wtime = (m.credit c.enter).wtime ∧
        (m.moveTo c.io regionTag c.enter).count = (m.credit c.enter).count := by
      rw [RegionState.moveTo, if_pos nonneg]
      exact ⟨rfl, rfl⟩
    rw [if_pos nonneg]
    exact moved
  · have moved : (m.moveTo c.io regionTag c.enter).wtime = m.wtime ∧
        (m.moveTo c.io regionTag c.enter).count = m.count := by
      rw [RegionState.moveTo, if_neg nonneg]
      exact ⟨rfl, rfl⟩
    rw [if_neg nonneg]
    exact moved

theorem credited_iff {t t' : RegionState} {c : RegionCall} (h : ipmRegion t c = .ok t') :
    Credited t c t' ↔ 0 ≤ t.regionCurrent ∧ t.regionCurrent < t'.nregion := by
  obtain ⟨-, credit⟩ := ipmRegion_credit h
  constructor
  · intro given
    rcases given with ⟨r, current, below, -⟩
    omega
  · intro given
    rcases given with ⟨nonneg, below⟩
    rw [if_pos nonneg] at credit
    obtain ⟨r, current⟩ := Int.eq_ofNat_of_zero_le nonneg
    rw [current] at credit below
    exact ⟨r, current, by omega, credit⟩

/-! ## Totals -/

/-- The intervals between the calls of a run, the first one since `stamp`. -/
def intervals (stamp : Rat) : List RegionCall → List Rat
  | [] => []
  | c :: calls => (c.enter.wall - stamp) :: intervals c.leave.wall calls

/-- The regions not made yet have no time and no count. -/
def Unused (t : RegionState) : Prop :=
  ∀ r : Nat, t.nregion ≤ r → t.wtime r = 0 ∧ t.count r = 0

/-- Crediting one of the regions, the last of which may be new, adds to the total. -/
theorem sum_credit {M : Type*} [AddCommMonoid M] {f f' : Int → M} {n n' r : Nat} {s : M}
    (grow : n ≤ n') (unused : ∀ i : Nat, n ≤ i → f i = 0) (slot : r < n')
    (credit : f' = Function.update f r (f r + s)) :
    ∑ i ∈ Finset.range n', f' (i : Nat) = ∑ i ∈ Finset.range n, f (i : Nat) + s := by
  have given : (fun i : Nat => f' i) = Shares.give (fun i : Nat => f i) r s := by
    rw [credit]
    exact Function.update_comp_eq_of_injective f (fun _ _ same => Int.ofNat_inj.mp same) r _
  have shared := Shares.sum_give (Finset.mem_range.mpr slot) (fun i : Nat => f i) s
  rw [← given] at shared
  rw [shared]
  congr 1
  refine (Finset.sum_subset (Finset.range_subset_range.mpr grow) fun i _ out => ?_).symm
  exact unused i (Nat.le_of_not_lt fun below => out (Finset.mem_range.mpr below))

theorem Credited.unused {t t' : RegionState} {c : RegionCall} (credited : Credited t c t')
    (h : ipmRegion t c = .ok t') (unused : Unused t) : Unused t' := by
  obtain ⟨r, -, slot, wtime, count⟩ := credited
  intro i beyond
  have apart : (i : Int) ≠ r := by omega
  rw [wtime, count, Function.update_of_ne apart, Function.update_of_ne apart]
  exact unused i ((ipmRegion_nregion_le h).trans beyond)

/-- What credited calls leave in the regions adds up to the intervals between
them, and to their number. -/
theorem run_totals {calls : List RegionCall} {t u : RegionState} (unused : Unused t)
    (credited : ∀ v c v', Runs.Visit ipmRegion t calls v c → ipmRegion v c = .ok v' →
      Credited v c v')
    (ok : Runs.run ipmRegion t calls = .ok u) :
    ∑ r ∈ Finset.range u.nregion, u.wtime (r : Nat) =
        ∑ r ∈ Finset.range t.nregion, t.wtime (r : Nat) + (intervals t.wtimeInit calls).sum ∧
      ∑ r ∈ Finset.range u.nregion, u.count (r : Nat) =
        ∑ r ∈ Finset.range t.nregion, t.count (r : Nat) + calls.length := by
  induction calls generalizing t with
  | nil =>
      cases ok
      simp [intervals]
  | cons c calls ih =>
      obtain ⟨t', stepped, rest⟩ := Runs.run_cons_eq_ok ok
      have first := credited t c t' (Runs.Visit.head t c calls) stepped
      obtain ⟨wtime, count⟩ := ih (first.unused stepped unused)
        (fun v d v' visit => credited v d v' (visit.tail stepped)) rest
      obtain ⟨r, -, slot, addTime, addCount⟩ := first
      have grow := ipmRegion_nregion_le stepped
      rw [wtime, count, sum_credit grow (fun i out => (unused i out).1) slot addTime,
        sum_credit grow (fun i out => (unused i out).2) slot addCount,
        (ipmRegion_credit stepped).1]
      rw [intervals, List.sum_cons, List.length_cons]
      exact ⟨add_assoc _ _ _, by omega⟩

/-! ## Runs -/

/-- A run from `ipm_init` accounts for its intervals: each is credited to one
existing region, the current one, and the regions' times and counts add up. -/
structure RunAccounted (env : RegionSettings) (stamp : Rat) (calls : List RegionCall)
    (u : RegionState) : Prop where
  credited : ∀ t c t', Runs.Visit ipmRegion (ipmInit env stamp) calls t c →
    ipmRegion t c = .ok t' → Credited t c t'
  wtime_sum : ∑ r ∈ Finset.range u.nregion, u.wtime (r : Nat) = (intervals stamp calls).sum
  count_sum : ∑ r ∈ Finset.range u.nregion, u.count (r : Nat) = calls.length

/-- Accounting over runs.  Every interval of a run from `ipm_init` is credited
exactly when the first call is an entry and every call but the last, if it is an
exit, names a known label. -/
theorem region_accounting_iff (env : RegionSettings) (stamp : Rat) (calls : List RegionCall)
    (u : RegionState) (ok : Runs.run ipmRegion (ipmInit env stamp) calls = .ok u) :
    RunAccounted env stamp calls u ↔
      (∀ c, calls.head? = some c → c.io = 1) ∧
        ∀ t c, Runs.Visit ipmRegion (ipmInit env stamp) calls.dropLast t c → c.Known t := by
  have unused : Unused (ipmInit env stamp) := fun _ _ => ⟨rfl, rfl⟩
  constructor
  · intro accounted
    constructor
    · intro c isHead
      obtain ⟨rest, rfl⟩ := List.head?_eq_some_iff.mp isHead
      obtain ⟨t', stepped, -⟩ := Runs.run_cons_eq_ok ok
      obtain ⟨r, -, slot, -⟩ := accounted.credited _ c t' (Runs.Visit.head _ c rest) stepped
      -- the first call made a region, so it is an entry
      rcases ipmRegion_regions stepped with ⟨same, -⟩ | ⟨-, -, entering, -⟩
      · rw [same] at slot
        exact absurd slot (Nat.not_lt_zero r)
      · exact entering
    · intro t c visit
      obtain ⟨t', stepped, -⟩ := Runs.Visit.next ok (visit.of_prefix (List.dropLast_prefix calls))
      obtain ⟨d, visit'⟩ := visit.followed stepped
      obtain ⟨t'', stepped', -⟩ := Runs.Visit.next ok visit'
      obtain ⟨r, current, -⟩ := accounted.credited t' d t'' visit' stepped'
      rcases ipmRegion_regionCurrent stepped with ⟨-, -, -, known, -⟩ | ⟨none, -⟩
      · exact known
      · omega
  · intro given
    rcases given with ⟨entry, known⟩
    have credited : ∀ t c t', Runs.Visit ipmRegion (ipmInit env stamp) calls t c →
        ipmRegion t c = .ok t' → Credited t c t' := by
      intro t c t' visit stepped
      rw [credited_iff stepped]
      rcases visit.cases with ⟨rfl, isHead⟩ | ⟨v, d, before, arrived⟩
      · refine ⟨Int.le_refl 0, ?_⟩
        rcases ipmRegion_regions stepped with ⟨-, -, labelled⟩ | ⟨more, -⟩
        · obtain ⟨i, below, -⟩ := labelled (entry c isHead)
          exact absurd below (Nat.not_lt_zero i)
        · change (0 : Int) < t'.nregion
          omega
      · have grow := ipmRegion_nregion_le stepped
        rcases ipmRegion_regionCurrent arrived with ⟨i, below, -, -, current⟩ | ⟨-, unknown⟩
        · omega
        · exact absurd (known v d before) unknown
    have totals := run_totals unused credited ok
    have none : (ipmInit env stamp).nregion = 0 := rfl
    rw [none, Finset.sum_range_zero, Finset.sum_range_zero, zero_add, Nat.zero_add] at totals
    exact ⟨credited, totals.1, totals.2⟩

theorem region_accounting_nested :
    ∃ u, Runs.run ipmRegion (ipmInit .plain 0) (firstCall :: nestedCalls) = .ok u ∧
      (RunAccounted .plain 0 (firstCall :: nestedCalls) u ↔
        (∀ c, (firstCall :: nestedCalls).head? = some c → c.io = 1) ∧
          ∀ t c, Runs.Visit ipmRegion (ipmInit .plain 0) (firstCall :: nestedCalls).dropLast t c →
            c.Known t) :=
  ⟨_, rfl, region_accounting_iff .plain 0 _ _ rfl⟩

/-- The exit of a label never entered, and a later entry. -/
def unmatchedCalls : List RegionCall :=
  [firstCall, ⟨-1, ['x'], .at 4, .at 5⟩, ⟨1, ['a'], .at 8, .at 9⟩]

/-- After the exit of a label never entered, the time up to the next call and the
call itself are credited to no region. -/
theorem unmatched_exit_unaccounted :
    ∃ u, Runs.run ipmRegion (ipmInit .plain 0) unmatchedCalls = .ok u ∧
      ∑ r ∈ Finset.range u.nregion, u.wtime (r : Nat) = 3 ∧
      (intervals 0 unmatchedCalls).sum = 6 ∧ ¬ RunAccounted .plain 0 unmatchedCalls u := by
  refine ⟨_, rfl, by decide +kernel, by decide +kernel, fun accounted => ?_⟩
  exact absurd accounted.count_sum (by decide +kernel)

end Ipm
