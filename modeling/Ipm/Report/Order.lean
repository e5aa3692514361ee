import Mathlib.GroupTheory.Perm.Finite
import Mathlib.Algebra.Order.Ring.Rat
import Ipm.Lib.ExchangeSort

/-!
# The order of the regions in the report

`index_doubles` sorts all MAXSIZE_REGION regions by their wall time, the longest first,
and `ipm_report` takes as many from the front as the task has regions.  The array `idx`
is kept as the permutation it always is.

* `indexDoubles_lt`, `indexDoubles_surj`: if no wall time is negative, and those of the
  unused regions are zero, the front is exactly the regions of the task, also where the
  wall time of one of them is zero.
-/

namespace Ipm

open ExchangeSort

/-- The sort of the positions `0` to `n - 1`. -/
def indexDoubles (n : Nat) (val : Nat → Rat) : Equiv.Perm Nat := sort (List.range n) val

/-- What stands where after `m` passes. -/
def passes (n : Nat) (val : Nat → Rat) (m : Nat) : Equiv.Perm Nat :=
  (List.range m).foldl (ExchangeSort.pass (List.range n) val) 1

theorem passes_succ (n : Nat) (val : Nat → Rat) (m : Nat) :
    passes n val (m + 1) = ExchangeSort.pass (List.range n) val (passes n val m) m := by
  rw [passes, List.range_succ, List.foldl_append]
  rfl

section

variable {n k : Nat} {val : Nat → Rat} {idx : Equiv.Perm Nat} {i j : Nat}

/-! ## One exchange -/

/-- Nothing moves at `m` and behind it. -/
def Fixes (m : Nat) (idx : Equiv.Perm Nat) : Prop := ∀ p, m ≤ p → idx p = p

theorem Fixes.lt {m p : Nat} (fixes : Fixes m idx) (below : p < m) : idx p < m := by
  by_contra out
  have same := idx.injective (fixes (idx p) (Nat.le_of_not_lt out))
  omega

theorem Fixes.symm_lt {m p : Nat} (fixes : Fixes m idx) (below : p < m) : idx.symm p < m := by
  by_contra out
  have same := fixes (idx.symm p) (Nat.le_of_not_lt out)
  rw [Equiv.apply_symm_apply] at same
  omega

/-- Exchanges among the first positions. -/
theorem Fixes.foldl_exchange {m : Nat} {l : List Nat} (fixes : Fixes m idx) (iBelow : i < m)
    (inside : ∀ j ∈ l, j < m) : Fixes m (l.foldl (exchange val i) idx) := by
  intro p above
  have notI : p ≠ i := by omega
  rw [foldl_exchange_of_notMem notI fun mem => Nat.not_lt.mpr above (inside p mem), fixes p above]

theorem Fixes.pass (fixes : Fixes n idx) (iBelow : i < n) :
    Fixes n (ExchangeSort.pass (List.range n) val idx i) :=
  fixes.foldl_exchange iBelow fun _ mem => List.mem_range.mp mem

/-- With zero at `i` nothing is exchanged. -/
theorem foldl_exchange_zero (nonneg : ∀ x, 0 ≤ val x) (zero : val (idx i) = 0) (l : List Nat) :
    l.foldl (exchange val i) idx = idx :=
  foldl_exchange_of_least fun j _ => zero.trans_le (nonneg (idx j))

/-! ## One pass -/

theorem range_split {b : Nat} (le : b ≤ n) : ∃ l, List.range n = List.range b ++ l := by
  obtain ⟨d, rfl⟩ := Nat.exists_eq_add_of_le le
  exact ⟨_, List.range_add⟩

/-- A pass that meets a zero among the first `b` positions leaves the others alone, and has
zero at `i`. -/
theorem pass_fixes {b u : Nat} (nonneg : ∀ x, 0 ≤ val x) (fixes : Fixes b idx) (le : b ≤ n)
    (iBelow : i < b) (uBelow : u < b) (zero : val u = 0) :
    Fixes b (ExchangeSort.pass (List.range n) val idx i) ∧
      val (ExchangeSort.pass (List.range n) val idx i i) = 0 := by
  obtain ⟨l, split⟩ := range_split le
  have fixes' : Fixes b ((List.range b).foldl (exchange val i) idx) := fixes.pass iBelow
  have atI : val ((List.range b).foldl (exchange val i) idx i) = 0 := by
    have inside := List.mem_range.mpr (fixes'.symm_lt uBelow)
    have least : val ((List.range b).foldl (exchange val i) idx i) ≤ val _ :=
      foldl_exchange_least inside
    rw [Equiv.apply_symm_apply, zero] at least
    exact le_antisymm least (nonneg _)
  rw [ExchangeSort.pass, split, List.foldl_append, foldl_exchange_zero nonneg atI]
  exact ⟨fixes', atI⟩

/-- A pass that begins with zero at `i` does nothing. -/
theorem pass_zero (nonneg : ∀ x, 0 ≤ val x) (zero : val (idx i) = 0) :
    ExchangeSort.pass (List.range n) val idx i = idx :=
  foldl_exchange_zero nonneg zero _

/-! ## A used region with no wall time -/

/-- The unused regions stay where they are. -/
theorem fixes_of_zero_used {u : Nat} (nonneg : ∀ x, 0 ≤ val x) (unused : ∀ x, k ≤ x → val x = 0)
    (le : k ≤ n) (below : u < k) (zero : val u = 0) (m : Nat) :
    Fixes k (passes n val m) := by
  induction m with
  | zero => exact fun p _ => rfl
  | succ m ih =>
      rw [passes_succ]
      by_cases inside : m < k
      · exact (pass_fixes nonneg ih le inside below zero).1
      · have atM : val (passes n val m m) = 0 := by
          rw [ih m (by omega), unused m (by omega)]
        rw [pass_zero nonneg atM]
        exact ih

/-! ## All used regions with some wall time -/

/-- Before position `i`: `c` used regions, then unused ones. -/
structure Front (k i c : Nat) (idx : Equiv.Perm Nat) : Prop where
  used : ∀ p, p < c → idx p < k
  unused : ∀ p, c ≤ p → p < i → k ≤ idx p

/-- Among the used regions in front, the exchanges bring used regions only. -/
theorem Front.upTo (val : Nat → Rat) {c m : Nat} (front : Front k i c idx) (cBelow : c < i)
    (atI : idx i < k) (le : m ≤ c) : Front k i c ((List.range m).foldl (exchange val i) idx) ∧
      (List.range m).foldl (exchange val i) idx i < k := by
  induction m with
  | zero => exact ⟨front, atI⟩
  | succ m ih =>
      obtain ⟨front', atI'⟩ := ih (by omega)
      rw [List.range_succ, List.foldl_append, List.foldl_cons, List.foldl_nil, exchange]
      split
      · refine ⟨⟨fun p below => ?_, fun p from_ to_ => ?_⟩, ?_⟩
        · rw [Equiv.Perm.mul_apply]
          by_cases atM : p = m
          · rw [atM, Equiv.swap_apply_right]
            exact atI'
          · rw [Equiv.swap_apply_of_ne_of_ne (by omega) atM]
            exact front'.used p below
        · rw [Equiv.Perm.mul_apply, Equiv.swap_apply_of_ne_of_ne (by omega) (by omega)]
          exact front'.unused p from_ to_
        · rw [Equiv.Perm.mul_apply, Equiv.swap_apply_left]
          exact front'.used m (by omega)
      · exact ⟨front', atI'⟩

/-- A used region is brought in front of the unused ones. -/
theorem Front.pass {c : Nat} (nonneg : ∀ x, 0 ≤ val x) (unused : ∀ x, k ≤ x → val x = 0)
    (used : ∀ x, x < k → 0 < val x) (front : Front k i c idx) (cBelow : c < i) (iBelow : i < n)
    (atI : idx i < k) :
    Front k (i + 1) (c + 1) (ExchangeSort.pass (List.range n) val idx i) := by
  obtain ⟨front', atI'⟩ := front.upTo val cBelow atI (Nat.le_refl c)
  obtain ⟨l, split⟩ := range_split (show c + 1 ≤ n by omega)
  rw [ExchangeSort.pass, split, List.foldl_append, List.range_succ, List.foldl_append,
    List.foldl_cons, List.foldl_nil]
  generalize (List.range c).foldl (exchange val i) idx = idx' at front' atI'
  -- at position `c` stands the first unused region
  have zeroC := unused _ (front'.unused c (Nat.le_refl c) cBelow)
  have meets : exchange val i idx' c = idx' * Equiv.swap i c := by
    rw [exchange, zeroC, if_pos (used _ atI')]
  have atI'' : val ((idx' * Equiv.swap i c) i) = 0 := by
    rw [Equiv.Perm.mul_apply, Equiv.swap_apply_left, zeroC]
  rw [meets, foldl_exchange_zero nonneg atI'']
  refine ⟨fun p below => ?_, fun p from_ to_ => ?_⟩
  · rw [Equiv.Perm.mul_apply]
    by_cases atC : p = c
    · rw [atC, Equiv.swap_apply_right]
      exact atI'
    · rw [Equiv.swap_apply_of_ne_of_ne (by omega) atC]
      exact front'.used p (by omega)
  · rw [Equiv.Perm.mul_apply]
    by_cases atI : p = i
    · rw [atI, Equiv.swap_apply_left]
      exact front'.unused c (Nat.le_refl c) cBelow
    · rw [Equiv.swap_apply_of_ne_of_ne atI (by omega)]
      exact front'.unused p (by omega) (by omega)

/-- After each pass but the first, the used regions met so far are in front. -/
theorem front_of_used (nonneg : ∀ x, 0 ≤ val x) (unused : ∀ x, k ≤ x → val x = 0)
    (used : ∀ x, x < k → 0 < val x) (below : k < n) {m : Nat} (le : m + 1 ≤ n) :
    ∃ c, c < m + 1 ∧ Front k (m + 1) c (passes n val (m + 1)) ∧
      Fixes n (passes n val (m + 1)) := by
  induction m with
  | zero =>
      have first : Fixes n (passes n val 1) ∧ val (passes n val 1 0) = 0 := by
        rw [passes_succ]
        exact pass_fixes nonneg (fun p _ => rfl) (Nat.le_refl n) (by omega) below
          (unused k (Nat.le_refl k))
      refine ⟨0, Nat.one_pos, ⟨fun p below => by omega, fun p _ to_ => ?_⟩, first.1⟩
      obtain rfl : p = 0 := by omega
      by_contra small
      have pos := used _ (Nat.lt_of_not_le small)
      rw [first.2] at pos
      exact lt_irrefl 0 pos
  | succ m ih =>
      obtain ⟨c, cBelow, front, fixes⟩ := ih (by omega)
      rw [passes_succ]
      generalize passes n val (m + 1) = idx at front fixes ⊢
      by_cases atM : idx (m + 1) < k
      · exact ⟨c + 1, by omega, front.pass nonneg unused used cBelow (by omega) atM,
          fixes.pass (by omega)⟩
      · have zero := unused _ (Nat.le_of_not_lt atM)
        rw [pass_zero nonneg zero]
        refine ⟨c, by omega, ⟨front.used, fun p from_ to_ => ?_⟩, fixes⟩
        by_cases last : p = m + 1
        · rw [last]
          exact Nat.le_of_not_lt atM
        · exact front.unused p from_ (by omega)

/-! ## The front -/

theorem fixes_passes (le : k ≤ n) : Fixes n (passes n val k) := by
  induction k with
  | zero => exact fun p _ => rfl
  | succ k ih =>
      rw [passes_succ]
      exact (ih (by omega)).pass (by omega)

/-- There are as many used regions in front as there are used regions. -/
theorem Front.le {c : Nat} (front : Front k n c idx) (fixes : Fixes n idx) (below : k ≤ n) :
    k ≤ c := by
  have maps : ∀ g ∈ Finset.range k, idx.symm g ∈ Finset.range c := by
    intro g mem
    rw [Finset.mem_range] at mem ⊢
    by_contra behind
    have unused := front.unused _ (Nat.le_of_not_lt behind) (fixes.symm_lt (by omega))
    rw [Equiv.apply_symm_apply] at unused
    omega
  have cards := Finset.card_le_card_of_injOn idx.symm maps idx.symm.injective.injOn
  rwa [Finset.card_range, Finset.card_range] at cards

/-- The front are regions of the task. -/
theorem indexDoubles_lt (nonneg : ∀ x, 0 ≤ val x) (unused : ∀ x, k ≤ x → val x = 0) (le : k ≤ n)
    {p : Nat} (front : p < k) : indexDoubles n val p < k := by
  change passes n val n p < k
  by_cases used : ∀ x, x < k → 0 < val x
  · rcases Nat.lt_or_eq_of_le le with below | rfl
    · obtain ⟨m, rfl⟩ := Nat.exists_eq_succ_of_ne_zero (show n ≠ 0 by omega)
      obtain ⟨c, _, isFront, fixes⟩ := front_of_used nonneg unused used below (Nat.le_refl _)
      exact isFront.used p (Nat.lt_of_lt_of_le front (isFront.le fixes le))
    · exact (fixes_passes (Nat.le_refl k)).lt front
  · simp only [not_forall, not_lt] at used
    obtain ⟨u, below, small⟩ := used
    exact (fixes_of_zero_used nonneg unused le below (le_antisymm small (nonneg u)) n).lt front

/-- Every region of the task is in front. -/
theorem indexDoubles_surj (nonneg : ∀ x, 0 ≤ val x) (unused : ∀ x, k ≤ x → val x = 0) (le : k ≤ n)
    {g : Nat} (region : g < k) : ∃ p, p < k ∧ indexDoubles n val p = g := by
  have maps : Set.MapsTo (indexDoubles n val) (Set.Iio k) (Set.Iio k) :=
    fun p front => indexDoubles_lt nonneg unused le front
  have back := Equiv.Perm.perm_symm_mapsTo_of_mapsTo _ maps region
  exact ⟨_, back, Equiv.apply_symm_apply _ g⟩

end

end Ipm
