import Mathlib.Logic.Equiv.Basic
import Mathlib.Logic.Embedding.Basic
import Mathlib.Order.Lattice
import Mathlib.Algebra.Group.End

/-!
# Exchange sort

The sort that compares every position with every position, both loops over the whole array:
what stands at `i` and at `j` is exchanged if the value at `i` is greater.  The positions are
the elements of a list without repetitions, and the array is the permutation that says what
stands at each of them.

After the pass for `i` the values at the positions up to `i` do not increase, and the value at
`i` is the least of all.  So the next pass inserts into the positions before it, and finds
nothing to exchange behind them.

* `exchange_left`, `exchange_right`, `exchange_of_ne`: one exchange.
* `insert_sorted`: the exchanges with sorted positions are an insertion.
* `sort_pairwise`: the values do not increase.
* `sort_agree`: the sort does not depend on what the positions are.
-/

namespace ExchangeSort

section Loops

variable {ι K : Type*} [DecidableEq ι] [LinearOrder K]

/-- The body of the loops. -/
def exchange (val : ι → K) (i : ι) (idx : Equiv.Perm ι) (j : ι) : Equiv.Perm ι :=
  if val (idx i) > val (idx j) then idx * Equiv.swap i j else idx

/-- The inner loop. -/
def pass (l : List ι) (val : ι → K) (idx : Equiv.Perm ι) (i : ι) : Equiv.Perm ι :=
  l.foldl (exchange val i) idx

def sort (l : List ι) (val : ι → K) : Equiv.Perm ι := l.foldl (pass l val) 1

variable {val : ι → K} {idx : Equiv.Perm ι} {i j x : ι} {l done rest : List ι}

/-! ## One exchange -/

theorem exchange_left (val : ι → K) (idx : Equiv.Perm ι) (i j : ι) :
    val (exchange val i idx j i) = min (val (idx i)) (val (idx j)) := by
  unfold exchange
  split
  · rename_i greater
    rw [Equiv.Perm.mul_apply, Equiv.swap_apply_left, min_eq_right (le_of_lt greater)]
  · rename_i notGreater
    rw [min_eq_left (not_lt.mp notGreater)]

theorem exchange_right (val : ι → K) (idx : Equiv.Perm ι) (i j : ι) :
    val (exchange val i idx j j) = max (val (idx i)) (val (idx j)) := by
  unfold exchange
  split
  · rename_i greater
    rw [Equiv.Perm.mul_apply, Equiv.swap_apply_right, max_eq_left (le_of_lt greater)]
  · rename_i notGreater
    rw [max_eq_right (not_lt.mp notGreater)]

theorem exchange_of_ne (notI : x ≠ i) (notJ : x ≠ j) : exchange val i idx j x = idx x := by
  unfold exchange
  split
  · rw [Equiv.Perm.mul_apply, Equiv.swap_apply_of_ne_of_ne notI notJ]
  · rfl

theorem exchange_of_le (le : val (idx i) ≤ val (idx j)) : exchange val i idx j = idx := by
  rw [exchange, if_neg (not_lt.mpr le)]

/-! ## Exchanges with the positions of a list -/

theorem foldl_exchange_of_notMem (notI : x ≠ i) (outside : x ∉ l) :
    l.foldl (exchange val i) idx x = idx x := by
  induction l generalizing idx with
  | nil => rfl
  | cons j l ih =>
      rw [List.mem_cons, not_or] at outside
      rw [List.foldl_cons, ih outside.2, exchange_of_ne notI outside.1]

theorem foldl_exchange_of_least (least : ∀ j ∈ l, val (idx i) ≤ val (idx j)) :
    l.foldl (exchange val i) idx = idx := by
  induction l with
  | nil => rfl
  | cons j l ih =>
      rw [List.foldl_cons, exchange_of_le (least j List.mem_cons_self)]
      exact ih fun x mem => least x (List.mem_cons_of_mem j mem)

/-- No value at `i` gets greater. -/
theorem foldl_exchange_le : val (l.foldl (exchange val i) idx i) ≤ val (idx i) := by
  induction l generalizing idx with
  | nil => exact le_refl _
  | cons j l ih =>
      have step : val (exchange val i idx j i) ≤ val (idx i) := by
        rw [exchange_left val]
        exact min_le_left _ _
      exact ih.trans step

/-- A value that is not less than the one at `i` stays so. -/
theorem foldl_exchange_le_of_le (le : val (idx i) ≤ val (idx x)) :
    val (l.foldl (exchange val i) idx i) ≤ val (l.foldl (exchange val i) idx x) := by
  induction l generalizing idx with
  | nil => exact le
  | cons j l ih =>
      apply ih
      rw [exchange_left val]
      rcases eq_or_ne x i with rfl | notI
      · rw [exchange_left val]
      · rcases eq_or_ne x j with rfl | notJ
        · rw [exchange_right val]
          exact (min_le_left _ _).trans (le_max_left _ _)
        · rw [exchange_of_ne notI notJ]
          exact (min_le_left _ _).trans le

/-- The exchanges bring the least of the values to `i`. -/
theorem foldl_exchange_least (mem : x ∈ l) :
    val (l.foldl (exchange val i) idx i) ≤ val (l.foldl (exchange val i) idx x) := by
  induction l generalizing idx with
  | nil => cases mem
  | cons j l ih =>
      rcases List.mem_cons.mp mem with rfl | mem
      · rw [List.foldl_cons]
        apply foldl_exchange_le_of_le
        rw [exchange_left val, exchange_right val]
        exact (min_le_left _ _).trans (le_max_left _ _)
      · exact ih mem

/-- It is not greater than any value there was. -/
theorem foldl_exchange_le_of_mem (nodup : l.Nodup) (outside : i ∉ l) (mem : x ∈ l) :
    val (l.foldl (exchange val i) idx i) ≤ val (idx x) := by
  induction l generalizing idx with
  | nil => cases mem
  | cons j l ih =>
      obtain ⟨notJ, nodup⟩ := List.nodup_cons.mp nodup
      rw [List.mem_cons, not_or] at outside
      rcases List.mem_cons.mp mem with rfl | mem
      · rw [List.foldl_cons]
        refine foldl_exchange_le.trans ?_
        rw [exchange_left val]
        exact min_le_right _ _
      · have other : x ≠ i := fun same => outside.2 (same ▸ mem)
        have other' : x ≠ j := fun same => notJ (same ▸ mem)
        have stays : exchange val i idx j x = idx x := exchange_of_ne other other'
        rw [List.foldl_cons, ← stays]
        exact ih nodup outside.2 mem

/-- A bound of the values stays one. -/
theorem foldl_exchange_bound {b : K} (atI : val (idx i) ≤ b) (atL : ∀ j ∈ l, val (idx j) ≤ b)
    (nodup : l.Nodup) (outside : i ∉ l) :
    ∀ x ∈ l ++ [i], val (l.foldl (exchange val i) idx x) ≤ b := by
  induction l generalizing idx with
  | nil =>
      intro x mem
      rwa [List.mem_singleton.mp mem]
  | cons j l ih =>
      obtain ⟨notJ, nodup⟩ := List.nodup_cons.mp nodup
      rw [List.mem_cons, not_or] at outside
      have atI' : val (exchange val i idx j i) ≤ b := by
        rw [exchange_left val]
        exact (min_le_left _ _).trans atI
      have atL' : ∀ x ∈ l, val (exchange val i idx j x) ≤ b := by
        intro x mem
        have other : x ≠ i := fun same => outside.2 (same ▸ mem)
        have other' : x ≠ j := fun same => notJ (same ▸ mem)
        rw [exchange_of_ne other other']
        exact atL x (List.mem_cons_of_mem j mem)
      intro x mem
      rcases List.mem_cons.mp mem with rfl | mem
      · rw [List.foldl_cons, foldl_exchange_of_notMem (Ne.symm outside.1) notJ, exchange_right val]
        exact max_le atI (atL x List.mem_cons_self)
      · exact ih atI' atL' nodup outside.2 x mem

/-- The values at the positions of a list do not increase. -/
def Sorted (val : ι → K) (idx : Equiv.Perm ι) (l : List ι) : Prop :=
  l.Pairwise fun x y => val (idx y) ≤ val (idx x)

omit [DecidableEq ι] in
theorem Sorted.congr {idx' : Equiv.Perm ι} (sorted : Sorted val idx l)
    (same : ∀ x ∈ l, idx' x = idx x) : Sorted val idx' l := by
  refine List.Pairwise.imp_of_mem (fun {x y} memX memY le => ?_) sorted
  rwa [same x memX, same y memY]

/-- The exchanges with sorted positions insert the value at `i`. -/
theorem insert_sorted (nodup : l.Nodup) (outside : i ∉ l) (sorted : Sorted val idx l) :
    Sorted val (l.foldl (exchange val i) idx) (l ++ [i]) := by
  induction l generalizing idx with
  | nil => exact List.pairwise_singleton _ i
  | cons j l ih =>
      obtain ⟨notJ, nodup⟩ := List.nodup_cons.mp nodup
      rw [List.mem_cons, not_or] at outside
      obtain ⟨first, sorted⟩ := List.pairwise_cons.mp sorted
      have sorted : Sorted val idx l := sorted
      have others : ∀ x ∈ l, exchange val i idx j x = idx x := by
        intro x mem
        exact exchange_of_ne (fun same => outside.2 (same ▸ mem)) fun same => notJ (same ▸ mem)
      rw [List.foldl_cons, List.cons_append]
      refine List.pairwise_cons.mpr ⟨?_, ih nodup outside.2 (sorted.congr others)⟩
      -- position `j` has the greater of the two values
      rw [foldl_exchange_of_notMem (Ne.symm outside.1) notJ, exchange_right val]
      refine foldl_exchange_bound ?_ (fun x mem => ?_) nodup outside.2
      · rw [exchange_left val]
        exact (min_le_left _ _).trans (le_max_left _ _)
      · rw [others x mem]
        exact (first x mem).trans (le_max_right _ _)

/-! ## The passes -/

/-- The passes for the positions of `done` have been made. -/
structure Passed (l done : List ι) (val : ι → K) (idx : Equiv.Perm ι) : Prop where
  sorted : Sorted val idx done
  least : ∀ i ∈ done.getLast?, ∀ x ∈ l, val (idx i) ≤ val (idx x)

/-- The next pass. -/
theorem Passed.next (passed : Passed l done val idx) (nodup : l.Nodup)
    (split_ : l = done ++ i :: rest) : Passed l (done ++ [i]) val (pass l val idx i) := by
  have parts := split_ ▸ nodup
  obtain ⟨front, back, apart⟩ := List.nodup_append.mp parts
  have outside : i ∉ done := fun mem => apart i mem i List.mem_cons_self rfl
  have least : ∀ x ∈ l, val (pass l val idx i i) ≤ val (pass l val idx i x) :=
    fun x mem => foldl_exchange_least mem
  refine ⟨?_, fun m last x mem => ?_⟩
  · rcases List.eq_nil_or_concat done with rfl | ⟨before, m, isDone⟩
    · exact List.pairwise_singleton _ i
    · rw [List.concat_eq_append] at isDone
      have mLast : m ∈ done := by
        rw [isDone]
        exact List.mem_append_right before List.mem_cons_self
      have lower : ∀ x ∈ l, val (idx m) ≤ val (idx x) := by
        refine passed.least m ?_
        rw [isDone, List.getLast?_concat]
        exact rfl
      -- behind `done` there is nothing to exchange
      have stays : ∀ x ∈ i :: rest, val (done.foldl (exchange val i) idx i) ≤
          val (done.foldl (exchange val i) idx x) := by
        intro x mem
        rcases List.mem_cons.mp mem with rfl | mem
        · exact le_refl _
        · have notI : x ≠ i := fun same => (List.nodup_cons.mp back).1 (same ▸ mem)
          have notDone : x ∉ done := fun inDone =>
            apart x inDone x (List.mem_cons_of_mem i mem) rfl
          have inL : x ∈ l := by
            rw [split_]
            exact List.mem_append_right done (List.mem_cons_of_mem i mem)
          rw [foldl_exchange_of_notMem notI notDone]
          exact (foldl_exchange_le_of_mem front outside mLast).trans (lower x inL)
      have inserted : pass l val idx i = done.foldl (exchange val i) idx := by
        rw [pass, split_, List.foldl_append, foldl_exchange_of_least stays]
      rw [inserted]
      exact insert_sorted front outside passed.sorted
  · rw [List.getLast?_concat] at last
    obtain rfl : i = m := Option.some.inj last
    exact least x mem

theorem Passed.all (passed : Passed l done val idx) (nodup : l.Nodup) (split_ : l = done ++ rest) :
    Passed l l val (rest.foldl (pass l val) idx) := by
  induction rest generalizing done idx with
  | nil =>
      rw [List.append_nil] at split_
      subst split_
      exact passed
  | cons i rest ih =>
      exact ih (passed.next nodup split_) (by rw [split_, List.append_assoc]; rfl)

/-- The values do not increase. -/
theorem sort_pairwise (nodup : l.Nodup) (val : ι → K) : Sorted val (sort l val) l := by
  have start : Passed l [] val 1 := ⟨List.Pairwise.nil, fun i last => by cases last⟩
  exact (start.all nodup rfl).sorted

end Loops

/-! ## Other positions -/

section Agree

variable {ι κ K : Type*} [DecidableEq ι] [DecidableEq κ] [LinearOrder K]

/-- The permutations are the same one, read along `e`. -/
def Agree (e : ι ↪ κ) (idx : Equiv.Perm ι) (idx' : Equiv.Perm κ) : Prop :=
  ∀ x, idx' (e x) = e (idx x)

variable {e : ι ↪ κ} {val : ι → K} {val' : κ → K} {idx : Equiv.Perm ι} {idx' : Equiv.Perm κ}

theorem Agree.exchange (agree : Agree e idx idx') (vals : ∀ x, val' (e x) = val x) (i j : ι) :
    Agree e (exchange val i idx j) (ExchangeSort.exchange val' (e i) idx' (e j)) := by
  intro x
  unfold ExchangeSort.exchange
  rw [agree i, agree j, vals, vals]
  split
  · rw [Equiv.Perm.mul_apply, Equiv.Perm.mul_apply, ← agree, Equiv.swap_apply_def,
      Equiv.swap_apply_def]
    simp only [e.injective.eq_iff, apply_ite e]
  · exact agree x

theorem Agree.foldl_exchange (agree : Agree e idx idx') (vals : ∀ x, val' (e x) = val x) (i : ι)
    (l : List ι) :
    Agree e (l.foldl (ExchangeSort.exchange val i) idx)
      ((l.map e).foldl (ExchangeSort.exchange val' (e i)) idx') := by
  induction l generalizing idx idx' with
  | nil => exact agree
  | cons j l ih => exact ih (agree.exchange vals i j)

theorem Agree.foldl_pass (agree : Agree e idx idx') (vals : ∀ x, val' (e x) = val x)
    (l done : List ι) :
    Agree e (done.foldl (pass l val) idx) ((done.map e).foldl (pass (l.map e) val') idx') := by
  induction done generalizing idx idx' with
  | nil => exact agree
  | cons i done ih => exact ih (agree.foldl_exchange vals i l)

/-- The sort does not depend on what the positions are. -/
theorem sort_agree (vals : ∀ x, val' (e x) = val x) (l : List ι) :
    Agree e (sort l val) (sort (l.map e) val') := by
  have start : Agree e (1 : Equiv.Perm ι) (1 : Equiv.Perm κ) := fun x => rfl
  exact start.foldl_pass vals l l

end Agree

end ExchangeSort
