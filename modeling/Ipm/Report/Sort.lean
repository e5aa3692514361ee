import Ipm.Lib.Runs
import Ipm.Lib.ExchangeSort
import Ipm.Sizes
import Ipm.Report.Order
import Mathlib.Data.List.FinRange

/-!
# The arrays of `index_doubles`

`index_doubles` as it goes through its arrays, for any number of values of any linear order.

* `IndexArrays.simulates`: the loops read inside the arrays, and exchange as the sort of
  permutations does.
* `indexDoubles_sorts`: the index array ends as a permutation, along which the values do not
  increase.
* `indexDoubles_numbers`: it is the permutation the report takes its regions from.
* `indexDoubles_report`: in front of it are the regions of the task.
-/

namespace Ipm

open Runs

/-- A read behind the end of an array. -/
inductive IndexFault
  | outside
  deriving Repr, DecidableEq

/-- The arrays `index_doubles` is given. -/
structure IndexArrays (n : Nat) (K : Type*) where
  idx : Vector Nat n
  val : Vector K n

namespace IndexArrays

section

variable {n : Nat} {K : Type*} [LinearOrder K]

/-- `idx[i] = k`. -/
def setIdx (a : IndexArrays n K) (i : Fin n) (k : Nat) : IndexArrays n K :=
  { a with idx := a.idx.set i k }

/-- `val[k]`. -/
def readVal (a : IndexArrays n K) (k : Nat) : Except IndexFault K :=
  match a.val[k]? with
  | some x => .ok x
  | none => .error .outside

/-- The first loop. -/
def number (a : IndexArrays n K) : IndexArrays n K :=
  (List.finRange n).foldl (fun a i => a.setIdx i i) a

/-- The body of the second loop. -/
def compareAt (i : Fin n) (a : IndexArrays n K) (j : Fin n) : Except IndexFault (IndexArrays n K) :=
  do
    let x ← a.readVal a.idx[i]
    let y ← a.readVal a.idx[j]
    if x > y then
      let k := a.idx[i]
      let a := a.setIdx i a.idx[j]
      return a.setIdx j k
    else
      return a

def indexDoubles (a : IndexArrays n K) : Except IndexFault (IndexArrays n K) :=
  run (fun a i => run (compareAt i) a (List.finRange n)) a.number (List.finRange n)

/-! ## The index array as a permutation -/

/-- The value array is `val`, and the index array says what stands where. -/
structure Holds (val : Vector K n) (a : IndexArrays n K) (idx : Equiv.Perm (Fin n)) : Prop where
  val : a.val = val
  idx : ∀ p : Fin n, a.idx[p] = idx p

variable {val : Vector K n} {a : IndexArrays n K} {idx : Equiv.Perm (Fin n)}

omit [LinearOrder K] in
theorem setIdx_self (i : Fin n) (k : Nat) : (a.setIdx i k).idx[i] = k :=
  Vector.getElem_set_self i.isLt

omit [LinearOrder K] in
theorem setIdx_of_ne {i p : Fin n} (other : p ≠ i) (k : Nat) :
    (a.setIdx i k).idx[p] = a.idx[p] :=
  Vector.getElem_set_ne i.isLt p.isLt fun same => other (Fin.ext same.symm)

omit [LinearOrder K] in
/-- What the first loop has numbered, and what not. -/
theorem foldl_setIdx (l : List (Fin n)) (p : Fin n) :
    (l.foldl (fun a i => a.setIdx i i) a).val = a.val ∧
      (p ∈ l ∨ a.idx[p] = p → (l.foldl (fun a i => a.setIdx i i) a).idx[p] = p) := by
  induction l generalizing a with
  | nil =>
      refine ⟨rfl, fun numbered => ?_⟩
      rcases numbered with mem | numbered
      · cases mem
      · exact numbered
  | cons i l ih =>
      obtain ⟨vals, numbers⟩ := ih (a := a.setIdx i i)
      refine ⟨vals, fun numbered => numbers ?_⟩
      rcases eq_or_ne p i with rfl | other
      · exact Or.inr (setIdx_self p p)
      · rw [setIdx_of_ne other]
        rcases numbered with mem | numbered
        · exact Or.inl ((List.mem_cons.mp mem).resolve_left other)
        · exact Or.inr numbered

omit [LinearOrder K] in
theorem number_holds (a : IndexArrays n K) : Holds a.val a.number 1 where
  val := by
    rcases n with - | n
    · rfl
    · exact (foldl_setIdx _ 0).1
  idx := fun p => (foldl_setIdx _ p).2 (Or.inl (List.mem_finRange p))

omit [LinearOrder K] in
theorem readVal_eq (a : IndexArrays n K) (i : Fin n) : a.readVal i = .ok a.val[i] := by
  have inside : a.val[(i : Nat)]? = some a.val[i] := Vector.getElem?_eq_getElem i.isLt
  rw [readVal, inside]

omit [LinearOrder K] in
theorem Holds.readVal (holds : Holds val a idx) (i : Fin n) :
    a.readVal a.idx[i] = .ok val[idx i] := by
  have at_ : a.idx[i] = idx i := holds.idx i
  rw [at_, readVal_eq, holds.val]

omit [LinearOrder K] in
/-- The three assignments. -/
theorem Holds.swap (holds : Holds val a idx) (i j : Fin n) :
    Holds val ((a.setIdx i a.idx[j]).setIdx j a.idx[i]) (idx * Equiv.swap i j) where
  val := holds.val
  idx := by
    intro p
    rw [Equiv.Perm.mul_apply]
    rcases eq_or_ne p j with rfl | notJ
    · rw [setIdx_self, Equiv.swap_apply_right, holds.idx]
    · rw [setIdx_of_ne notJ]
      rcases eq_or_ne p i with rfl | notI
      · rw [setIdx_self, Equiv.swap_apply_left, holds.idx]
      · rw [setIdx_of_ne notI, Equiv.swap_apply_of_ne_of_ne notI notJ, holds.idx]

/-- The body of the loops. -/
theorem Holds.compareAt (holds : Holds val a idx) (i j : Fin n) :
    ∃ a', a.compareAt i j = .ok a' ∧
      Holds val a' (ExchangeSort.exchange (fun p : Fin n => val[p]) i idx j) := by
  rw [ExchangeSort.exchange]
  by_cases greater : val[idx i] > val[idx j]
  · refine ⟨(a.setIdx i a.idx[j]).setIdx j a.idx[i], ?_, ?_⟩
    · rw [IndexArrays.compareAt, holds.readVal i, holds.readVal j]
      exact if_pos greater
    · rw [if_pos greater]
      exact holds.swap i j
  · refine ⟨a, ?_, ?_⟩
    · rw [IndexArrays.compareAt, holds.readVal i, holds.readVal j]
      exact if_neg greater
    · rwa [if_neg greater]

/-- The loops read inside the arrays, and exchange as the sort of permutations does. -/
theorem simulates (a : IndexArrays n K) :
    ∃ a', a.indexDoubles = .ok a' ∧
      Holds a.val a' (ExchangeSort.sort (List.finRange n) fun p : Fin n => a.val[p]) := by
  have inner : ∀ a' idx i, Holds a.val a' idx →
      ∃ a'', run (IndexArrays.compareAt i) a' (List.finRange n) = .ok a'' ∧ Holds a.val a''
        (ExchangeSort.pass (List.finRange n) (fun p : Fin n => a.val[p]) idx i) := by
    intro a' idx i holds
    exact run_simulates (fun _ _ j holds => holds.compareAt i j) holds (List.finRange n)
  exact run_simulates inner a.number_holds (List.finRange n)

end

end IndexArrays

namespace IndexArrays

variable {n : Nat} {K : Type*} [LinearOrder K] {val : Vector K n} {a : IndexArrays n K}
  {idx : Equiv.Perm (Fin n)}

omit [LinearOrder K] in
theorem Holds.toList (holds : Holds val a idx) :
    a.idx.toList = (List.finRange n).map fun p => (idx p : Nat) := by
  apply List.ext_getElem
  · rw [Vector.length_toList, List.length_map, List.length_finRange]
  · intro p below _
    rw [Vector.length_toList] at below
    rw [Vector.getElem_toList, List.getElem_map, List.getElem_finRange]
    exact holds.idx ⟨p, below⟩

omit [LinearOrder K] in
theorem Holds.perm (holds : Holds val a idx) : a.idx.toList.Perm (List.range n) := by
  have images := idx.map_finRange_perm.map Fin.val
  rw [List.map_map, List.map_coe_finRange_eq_range] at images
  rw [holds.toList]
  exact images

omit [LinearOrder K] in
/-- The values read through the index array. -/
theorem Holds.reads (holds : Holds val a idx) :
    a.idx.toList.mapM a.readVal = .ok ((List.finRange n).map fun p => val[idx p]) := by
  have read : (a.readVal ∘ fun p : Fin n => (idx p : Nat)) = fun p => pure val[idx p] := by
    funext p
    rw [Function.comp_apply, readVal_eq, holds.val]
    rfl
  rw [holds.toList, List.mapM_map, read, List.mapM_pure]
  rfl

end IndexArrays

section

variable {n : Nat}

/-- `index_doubles` sorts: it reads inside the arrays, the index array ends as a
permutation of `0` to `n - 1`, the values read through it do not increase, and the value array
is as before. -/
theorem indexDoubles_sorts {K : Type*} [LinearOrder K] (a : IndexArrays n K) :
    ∃ a' reads, a.indexDoubles = .ok a' ∧ a'.idx.toList.Perm (List.range n) ∧
      a'.idx.toList.mapM a'.readVal = .ok reads ∧ reads.Pairwise (· ≥ ·) ∧ a'.val = a.val := by
  obtain ⟨a', ran, holds⟩ := a.simulates
  have sorted := ExchangeSort.sort_pairwise (List.nodup_finRange n) fun p : Fin n => a.val[p]
  exact ⟨a', _, ran, holds.perm, holds.reads, List.pairwise_map.mpr sorted, holds.val⟩

/-- The permutation the report takes its regions from. -/
theorem indexDoubles_numbers (a : IndexArrays n Rat) {val : Nat → Rat}
    (vals : ∀ p : Fin n, val p = a.val[p]) :
    ∃ a', a.indexDoubles = .ok a' ∧ ∀ p : Fin n, a'.idx[p] = indexDoubles n val p := by
  obtain ⟨a', ran, holds⟩ := a.simulates
  refine ⟨a', ran, fun p => ?_⟩
  have agree := ExchangeSort.sort_agree (e := Fin.valEmbedding) vals (List.finRange n) p
  have positions : (List.finRange n).map Fin.valEmbedding = List.range n :=
    List.map_coe_finRange_eq_range
  rw [positions] at agree
  exact (holds.idx p).trans agree.symm

/-- The value array continued with zero. -/
def continued (val : Vector Rat n) (p : Nat) : Rat := val[p]?.getD 0

theorem continued_eq (val : Vector Rat n) (p : Fin n) : continued val p = val[p] := by
  unfold continued
  rw [Vector.getElem?_eq_getElem p.isLt]
  rfl

theorem continued_of_le (val : Vector Rat n) {p : Nat} (outside : n ≤ p) : continued val p = 0 := by
  unfold continued
  rw [Vector.getElem?_eq_none outside]
  rfl

/-- The front of the permutation, as a list. -/
theorem indexDoubles_map_range {k : Nat} {val : Nat → Rat} (nonneg : ∀ x, 0 ≤ val x)
    (unused : ∀ x, k ≤ x → val x = 0) (le : k ≤ n) :
    ((List.range k).map (indexDoubles n val)).Perm (List.range k) := by
  have nodup : ((List.range k).map (indexDoubles n val)).Nodup :=
    List.nodup_range.map (indexDoubles n val).injective
  rw [List.perm_ext_iff_of_nodup nodup List.nodup_range]
  intro g
  rw [List.mem_map, List.mem_range]
  refine ⟨?_, fun region => ?_⟩
  · intro given
    rcases given with ⟨p, front, rfl⟩
    exact indexDoubles_lt nonneg unused le (List.mem_range.mp front)
  · obtain ⟨p, front, same⟩ := indexDoubles_surj nonneg unused le region
    exact ⟨p, List.mem_range.mpr front, same⟩

theorem take_eq_map_range {k : Nat} {idx : Vector Nat n} {f : Nat → Nat} (le : k ≤ n)
    (same : ∀ p : Fin n, idx[p] = f p) : idx.toList.take k = (List.range k).map f := by
  apply List.ext_getElem
  · rw [List.length_take, Vector.length_toList, List.length_map, List.length_range]
    exact Nat.min_eq_left le
  · intro p inside _
    rw [List.length_take, Vector.length_toList] at inside
    rw [List.getElem_take, Vector.getElem_toList, List.getElem_map, List.getElem_range]
    exact same ⟨p, by omega⟩

/-- The report enumerates the known regions: the first `nregion` entries of the index of
all MAXSIZE_REGION regions are the regions of the task, each once, also where the wall time of
one of them ties with those of the unused regions. -/
theorem indexDoubles_report (a : IndexArrays maxsizeRegion Rat) {nregion : Nat}
    (le : nregion ≤ maxsizeRegion) (nonneg : ∀ p : Fin maxsizeRegion, 0 ≤ a.val[p])
    (unused : ∀ p : Fin maxsizeRegion, nregion ≤ p → a.val[p] = 0) :
    ∃ preg, a.indexDoubles = .ok preg ∧
      (preg.idx.toList.take nregion).Perm (List.range nregion) := by
  obtain ⟨preg, ran, numbers⟩ := indexDoubles_numbers a (continued_eq a.val)
  refine ⟨preg, ran, ?_⟩
  rw [take_eq_map_range le numbers]
  refine indexDoubles_map_range (fun x => ?_) (fun x out => ?_) le
  · by_cases inside : x < maxsizeRegion
    · exact le_of_le_of_eq (nonneg ⟨x, inside⟩) (continued_eq a.val ⟨x, inside⟩).symm
    · exact (continued_of_le a.val (Nat.le_of_not_lt inside)).ge
  · by_cases inside : x < maxsizeRegion
    · rw [continued_eq a.val ⟨x, inside⟩]
      exact unused ⟨x, inside⟩ out
    · exact continued_of_le a.val (Nat.le_of_not_lt inside)

/-- The wall times 0, 5, 2 and 5 of four regions, and zeros. -/
def tiedTimes : Vector Rat maxsizeRegion :=
  .ofFn fun p => if p.val = 1 ∨ p.val = 3 then 5 else if p.val = 2 then 2 else 0

/-- Two regions tie with each other, and one with the unused ones. -/
theorem indexDoubles_report_tie :
    ∃ preg, (IndexArrays.mk (Vector.replicate maxsizeRegion 0) tiedTimes).indexDoubles = .ok preg ∧
      (preg.idx.toList.take 4).Perm (List.range 4) := by
  have at_ : ∀ p : Fin maxsizeRegion,
      tiedTimes[p] = if p.val = 1 ∨ p.val = 3 then 5 else if p.val = 2 then 2 else 0 :=
    fun p => Vector.getElem_ofFn p.isLt
  refine indexDoubles_report _ (by decide) (fun p => ?_) fun p behind => ?_
  · rw [at_]
    split
    · norm_num
    · split
      · norm_num
      · exact le_refl _
  · rw [at_, if_neg (by omega), if_neg (by omega)]

end

end Ipm
