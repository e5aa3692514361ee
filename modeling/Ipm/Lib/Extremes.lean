import Mathlib.Data.List.Perm.Basic
import Mathlib.Order.Bounds.Basic

/-!
# The extremes of lists

The least and the greatest of the values in a list, for lists that are put together and values
that are compared one by one.

* `Least.append`, `Greatest.append`: of two lists one behind the other.
* `greatest_append_iff`: a greatest value that some of the values were kept out of.
* `filter_or_perm`: two parts of a list that have nothing in common.
-/

namespace Extremes

universe u

variable {K : Type u} [LinearOrder K] {xs ys : List K} {a b : K}

def Least (xs : List K) (m : K) : Prop := IsLeast {x | x ∈ xs} m

def Greatest (xs : List K) (m : K) : Prop := IsGreatest {x | x ∈ xs} m

theorem least_singleton (a : K) : Least [a] a := by
  unfold Least
  simp only [List.mem_singleton, Set.ofPred_eq_eq_singleton]
  exact isLeast_singleton

theorem greatest_singleton (a : K) : Greatest [a] a := by
  unfold Greatest
  simp only [List.mem_singleton, Set.ofPred_eq_eq_singleton]
  exact isGreatest_singleton

theorem Least.append (left : Least xs a) (right : Least ys b) : Least (xs ++ ys) (min a b) := by
  unfold Least
  simp only [List.mem_append, Set.ofPred_or]
  exact left.union right

theorem Greatest.append (left : Greatest xs a) (right : Greatest ys b) :
    Greatest (xs ++ ys) (max a b) := by
  unfold Greatest
  simp only [List.mem_append, Set.ofPred_or]
  exact left.union right

theorem Least.unique (left : Least xs a) (right : Least xs b) : a = b := IsLeast.unique left right

theorem Greatest.unique (left : Greatest xs a) (right : Greatest xs b) : a = b :=
  IsGreatest.unique left right

theorem least_perm (perm : xs.Perm ys) : Least xs a ↔ Least ys a := by
  unfold Least
  simp only [perm.mem_iff]

theorem greatest_perm (perm : xs.Perm ys) : Greatest xs a ↔ Greatest ys a := by
  unfold Greatest
  simp only [perm.mem_iff]

/-- A bound of the values that is one of them. -/
theorem least_iff_mem (bound : ∀ x, a ≤ x) : Least xs a ↔ a ∈ xs :=
  and_iff_left fun _ _ => bound _

/-- The greatest of `bot` and the values behind is the greatest of all exactly when each of those
before is `bot` or not above one behind. -/
theorem greatest_append_iff {bot m : K} (bound : ∀ x, bot ≤ x) (some : xs ≠ [])
    (greatest : Greatest (bot :: ys) m) :
    Greatest (xs ++ ys) m ↔ ∀ x ∈ xs, x = bot ∨ ∃ y ∈ ys, x ≤ y := by
  have above : ∀ x ∈ bot :: ys, x ≤ m := fun x mem => greatest.2 mem
  constructor
  · intro all x mem
    have le : x ≤ m := all.2 (List.mem_append_left ys mem)
    rcases List.mem_cons.mp greatest.1 with rfl | there
    · exact Or.inl (le_antisymm le (bound x))
    · exact Or.inr ⟨m, there, le⟩
  · intro covered
    have le : ∀ x ∈ xs, x ≤ m := by
      intro x mem
      rcases covered x mem with rfl | ⟨y, there, below⟩
      · exact bound m
      · exact below.trans (above y (List.mem_cons_of_mem bot there))
    refine ⟨?_, fun x mem => ?_⟩
    · rcases List.mem_cons.mp greatest.1 with rfl | there
      · rcases List.exists_mem_of_ne_nil xs some with ⟨x, mem⟩
        rw [le_antisymm (bound x) (le x mem)]
        exact List.mem_append_left ys mem
      · exact List.mem_append_right xs there
    · rcases List.mem_append.mp mem with before | behind
      · exact le x before
      · exact above x (List.mem_cons_of_mem bot behind)

/-- The elements with one of two properties, when none has both. -/
theorem filter_or_perm {A : Type*} {p q : A → Bool} (l : List A)
    (apart : ∀ x ∈ l, p x = true → q x = false) :
    (l.filter fun x => p x || q x).Perm (l.filter p ++ l.filter q) := by
  have parts := List.filter_append_perm p (l.filter fun x => p x || q x)
  have first : (l.filter fun x => p x || q x).filter p = l.filter p := by
    rw [List.filter_filter]
    refine List.filter_congr fun x _ => ?_
    cases p x <;> rfl
  have second : ((l.filter fun x => p x || q x).filter fun x => !p x) = l.filter q := by
    rw [List.filter_filter]
    refine List.filter_congr fun x mem => ?_
    cases has : p x with
    | true => rw [apart x mem has]; rfl
    | false => simp
  rw [first, second] at parts
  exact parts.symm

end Extremes
