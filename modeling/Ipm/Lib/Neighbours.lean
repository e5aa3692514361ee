import Mathlib.GroupTheory.Perm.Cycle.Basic

/-!
# Neighbours in a ring

A duplicate-free list read as a ring: `List.formPerm` takes each element to the next
one and the last to the first, its inverse goes back, and the two are one cycle through
the list (`List.Nodup.isCycleOn_formPerm`).  Here are both by position, as a program
that walks over an array computes them.
-/

namespace Neighbours

variable {α : Type*} [DecidableEq α] {l : List α}

/-- The next of the last element is the first. -/
theorem formPerm_last (nodup : l.Nodup) {j : Nat} (last : j + 1 = l.length) :
    l.formPerm l[j] = l[0] := by
  rw [List.formPerm_apply_getElem l nodup j (by omega)]
  simp only [last, Nat.mod_self]

/-- The element before. -/
theorem formPerm_symm_succ (nodup : l.Nodup) {j : Nat} (within : j + 1 < l.length) :
    l.formPerm.symm l[j + 1] = l[j] := by
  rw [Equiv.symm_apply_eq, List.formPerm_apply_lt_getElem l nodup j within]

/-- The element before the first is the last. -/
theorem formPerm_symm_zero (nodup : l.Nodup) (pos : 0 < l.length) {j : Nat}
    (last : j + 1 = l.length) : l.formPerm.symm l[0] = l[j] := by
  rw [Equiv.symm_apply_eq, formPerm_last nodup last]

end Neighbours
