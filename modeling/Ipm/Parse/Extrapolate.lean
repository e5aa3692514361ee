import Ipm.Lib.Runs
import Ipm.Lib.Tally

/-!
# Extrapolating a job

With `-x` `ipm_parse` goes on with a job of which tasks are missing, after two loops that should
put the data of other tasks in their place.  The loops assign `$T` and `$TLAST` alone.

* `extrapolate_task`: the tasks are as before.
* `extrapolated_iff`: the missing tasks are filled exactly when there are none.
-/

namespace Ipm

open Tallies

/-! ## The loops -/

/-- A job after its files are read: `{task}`, `{ntasks}` and `{ntasks_got}`. -/
structure JobData (D : Type) where
  task : Table Nat D
  ntasks : Nat
  ntasksGot : Nat

section Loops

variable {D : Type}

/-- What the loops read and assign; an undefined variable is `none`. -/
structure FillVars (D : Type) where
  task : Table Nat D
  T : Option D
  TLAST : Option D

/-- "find the first "good" task". -/
def findGood (v : FillVars D) (irank : Nat) : FillVars D :=
  let T := v.task.lookup irank
  if T.isSome then { v with T := T, TLAST := T } else { v with T := T }

/-- "copy the last "good" task to fill any gap". -/
def copyGood (v : FillVars D) (irank : Nat) : FillVars D :=
  let T := v.task.lookup irank
  if T.isSome then { v with T := v.TLAST } else { v with T := T, TLAST := T }

def fillTasks (J : JobData D) (T TLAST : Option D) : FillVars D :=
  let v := (List.range J.ntasks).foldl findGood ⟨J.task, T, TLAST⟩
  (List.range J.ntasks).foldl copyGood v

/-- `sort keys`: the ranks in the order of their decimal texts. -/
def sortKeys (ranks : List Nat) : List Nat :=
  ranks.mergeSort fun r s =>
    !List.lex (Nat.toDigits 10 s) (Nat.toDigits 10 r) fun c d => c.toNat.blt d.toNat

/-- `$ntask_min`: the size of the job, as the last task in this order has it. -/
def ntaskMin (mpiSize : D → Nat) (J : JobData D) : Nat :=
  let last := (sortKeys J.task.keys).getLast?
  ((last.bind J.task.lookup).map mpiSize).getD 0

/-- The error checking and extrapolation of a job; without `-x` an incomplete one ends the
program.  `T` and `TLAST` are what the variables hold before. -/
def extrapolate (mpiSize : D → Nat) (flag : Bool) (T TLAST : Option D) (J : JobData D) :
    Option (JobData D) :=
  if J.ntasksGot < ntaskMin mpiSize J then
    if flag then some { J with task := (fillTasks J T TLAST).task } else none
  else some J

theorem findGood_task (v : FillVars D) (r : Nat) : (findGood v r).task = v.task := by
  unfold findGood
  dsimp only
  split <;> rfl

theorem copyGood_task (v : FillVars D) (r : Nat) : (copyGood v r).task = v.task := by
  unfold copyGood
  dsimp only
  split <;> rfl

/-- The tasks are as before. -/
theorem extrapolate_task {mpiSize : D → Nat} {flag : Bool} {T TLAST : Option D} {J J' : JobData D}
    (done : extrapolate mpiSize flag T TLAST J = some J') : J' = J := by
  have filled : (fillTasks J T TLAST).task = J.task := by
    unfold fillTasks
    dsimp only
    rw [Runs.foldl_keeps FillVars.task copyGood_task, Runs.foldl_keeps FillVars.task findGood_task]
  unfold extrapolate at done
  rw [filled] at done
  split at done
  · split at done
    · cases done
      rfl
    · cases done
  · cases done
    rfl

/-- With `-x` the program goes on. -/
theorem extrapolate_flag (mpiSize : D → Nat) (T TLAST : Option D) (J : JobData D) :
    extrapolate mpiSize true T TLAST J = some J := by
  have goesOn : ∃ J', extrapolate mpiSize true T TLAST J = some J' := by
    unfold extrapolate
    split
    · exact ⟨_, rfl⟩
    · exact ⟨_, rfl⟩
  rcases goesOn with ⟨J', done⟩
  rw [done, extrapolate_task done]

end Loops

/-! ## What should be filled in -/

section Filled

variable {D : Type} {mpiSize : D → Nat} {T TLAST : Option D} {J : JobData D}

/-- The data of the nearest task before a rank, or of the first task of the job. -/
def nearest (J : JobData D) (r : Nat) : Option D :=
  (Runs.lastWrite J.task.lookup (List.range r)).or
    ((List.range J.ntasks).filterMap J.task.lookup).head?

/-- Every missing rank has the data of the nearest task before it, and no other task is changed. -/
structure Extrapolated (J J' : JobData D) : Prop where
  filled : ∀ r < J.ntasks, J.task.lookup r = none → J'.task.lookup r = nearest J r
  complete : ∀ r < J.ntasks, (J'.task.lookup r).isSome
  kept : ∀ r d, J.task.lookup r = some d → J'.task.lookup r = some d

/-- The missing tasks are filled in exactly when none is missing. -/
theorem extrapolated_iff :
    (∃ J', extrapolate mpiSize true T TLAST J = some J' ∧ Extrapolated J J') ↔
      ∀ r < J.ntasks, (J.task.lookup r).isSome := by
  constructor
  · intro filled
    rcases filled with ⟨J', done, right⟩
    cases extrapolate_task done
    exact right.complete
  · intro complete
    refine ⟨J, extrapolate_flag mpiSize T TLAST J, ?_, complete, fun _ _ found => found⟩
    intro r lt missing
    have some := complete r lt
    rw [missing] at some
    cases some

/-- Rank 1 of two is missing; the data of a task are its size of the job. -/
def oneOfTwo : JobData Nat := ⟨(∅ : Table Nat Nat).insert 0 2, 2, 1⟩

theorem extrapolated_oneOfTwo :
    ¬ ∃ J', extrapolate id true none none oneOfTwo = some J' ∧ Extrapolated oneOfTwo J' := by
  intro filled
  rcases filled with ⟨J', done, right⟩
  cases extrapolate_task done
  exact absurd (right.complete 1 (by decide)) (by decide)

end Filled

end Ipm
