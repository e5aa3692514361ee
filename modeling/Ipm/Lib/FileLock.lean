import Mathlib.Logic.Basic

/-!
# Record locks on a whole file

POSIX `fcntl` record locks as far as one lock over a whole file goes: a process may
own it, and a request acts on the type it is given.

* `setlkw`: `F_SETLKW`.  A request for `F_WRLCK` is granted when no other process
  owns the lock, and otherwise waits; a request for `F_UNLCK` never waits.
* `release`: what `F_UNLCK` does, and what closing any descriptor of the file does.
-/

namespace FileLock

/-- The lock types requested. -/
inductive LockType
  | wrlck
  | unlck
  deriving DecidableEq, Repr

variable {P : Type*} [DecidableEq P]

/-- The owner after `p` gives its lock up. -/
def release (owner : Option P) (p : P) : Option P := if owner = some p then none else owner

/-- The owner after a request of `p` returns; `none` while the request waits. -/
def setlkw (owner : Option P) (p : P) : LockType → Option (Option P)
  | .wrlck => if owner = none ∨ owner = some p then some (some p) else none
  | .unlck => some (release owner p)

theorem release_ne (owner : Option P) (p : P) : release owner p ≠ some p := by
  unfold release
  split
  · exact Option.some_ne_none p |>.symm
  · assumption

/-- Only the owner's lock is released. -/
theorem release_eq_some {owner : Option P} {p q : P} (apart : q ≠ p) :
    release owner p = some q ↔ owner = some q := by
  unfold release
  split
  · rename_i own
    rw [own]
    refine ⟨fun none => ?_, fun same => absurd (Option.some.inj same).symm apart⟩
    cases none
  · exact Iff.rfl

/-- A granted request for `F_WRLCK` makes the process the owner, and there was no
other. -/
theorem setlkw_wrlck {owner owner' : Option P} {p : P}
    (granted : setlkw owner p .wrlck = some owner') :
    owner' = some p ∧ ∀ q, q ≠ p → owner ≠ some q := by
  unfold setlkw at granted
  dsimp only at granted
  split at granted
  · rename_i free
    cases granted
    refine ⟨rfl, fun q apart owned => ?_⟩
    rcases free with none | own
    · rw [none] at owned
      cases owned
    · rw [own] at owned
      exact apart (Option.some.inj owned).symm
  · cases granted

end FileLock
