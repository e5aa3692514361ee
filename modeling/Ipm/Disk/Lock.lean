import Mathlib.Logic.Function.Basic
import Ipm.Lib.FileLock
import Ipm.Lib.Runs

/-!
# The lock on disk

The processes of `ipm` on one file (`src/ipm.c`): `ipm_parallel_init_disk` once, then
`ipm_parallel_barrier_disk` any number of times, with every read, write, lock
request and release a step of its own.

`ipm_fl` is a global of each process: `ipm_parallel_unlock_disk` sets its `l_type` to
`F_UNLCK`, and `ipm_parallel_lock_disk` requests whatever is there.

* `Exclusive.step`: the invariant of runs that request `F_WRLCK` only and do not
  leave the arrive loop through `break` with the lock.
* `lock_safe`: such a run excludes, loses no update and polls without the lock.
* `second_lock_unsafe`: two processes in their first barrier request `F_UNLCK`, and
  one of the two arrivals is lost.
-/

namespace Ipm

open FileLock

/-! ## Processes and the shared file -/

/-- What a section reads and writes: the number of records, and the barrier line. -/
structure DiskFile where
  records : Nat
  barrier : Option (Nat × Nat)
  deriving DecidableEq, Repr

/-- Which function a locked section belongs to. -/
inductive SectionKind
  | join
  | arrive
  deriving DecidableEq, Repr

/-- How far a locked section is. -/
inductive SectionStage
  | locked
  | read
  | written
  deriving DecidableEq, Repr

/-- Where a process is: before its initialization, in a locked section, outside, in
the arrive loop, or polling for the others. -/
inductive DiskPc
  | start
  | inside (kind : SectionKind) (stage : SectionStage)
  | outside
  | arriving
  | polling
  deriving DecidableEq, Repr

/-- A process: `ipm_fl.l_type`, `ipm_barrier_id`, what its section has read, and
whether it is between a successful `ipm_parallel_lock_disk` and giving the lock up. -/
structure DiskProc where
  pc : DiskPc
  lType : LockType
  ipmBarrierId : Nat
  snapshot : DiskFile
  between : Bool

/-- The file, the owner of its record lock and the processes. -/
structure LockState (P : Type*) where
  file : DiskFile
  owner : Option P
  proc : P → DiskProc

/-- An empty file, and `ipm_fl` as it is initialized. -/
def LockState.init (P : Type*) : LockState P where
  file := ⟨0, none⟩
  owner := none
  proc := fun _ => ⟨.start, .wrlck, 0, ⟨0, none⟩, false⟩

/-- The steps of a process. -/
inductive LockAct (P : Type*)
  | lock (p : P)
  | read (p : P)
  | write (p : P)
  | unlock (p : P)
  | abort (p : P)
  | break_ (p : P)
  | call (p : P)
  | leave (p : P)

/-- The record a task appends, with the trailer if it found `ipm_size - 1` before. -/
def joinFile (n : Nat) (seen file : DiskFile) : DiskFile where
  records := file.records + 1
  barrier := if seen.records + 1 = n then some (0, 0) else file.barrier

/-- The line an arrival writes over the one it has read. -/
def arriveLine (n id count : Nat) : Nat × Nat :=
  if count + 1 = n then (id + 1, count + 1) else (id, count + 1)

section Step

variable {P : Type*} [DecidableEq P] (n : Nat)

/-- Replace the record of a process. -/
def LockState.set (s : LockState P) (p : P) (r : DiskProc) : LockState P :=
  { s with proc := Function.update s.proc p r }

/-- The place a lock request returns to. -/
def DiskPc.locked : DiskPc → Option DiskPc
  | .start => some (.inside .join .locked)
  | .arriving => some (.inside .arrive .locked)
  | _ => none

/-- `ipm_parallel_lock_disk`, once the request returns. -/
def lockDisk (s : LockState P) (p : P) : Except Unit (LockState P) :=
  match (s.proc p).pc.locked, setlkw s.owner p (s.proc p).lType with
  | some pc, some owner =>
      .ok { (s.set p { s.proc p with pc := pc, between := true }) with owner := owner }
  | _, _ => .error ()

/-- `ipm_parallel_unlock_disk`. -/
def unlockDisk (s : LockState P) (p : P) (pc : DiskPc) : LockState P :=
  { (s.set p { s.proc p with pc := pc, lType := .unlck, between := false }) with
    owner := release s.owner p }

/-- The end of a poll or of an arrive loop that timed out, which closes a descriptor
of the file. -/
def closeDisk (s : LockState P) (p : P) : LockState P :=
  { (s.set p { s.proc p with pc := .outside, between := false }) with
    owner := release s.owner p }

/-- The write of a section. -/
def writeDisk (s : LockState P) (p : P) : SectionKind → Except Unit (LockState P)
  | .join =>
      .ok { (s.set p { s.proc p with pc := .inside .join .written }) with
        file := joinFile n (s.proc p).snapshot s.file }
  | .arrive =>
      match (s.proc p).snapshot.barrier with
      | some (id, count) =>
          if id = (s.proc p).ipmBarrierId then
            .ok { (s.set p { s.proc p with
                pc := .inside .arrive .written
                ipmBarrierId := (s.proc p).ipmBarrierId + 1 }) with
              file := { s.file with barrier := some (arriveLine n id count) } }
          else .error ()
      | none => .error ()

/-- The line read is not of the process's barrier. -/
def elsewhere (r : DiskProc) : Bool := r.snapshot.barrier.map Prod.fst != some r.ipmBarrierId

/-- One step; a step of a process that is elsewhere is none. -/
def lockStep (s : LockState P) : LockAct P → Except Unit (LockState P)
  | .lock p => lockDisk s p
  | .read p =>
      match (s.proc p).pc with
      | .inside kind .locked =>
          .ok (s.set p { s.proc p with pc := .inside kind .read, snapshot := s.file })
      | _ => .error ()
  | .write p =>
      match (s.proc p).pc with
      | .inside kind .read => writeDisk n s p kind
      | _ => .error ()
  | .unlock p =>
      match (s.proc p).pc with
      | .inside .join .written => .ok (unlockDisk s p .polling)
      | .inside .arrive .read =>
          if elsewhere (s.proc p) then .ok (unlockDisk s p .arriving) else .error ()
      | _ => .error ()
  | .abort p =>
      -- corrupted data: the initialization returns with the lock
      match (s.proc p).pc with
      | .inside .join .read => .ok (s.set p { s.proc p with pc := .outside })
      | _ => .error ()
  | .break_ p =>
      -- the arrive loop is left without `ipm_parallel_unlock_disk`
      match (s.proc p).pc with
      | .inside .arrive .written => .ok (s.set p { s.proc p with pc := .polling })
      | _ => .error ()
  | .call p =>
      match (s.proc p).pc with
      | .outside => .ok (s.set p { s.proc p with pc := .arriving })
      | _ => .error ()
  | .leave p =>
      match (s.proc p).pc with
      | .polling => .ok (closeDisk s p)
      | .arriving => .ok (closeDisk s p)
      | _ => .error ()

end Step

/-! ## Safety -/

section Safety

variable {P : Type*}

/-- What the lock promises: no two processes between lock and release, no section
that writes over what it has not read, and no polling with the lock. -/
structure LockSafe (s : LockState P) : Prop where
  exclusive : ∀ p q, p ≠ q → (s.proc p).between = true → (s.proc q).between = false
  current : ∀ p kind, (s.proc p).pc = .inside kind .read → (s.proc p).snapshot = s.file
  polls : ∀ p, (s.proc p).pc = .polling → s.owner ≠ some p

/-- A process in a locked section owns the lock, and has read the file as it is. -/
structure ProcOk (file : DiskFile) (owner : Option P) (p : P) (r : DiskProc) : Prop where
  owns : r.between = true ↔ owner = some p
  inside : ∀ kind stage, r.pc = .inside kind stage → r.between = true
  current : ∀ kind, r.pc = .inside kind .read → r.snapshot = file
  polls : r.pc = .polling → r.between = false

/-- Every locked section holds the lock. -/
def Exclusive (s : LockState P) : Prop := ∀ p, ProcOk s.file s.owner p (s.proc p)

theorem Exclusive.safe {s : LockState P} (exclusive : Exclusive s) : LockSafe s := by
  refine ⟨fun p q apart between => ?_, fun p => (exclusive p).current, fun p polls owned => ?_⟩
  · have owned := (exclusive p).owns.mp between
    apply Bool.eq_false_iff.mpr
    intro also
    have own := (exclusive q).owns.mp also
    rw [owned] at own
    exact apart (Option.some.inj own)
  · have between := (exclusive p).owns.mpr owned
    rw [(exclusive p).polls polls] at between
    cases between

theorem init_exclusive : Exclusive (LockState.init P) := by
  intro p
  refine ⟨⟨fun between => ?_, fun owned => ?_⟩, fun kind stage inside => ?_,
    fun kind inside => ?_, fun polls => ?_⟩
  · cases between
  · cases owned
  · cases inside
  · cases inside
  · cases polls

variable [DecidableEq P] {n : Nat}

/-- A step of one process keeps the others' sections, if it takes no other's lock
and writes only with its own. -/
theorem Exclusive.set {s : LockState P} {p : P} {r : DiskProc} {file : DiskFile}
    {owner : Option P} (exclusive : Exclusive s) (own : ProcOk file owner p r)
    (others : ∀ q, q ≠ p → (owner = some q ↔ s.owner = some q))
    (write : file = s.file ∨ s.owner = some p) :
    Exclusive { (s.set p r) with file := file, owner := owner } := by
  intro q
  rcases eq_or_ne q p with rfl | apart
  · have self : (s.set q r).proc q = r := Function.update_self q _ _
    change ProcOk file owner q ((s.set q r).proc q)
    rw [self]
    exact own
  · have kept : (s.set p r).proc q = s.proc q := Function.update_of_ne apart _ _
    change ProcOk file owner q ((s.set p r).proc q)
    rw [kept]
    obtain ⟨owns, inside, current, polls⟩ := exclusive q
    refine ⟨owns.trans (others q apart).symm, inside, fun kind reading => ?_, polls⟩
    rcases write with same | held
    · rw [same]
      exact current kind reading
    · have reads := owns.mp (inside kind .read reading)
      rw [held] at reads
      exact absurd (Option.some.inj reads).symm apart

/-- The condition on a step: a lock is requested with `F_WRLCK`, and the arrive loop
is not left through `break` with the lock. -/
def lockGuard (s : LockState P) : LockAct P → Bool
  | .lock p => (s.proc p).lType == .wrlck
  | .break_ p => s.owner != some p
  | _ => true

theorem Exclusive.lock {s s' : LockState P} {p : P} (exclusive : Exclusive s)
    (wrlck : (s.proc p).lType = .wrlck) (h : lockDisk s p = .ok s') : Exclusive s' := by
  unfold lockDisk at h
  rw [wrlck] at h
  split at h
  · rename_i pc owner place granted
    cases h
    obtain ⟨rfl, others⟩ := setlkw_wrlck granted
    apply exclusive.set ?_ (fun q apart => ?_) (Or.inl rfl)
    · refine ⟨⟨fun _ => rfl, fun _ => rfl⟩, fun _ _ _ => rfl, fun kind reading => ?_,
        fun polls => ?_⟩
      · change pc = .inside kind .read at reading
        unfold DiskPc.locked at place
        split at place <;> cases place <;> cases reading
      · change pc = .polling at polls
        unfold DiskPc.locked at place
        split at place <;> cases place <;> cases polls
    · refine ⟨fun mine => absurd (Option.some.inj mine).symm apart, fun theirs => ?_⟩
      exact absurd theirs (others q apart)
  · cases h

/-- Giving the lock up, by a process that goes on outside a section. -/
theorem Exclusive.release {s : LockState P} {p : P} {r : DiskProc} (exclusive : Exclusive s)
    (free : r.between = false) (out : ∀ kind stage, r.pc ≠ .inside kind stage) :
    Exclusive { (s.set p r) with owner := FileLock.release s.owner p } := by
  apply exclusive.set ?_ (fun q apart => release_eq_some apart) (Or.inl rfl)
  refine ⟨⟨fun between => ?_, fun owned => absurd owned (release_ne s.owner p)⟩,
    fun kind stage inside => absurd inside (out kind stage),
    fun kind inside => absurd inside (out kind .read), fun _ => free⟩
  rw [free] at between
  cases between

/-- A step of a process that keeps its hold on the lock and reads nothing. -/
theorem Exclusive.keep {s : LockState P} {p : P} {r : DiskProc} {file : DiskFile}
    (exclusive : Exclusive s) (between : r.between = (s.proc p).between)
    (inside : ∀ kind stage, r.pc = .inside kind stage →
      ∃ kind' stage', (s.proc p).pc = .inside kind' stage')
    (reading : ∀ kind, r.pc = .inside kind .read → r.snapshot = file)
    (polls : r.pc ≠ .polling) (write : file = s.file ∨ s.owner = some p) :
    Exclusive { (s.set p r) with file := file } := by
  apply exclusive.set ?_ (fun q _ => Iff.rfl) write
  refine ⟨between ▸ (exclusive p).owns, fun kind stage now => ?_, reading,
    fun polling => absurd polling polls⟩
  obtain ⟨kind', stage', before⟩ := inside kind stage now
  rw [between]
  exact (exclusive p).inside kind' stage' before

/-- One step keeps every section locked, if it meets the condition. -/
theorem Exclusive.step {s s' : LockState P} {a : LockAct P} (exclusive : Exclusive s)
    (guard : lockGuard s a = true) (h : lockStep n s a = .ok s') : Exclusive s' := by
  cases a with
  | lock p => exact exclusive.lock (beq_iff_eq.mp guard) h
  | read p =>
      simp only [lockStep] at h
      split at h
      · rename_i kind place
        cases h
        refine exclusive.keep ?_ ?_ ?_ ?_ (Or.inl rfl)
        · rfl
        · exact fun _ _ _ => ⟨kind, .locked, place⟩
        · exact fun _ _ => rfl
        · exact fun polling => by cases polling
      · cases h
  | write p =>
      simp only [lockStep] at h
      split at h
      · rename_i kind place
        have held := (exclusive p).owns.mp ((exclusive p).inside kind .read place)
        cases kind with
        | join =>
            cases h
            refine exclusive.keep ?_ ?_ ?_ ?_ (Or.inr held)
            · rfl
            · exact fun _ _ _ => ⟨.join, .read, place⟩
            · exact fun _ reading => by cases reading
            · exact fun polling => by cases polling
        | arrive =>
            simp only [writeDisk] at h
            split at h
            · split at h
              · cases h
                refine exclusive.keep ?_ ?_ ?_ ?_ (Or.inr held)
                · rfl
                · exact fun _ _ _ => ⟨.arrive, .read, place⟩
                · exact fun _ reading => by cases reading
                · exact fun polling => by cases polling
              · cases h
            · cases h
      · cases h
  | unlock p =>
      simp only [lockStep] at h
      split at h
      · cases h
        exact exclusive.release rfl fun _ _ inside => by cases inside
      · split at h
        · cases h
          exact exclusive.release rfl fun _ _ inside => by cases inside
        · cases h
      · cases h
  | abort p =>
      simp only [lockStep] at h
      split at h
      · cases h
        refine exclusive.keep ?_ ?_ ?_ ?_ (Or.inl rfl)
        · rfl
        · exact fun _ _ inside => by cases inside
        · exact fun _ reading => by cases reading
        · exact fun polling => by cases polling
      · cases h
  | break_ p =>
      simp only [lockStep] at h
      split at h
      · rename_i place
        -- a written section holds the lock
        have held := (exclusive p).owns.mp ((exclusive p).inside .arrive .written place)
        rw [lockGuard, held] at guard
        simp at guard
      · cases h
  | call p =>
      simp only [lockStep] at h
      split at h
      · cases h
        refine exclusive.keep ?_ ?_ ?_ ?_ (Or.inl rfl)
        · rfl
        · exact fun _ _ inside => by cases inside
        · exact fun _ reading => by cases reading
        · exact fun polling => by cases polling
      · cases h
  | leave p =>
      simp only [lockStep] at h
      split at h
      · cases h
        exact exclusive.release rfl fun _ _ inside => by cases inside
      · cases h
        exact exclusive.release rfl fun _ _ inside => by cases inside
      · cases h

/-- Lock safety over runs.  For any processes and any interleaving, every state
reached by a run whose lock requests are for `F_WRLCK` and whose arrive loops are
not left through `break` with the lock is safe. -/
theorem lock_safe (n : Nat) (acts : List (LockAct P))
    (guarded : Runs.checkVisits (lockStep n) lockGuard (.init P) acts = true) (s : LockState P)
    (reached : Runs.Reached (lockStep n) (.init P) acts s) : LockSafe s :=
  (Runs.reached_invariant (I := Exclusive) init_exclusive
    (fun exclusive guard h => exclusive.step guard h)
    (fun _ _ visit => Runs.checkVisits_visit guarded visit) reached).safe

end Safety

/-- A process joins, and waits until it finds the trailer. -/
def joinActs {P : Type*} (p : P) : List (LockAct P) := [.lock p, .read p, .write p, .unlock p]

/-- Two processes join one after the other. -/
theorem lock_safe_join :
    ∃ s, Runs.run (lockStep 2) (.init (Fin 2)) (joinActs 0 ++ joinActs 1) = .ok s ∧
      s.file = ⟨2, some (0, 0)⟩ ∧ LockSafe s :=
  ⟨_, rfl, rfl, lock_safe 2 (joinActs 0 ++ joinActs 1) rfl _ (Runs.Reached.finish rfl)⟩

/-- After joining, two processes in their first barrier both return from
`ipm_parallel_lock_disk`, read the same line and write the same line: one arrival
of the two is lost. -/
theorem second_lock_unsafe :
    ∃ s s', Runs.run (lockStep 2) (.init (Fin 2)) (joinActs 0 ++ joinActs 1 ++
        [.leave 0, .leave 1, .call 0, .call 1, .lock 0, .lock 1]) = .ok s ∧
      Runs.run (lockStep 2) s [.read 0, .read 1, .write 0, .write 1] = .ok s' ∧
      (s.proc 0).between = true ∧ (s.proc 1).between = true ∧ ¬ LockSafe s ∧
      s'.file.barrier = some (0, 1) := by
  refine ⟨_, _, rfl, rfl, rfl, rfl, fun safe => ?_, rfl⟩
  have alone := safe.exclusive 0 1 (by decide) rfl
  cases alone

end Ipm
