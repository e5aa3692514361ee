import Mathlib.Algebra.Ring.Nat
import Ipm.Lib.Spmd
import Ipm.Log.Write
import Ipm.Sizes

/-!
# Aggregation of the log

`ipm_log` with aggregation method 4: all tasks together write one file.  The tasks
measure their records and allocate buffers; if every allocation succeeds they write in
parallel, each at the sum of the sizes before it, else rank 0 asks the others one by one
for their profile and writes the records itself, over its own `job` and `task`.  Every
task makes the name of the file out of its own settings, and opening it may fail.

* `ipmLog_endsIn`: if the tasks agree on the setting of IPM_PARALLEL_IO and the file opens,
  every run ends, all tasks on the same path, and both paths leave the same file.
* `ipmLog_unopened`: if no task can open it on the parallel path, all return without a log.
* `ipmLog_disagree`: if the settings differ, rank 0 may serve a task that waits elsewhere.
-/

namespace Ipm

open Stdio Spmd

/-- The messages of `ipm_log`. -/
inductive LogMsg (J T : Type)
  | token
  | job (j : LogJob J)
  | task (t : LogTask T)
  | txt (x : Text)
  | sum (buffSum : Nat)

/-- Its collective operations. -/
inductive LogOp
  | allreduce
  | barrier
  | fileOpen
  | fileSetView
  | fileWriteAll
  | fileClose
deriving DecidableEq

/-- What a task contributes to a collective operation: to `PMPI_File_open` the name it has
made and whether it gets the file, to `PMPI_File_write_all` a slice of that file. -/
inductive LogShare
  | nothing
  | flag (mallocFlag : Nat)
  | opening (logFname : Text) (opens : Bool)
  | slice (logFname : Text) (fileOffset : Nat) (bytes : Text)

/-- What rank 0 does to a file on its own. -/
inductive LogAct
  | delete (logFname : Text)
  | create (logFname : Text)
  | append (logFname out : Text)

/-- How `ipm_log` ends for a task.  It is at fault when it prints a name behind the end of
its array, writes to a stream that is NULL, or takes a message for another one. -/
inductive LogEnd
  | bailed
  | unopened
  | parallel (fileOffset buffSize : Nat)
  | serial
  | fault

/-- The files of the file system, by their names. -/
abbrev LogFiles := Text → Option Text

abbrev LogProg (n : Nat) (J T : Type) :=
  Prog (Fin n) LogOp LogShare (LogMsg J T) LogAct LogEnd

def LogShare.mallocFlag : LogShare → Nat
  | .flag f => f
  | _ => 0

/-- This file is opened by a task. -/
def LogShare.opens : LogShare → Text → Bool
  | .opening logFname opens, fname => logFname == fname && opens
  | _, _ => false

/-- What is written into this file by a task. -/
def LogShare.slice? : LogShare → Text → Option (Nat × Text)
  | .slice logFname fileOffset bytes, fname =>
      if logFname = fname then some (fileOffset, bytes) else none
  | _, _ => none

section

variable {n : Nat}

/-- The files after a collective operation; the slices arrive in some order. -/
def fileAfter (order : List (Fin n)) (op : LogOp) (x : Fin n → LogShare) (files : LogFiles) :
    LogFiles :=
  match op with
  | .fileOpen => fun fname =>
      if order.any fun p => (x p).opens fname then some ((files fname).getD []) else files fname
  | .fileWriteAll => fun fname =>
      (files fname).map (overlay (order.filterMap fun p => (x p).slice? fname))
  | _ => files

/-- The files after an act; only rank 0 touches them outside the collectives. -/
def fileAct (p : Fin n) (a : LogAct) (files : LogFiles) : LogFiles :=
  if p.val = 0 then
    match a with
    | .delete fname => Function.update files fname none
    | .create fname => Function.update files fname (some [])
    | .append fname out => Function.update files fname ((files fname).map (· ++ out))
  else files

theorem fileAct_commute : ActsCommute (fileAct (n := n)) := by
  intro p q apart a b files
  unfold fileAct
  split
  · rename_i first
    rw [if_neg fun second => apart (Fin.ext (first.trans second.symm)),
      if_neg fun second => apart (Fin.ext (first.trans second.symm))]
  · rfl

/-- A file that all tasks open is there, with what it had. -/
theorem fileAfter_fileOpen {order : List (Fin n)} {p : Fin n} (mem : p ∈ order) (fname : Text)
    (files : LogFiles) :
    fileAfter order .fileOpen (fun _ => .opening fname true) files =
      Function.update files fname (some ((files fname).getD [])) := by
  funext other
  unfold fileAfter
  dsimp only
  rcases eq_or_ne other fname with rfl | apart
  · rw [Function.update_self, if_pos]
    exact List.any_eq_true.mpr ⟨p, mem, by rw [LogShare.opens, beq_self_eq_true, Bool.and_self]⟩
  · rw [Function.update_of_ne apart, if_neg]
    rw [List.any_eq_true]
    rintro ⟨q, -, opens⟩
    rw [LogShare.opens, beq_eq_false_iff_ne.mpr apart.symm] at opens
    cases opens

/-- No file changes when none is opened. -/
theorem fileAfter_unopened {order : List (Fin n)} (fname : Fin n → Text) (files : LogFiles) :
    fileAfter order .fileOpen (fun p => .opening (fname p) false) files = files := by
  funext other
  unfold fileAfter
  dsimp only
  rw [if_neg]
  rw [List.any_eq_true]
  rintro ⟨q, -, opens⟩
  rw [LogShare.opens, Bool.and_false] at opens
  cases opens

/-- The slices of one file are laid over it. -/
theorem fileAfter_fileWriteAll {order : List (Fin n)} (fname : Text) (offset : Fin n → Nat)
    (bytes : Fin n → Text) (files : LogFiles) :
    fileAfter order .fileWriteAll (fun p => .slice fname (offset p) (bytes p)) files =
      Function.update files fname
        ((files fname).map (overlay (order.map fun p => (offset p, bytes p)))) := by
  funext other
  unfold fileAfter
  dsimp only
  rcases eq_or_ne other fname with rfl | apart
  · simp only [LogShare.slice?, if_true, Function.update_self]
    rw [← List.filterMap_eq_map]
    rfl
  · simp only [LogShare.slice?, if_neg apart.symm, Function.update_of_ne apart,
      List.filterMap_none]
    exact Option.map_id'

variable [NeZero n] {J T : Type} (text : RecordText J T)

/-- Rank 0. -/
def root (n : Nat) [NeZero n] : Fin n := Fin.ofNat n 0

@[simp] theorem val_root : (root n).val = 0 := Nat.zero_mod n

theorem eq_root {p : Fin n} (zero : p.val = 0) : p = root n := Fin.ext (zero.trans val_root.symm)

@[simp] theorem fileAct_delete (fname : Text) (files : LogFiles) :
    fileAct (root n) (.delete fname) files = Function.update files fname none := if_pos val_root

@[simp] theorem fileAct_create (fname : Text) (files : LogFiles) :
    fileAct (root n) (.create fname) files = Function.update files fname (some []) :=
  if_pos val_root

@[simp] theorem fileAct_append (fname out file : Text) (files : LogFiles) :
    fileAct (root n) (.append fname out) (Function.update files fname (some file)) =
      Function.update files fname (some (file ++ out)) := by
  refine (if_pos val_root).trans ?_
  dsimp only
  rw [Function.update_self, Function.update_idem]
  rfl

/-- `PMPI_Recv(&buff_sum,1,MPI_INTEGER8,src,0,…)`. -/
def recvSum (src : Nat) (k : Nat → LogProg n J T) : LogProg n J T :=
  .recv (Fin.ofNat n src) 0 fun
    | .sum buffSum => k buffSum
    | _ => .done .fault

/-- The chain of prefix sums that gives each task its file offset. -/
def chain (t : LogTask T) (buffSize : Nat) (k : Nat → LogProg n J T) : LogProg n J T :=
  if 1 < t.mpiSize then
    if t.mpiRank = 0 then
      .send (Fin.ofNat n 1) 0 (.sum (0 + buffSize)) (k 0)
    else if t.mpiRank + 1 = t.mpiSize then
      recvSum (t.mpiRank - 1) k
    else
      recvSum (t.mpiRank - 1) fun buffSum =>
        .send (Fin.ofNat n (t.mpiRank + 1)) 0 (.sum (buffSum + buffSize)) (k buffSum)
  else k 0

/-- Set the view to the offset, write the buffer, close. -/
def writeSlice (logFname : Text) (buffSize : Nat) (buffer : Text) (fileOffset : Nat) :
    LogProg n J T :=
  .coll .fileSetView .nothing fun _ =>
    .coll .fileWriteAll (.slice logFname fileOffset (buffer.take buffSize)) fun _ =>
      .coll .fileClose .nothing fun _ =>
        .coll .barrier .nothing fun _ => .done (.parallel fileOffset buffSize)

end

/-- What `ipm_log` asks of the system in one task: `malloc`, which fails or returns a block
of the size asked for, with anything in it, `stat` of the directory, and whether
`PMPI_File_open` and `fopen` open a file of this name. -/
structure LogSystem where
  malloc : Nat → Option Text
  length_malloc : ∀ size block, malloc size = some block → block.length = size
  stat : Text → Bool
  fileOpen : Text → Bool
  fopen : Text → Bool

/-- `job` with the directory and the name of the log file. -/
def LogJob.named {J : Type} (sys : LogSystem) (job : LogJob J) : LogJob J :=
  let logDir := if sys.stat job.logDir then job.logDir else "./".toList
  { job with
    logDir := logDir
    logFname := logDir ++ '/' ::
      if job.logFname = "unset".toList then job.username ++ '.' :: (job.cookie ++ ".0".toList)
      else job.logFname }

section

variable {n : Nat} [NeZero n] {J T : Type} (text : RecordText J T) (sys : LogSystem)

/-- The branch in which every task has a buffer.  A task that does not get the file returns
at once. -/
def parallelBranch (logFname : Text) (t : LogTask T) (buffSize : Nat) (buffer : Text) :
    LogProg n J T :=
  let body : LogProg n J T :=
    .coll .barrier .nothing fun _ =>
      .coll .fileOpen (.opening logFname (sys.fileOpen logFname)) fun _ =>
        if sys.fileOpen logFname then chain t buffSize (writeSlice logFname buffSize buffer)
        else .done .unopened
  if t.mpiRank = 0 then .act (.delete logFname) body else body

/-- The end of the serial branch. -/
def serialEnd : LogProg n J T := .coll .barrier .nothing fun _ => .done .serial

/-- The loop of rank 0 over the other tasks; `job` and `task` are overwritten by what it
receives, and its bound is read from `job`, while the stream stays.  A send to a rank that
there is not is an error. -/
def serialLoop (logFname : Text) : Nat → Nat → LogJob J → LogProg n J T
  | 0, i, job => if (i : Int) < job.ntasks then .done .fault else serialEnd
  | left + 1, i, job =>
      if (i : Int) < job.ntasks then
        .send (Fin.ofNat n i) 0 .token <|
          .recv (Fin.ofNat n i) 0 fun
            | .job job =>
              .recv (Fin.ofNat n i) 1 fun
                | .task task =>
                  .recv (Fin.ofNat n i) 1 fun
                    | .txt txt =>
                      .act (.append logFname (ipmLogWrite text job task txt).flatten) <|
                        serialLoop logFname left (i + 1) job
                    | _ => .done .fault
                | _ => .done .fault
            | _ => .done .fault
      else serialEnd

/-- The other tasks answer the token. -/
def serialClient (job : LogJob J) (task : LogTask T) : LogProg n J T :=
  .recv (root n) 0 fun _ =>
    .send (root n) 0 (.job job) <| .send (root n) 1 (.task task) <|
      .send (root n) 1 (.txt []) serialEnd

/-- The branch in which rank 0 writes. -/
def serialBranch (job : LogJob J) (task : LogTask T) : LogProg n J T :=
  if task.mpiRank = 0 then
    -- the failure of `fopen` is printed, and the stream used all the same
    if sys.fopen job.logFname then
      .act (.create job.logFname) <|
        .act (.append job.logFname (ipmLogWrite text job task []).flatten) <|
          serialLoop text job.logFname (n - 1) 1 job
    else .done .fault
  else serialClient job task

/-- The buffer with the record in it, if it could be allocated. -/
def ioBuffer (pieces : List Text) : Option Text :=
  (sys.malloc (measure pieces + 1)).map fun block => (fill (measure pieces) block pieces).buffer

/-- `ipm_log`, aggregation method 4. -/
def ipmLog (job : LogJob J) (task : LogTask T) : LogProg n J T :=
  if task.wroteLog then .done .bailed
  else
    let task := { task with wroteLog := true }
    if job.logDir = "/dev/null".toList then .done .bailed
    else
      let job := job.named sys
      if maxsizeFilename ≤ job.logFname.length then .done .fault
      else if task.parallelIoLog then
        let pieces := ipmLogWrite text job task []
        let buffer := ioBuffer sys pieces
        .coll .allreduce (.flag (if buffer.isSome then 1 else 0)) fun all =>
          if ((List.finRange n).map fun p => (all p).mallocFlag).sum = task.mpiSize then
            parallelBranch sys job.logFname task (measure pieces) (buffer.getD [])
          else serialBranch text sys job task
      else serialBranch text sys job task

/-- `MPI_Init` sets the size of the job and the place of the task in it. -/
def mpiInitJob (n : Nat) (job : LogJob J) : LogJob J := { job with ntasks := n }

def mpiInitTask {n : Nat} (p : Fin n) (task : LogTask T) : LogTask T :=
  { task with mpiRank := p, mpiSize := n }

end

/-! ## The parallel path -/

section Parallel

variable {n : Nat} [NeZero n] {J T : Type} {order : List (Fin n)}
  {k : Fin n → Nat → LogProg n J T} {size offs : Fin n → Nat} {world : LogFiles}

/-- What a task does once it knows its offset. -/
def knows (size : Fin n → Nat) (k : Fin n → Nat → LogProg n J T) (p : Fin n) (buffSum : Nat) :
    LogProg n J T :=
  if p.val + 1 < n then
    .send (Fin.ofNat n (p + 1)) 0 (.sum (buffSum + size p)) (k p buffSum)
  else k p buffSum

/-- The chain has come to rank `r`. -/
def chainAt (size offs : Fin n → Nat) (k : Fin n → Nat → LogProg n J T) (r : Nat) (p : Fin n) :
    LogProg n J T :=
  if p.val < r then k p (offs p)
  else if p.val = r then knows size k p (offs p)
  else recvSum (p - 1) (knows size k p)

/-- The first, the last, the middle and the only task follow one pattern. -/
theorem chain_eq {t : LogTask T} {p : Fin n} (rank : t.mpiRank = p) (size_ : t.mpiSize = n)
    (first : ∀ p : Fin n, p.val = 0 → offs p = 0) :
    chain t (size p) (k p) = chainAt size offs k 0 p := by
  unfold chain chainAt
  rw [rank, size_, if_neg (Nat.not_lt_zero _)]
  have here := p.isLt
  by_cases zero : p.val = 0
  · rw [if_pos zero, if_pos zero, first p zero, knows, zero]
  · rw [if_neg zero, if_neg zero, if_pos (by omega)]
    by_cases last : p.val + 1 = n
    · rw [if_pos last]
      congr 1
      funext buffSum
      rw [knows, if_neg (by omega)]
    · rw [if_neg last]
      congr 1
      funext buffSum
      rw [knows, if_pos (by omega)]

/-- One link of the chain. -/
theorem chain_step
    (sum : ∀ (p : Fin n) (next : p.val + 1 < n), offs ⟨p + 1, next⟩ = offs p + size p)
    {r : Nat} (next : r + 1 < n) :
    Reaches (Step fileAct (fileAfter order)) (quiet (chainAt size offs k r) world)
      (quiet (chainAt size offs k (r + 1)) world) := by
  obtain ⟨p, here⟩ : ∃ p : Fin n, p.val = r := ⟨⟨r, by omega⟩, rfl⟩
  subst here
  have to_ : Fin.ofNat n (p + 1) = ⟨p + 1, next⟩ := Fin.ext (Nat.mod_eq_of_lt next)
  have from_ : Fin.ofNat n p.val = p := Fin.ext (Nat.mod_eq_of_lt p.isLt)
  have apart : p ≠ ⟨p + 1, next⟩ := fun same => Nat.succ_ne_self _ (congrArg Fin.val same).symm
  have sends : chainAt size offs k p p =
      .send ⟨p + 1, next⟩ 0 (.sum (offs p + size p)) (chainAt size offs k (p + 1) p) := by
    rw [chainAt, if_neg (Nat.lt_irrefl _), if_pos rfl, knows, if_pos next, to_, chainAt,
      if_pos (Nat.lt_succ_self _)]
  have recvs : chainAt size offs k p ⟨p + 1, next⟩ =
      recvSum p (knows size k ⟨p + 1, next⟩) := by
    rw [chainAt, if_neg (by simp), if_neg (by simp)]
    rfl
  have got : chainAt size offs k (p + 1) ⟨p + 1, next⟩ =
      knows size k ⟨p + 1, next⟩ (offs p + size p) := by
    rw [chainAt, if_neg (Nat.lt_irrefl _), if_pos rfl, sum p next]
  have others : ∀ x : Fin n, x ≠ p → x ≠ ⟨p + 1, next⟩ →
      chainAt size offs k (p + 1) x = chainAt size offs k p x := by
    intro x notP notNext
    have apart' : x.val ≠ p.val := fun same => notP (Fin.ext same)
    have apart'' : x.val ≠ p.val + 1 := fun same => notNext (Fin.ext same)
    unfold chainAt
    by_cases before : x.val < p.val
    · rw [if_pos (by omega), if_pos before]
    · rw [if_neg (by omega), if_neg apart'', if_neg before, if_neg apart']
  rw [recvSum, from_] at recvs
  exact reaches_transfer apart sends recvs got others

/-- The chain gives every task the sum of the sizes before it. -/
theorem chain_reaches (first : ∀ p : Fin n, p.val = 0 → offs p = 0)
    (sum : ∀ (p : Fin n) (next : p.val + 1 < n), offs ⟨p + 1, next⟩ = offs p + size p)
    {t : Fin n → LogTask T} (rank : ∀ p, (t p).mpiRank = p) (size_ : ∀ p, (t p).mpiSize = n) :
    Reaches (Step fileAct (fileAfter order)) (quiet (fun p => chain (t p) (size p) (k p)) world)
      (quiet (fun p => k p (offs p)) world) := by
  have start : (fun p => chain (t p) (size p) (k p)) = chainAt size offs k 0 :=
    funext fun p => chain_eq (rank p) (size_ p) first
  have finish : (fun p => k p (offs p)) = chainAt size offs k (n - 1) := by
    funext p
    have here := p.isLt
    unfold chainAt
    by_cases last : p.val < n - 1
    · rw [if_pos last]
    · rw [if_neg last, if_pos (by omega), knows, if_neg (by omega)]
  have all : ∀ r, r ≤ n - 1 → Reaches (Step fileAct (fileAfter order))
      (quiet (chainAt size offs k 0) world) (quiet (chainAt size offs k r) world) := by
    intro r
    induction r with
    | zero => exact fun _ => .refl _
    | succ r ih => exact fun le => (ih (by omega)).trans (chain_step sum (by omega))
  rw [start, finish]
  exact all (n - 1) (Nat.le_refl _)

variable {J T : Type} {sys : Fin n → LogSystem} {task : Fin n → LogTask T} {fname : Text}
  {rec buffer : Fin n → Text}

/-- What all tasks do once the old file is deleted. -/
def openAndWrite (sys : LogSystem) (logFname : Text) (t : LogTask T) (buffSize : Nat)
    (buffer : Text) : LogProg n J T :=
  .coll .barrier .nothing fun _ =>
    .coll .fileOpen (.opening logFname (sys.fileOpen logFname)) fun _ =>
      if sys.fileOpen logFname then chain t buffSize (writeSlice logFname buffSize buffer)
      else .done .unopened

theorem parallelBranch_eq (sys : LogSystem) (logFname : Text) (t : LogTask T) (buffSize : Nat)
    (buffer : Text) : (parallelBranch sys logFname t buffSize buffer : LogProg n J T) =
      if t.mpiRank = 0 then .act (.delete logFname) (openAndWrite sys logFname t buffSize buffer)
      else openAndWrite sys logFname t buffSize buffer := rfl

/-- All tasks come to `PMPI_File_open`, after rank 0 has deleted the old file. -/
theorem parallel_delete (rank : ∀ p, (task p).mpiRank = p) (name : Fin n → Text)
    (size : Fin n → Nat) (files : LogFiles) :
    Reaches (Step fileAct (fileAfter order))
      (quiet (fun p => (parallelBranch (sys p) (name p) (task p) (size p) (buffer p) :
        LogProg n J T)) files)
      (quiet (fun p => .coll .fileOpen (.opening (name p) ((sys p).fileOpen (name p))) fun _ =>
          if (sys p).fileOpen (name p) then
            chain (task p) (size p) (writeSlice (name p) (size p) (buffer p))
          else .done .unopened)
        (Function.update files (name (root n)) none)) := by
  let next : Fin n → LogProg n J T := fun p =>
    openAndWrite (sys p) (name p) (task p) (size p) (buffer p)
  have acts : parallelBranch (sys (root n)) (name (root n)) (task (root n)) (size (root n))
      (buffer (root n)) = .act (.delete (name (root n))) (next (root n)) := by
    rw [parallelBranch_eq, if_pos ((rank _).trans val_root)]
  have others : ∀ p : Fin n, p ≠ root n →
      next p = parallelBranch (sys p) (name p) (task p) (size p) (buffer p) := by
    intro p other
    rw [parallelBranch_eq, if_neg]
    rw [rank p]
    exact fun zero => other (eq_root zero)
  have deleted : Reaches (Step fileAct (fileAfter order))
      (quiet (fun p => (parallelBranch (sys p) (name p) (task p) (size p) (buffer p) :
        LogProg n J T)) files)
      (quiet next (fileAct (root n) (.delete (name (root n))) files)) := reaches_act acts others
  rw [fileAct_delete] at deleted
  exact deleted.trans (reaches_collective fun p => rfl)

/-- The parallel path leaves the records in the order of the ranks, in whatever order
the slices are written, and no other file changes. -/
theorem parallel_reaches (every : ∀ p, p ∈ order) (rank : ∀ p, (task p).mpiRank = p)
    (size_ : ∀ p, (task p).mpiSize = n) (opens : ∀ p, (sys p).fileOpen fname = true)
    (holds : ∀ p, (buffer p).take (rec p).length = rec p) (files : LogFiles) :
    Reaches (Step fileAct (fileAfter order))
      (quiet (fun p => (parallelBranch (sys p) fname (task p) (rec p).length (buffer p) :
        LogProg n J T)) files)
      (quiet (fun p => .done (.parallel (offset rec p) (rec p).length))
        (Function.update files fname (some (List.ofFn rec).flatten))) := by
  have first : ∀ p : Fin n, p.val = 0 → offset rec p = 0 := by
    intro p zero
    rw [offset, zero]
    rfl
  have opened : fileAfter order .fileOpen (fun _ => .opening fname true)
      (Function.update files fname none) = Function.update files fname (some []) := by
    rw [fileAfter_fileOpen (every (root n)), Function.update_self, Function.update_idem,
      Option.getD_none]
  have written : fileAfter order .fileWriteAll (fun p => .slice fname (offset rec p) (rec p))
      (Function.update files fname (some [])) =
        Function.update files fname (some (List.ofFn rec).flatten) := by
    rw [fileAfter_fileWriteAll, Function.update_self, Function.update_idem, Option.map_some,
      overlay_records rec every]
  refine (parallel_delete rank (fun _ => fname) (fun p => (rec p).length) files).trans ?_
  simp only [opens, if_true]
  refine (reaches_collective fun p => rfl).trans ?_
  rw [opened]
  refine (chain_reaches first (offset_succ rec) rank size_).trans ?_
  refine (reaches_collective fun p => rfl).trans ?_
  refine (reaches_collective fun p => rfl).trans ?_
  simp only [holds]
  have wrote : fileAfter order .fileWriteAll (fun p => .slice fname (offset rec p) (rec p))
      (fileAfter order .fileSetView (fun _ => .nothing) (Function.update files fname (some []))) =
        Function.update files fname (some (List.ofFn rec).flatten) := written
  rw [wrote]
  refine (reaches_collective fun p => rfl).trans ?_
  exact reaches_collective fun p => rfl

/-- Tasks that do not get the file return; the old one is gone. -/
theorem parallel_unopened (rank : ∀ p, (task p).mpiRank = p) (name : Fin n → Text)
    (size : Fin n → Nat) (fails : ∀ p, (sys p).fileOpen (name p) = false) (files : LogFiles) :
    Reaches (Step fileAct (fileAfter order))
      (quiet (fun p => (parallelBranch (sys p) (name p) (task p) (size p) (buffer p) :
        LogProg n J T)) files)
      (quiet (fun _ => .done .unopened) (Function.update files (name (root n)) none)) := by
  refine (parallel_delete rank name size files).trans ?_
  simp only [fails, Bool.false_eq_true, if_false]
  refine (reaches_collective fun p => rfl).trans ?_
  rw [fileAfter_unopened]
  exact .refl _

end Parallel

/-! ## The serial path -/

section Serial

variable {n : Nat} [NeZero n] {J T : Type} {order : List (Fin n)} (text : RecordText J T)
  {sys : Fin n → LogSystem} {job : Fin n → LogJob J} {task : Fin n → LogTask T} {fname : Text}
  {files : LogFiles}

/-- Rank 0 has written the records below `i`, with `left` tasks to go, and `job` is that
of the last one. -/
def serialAt (fname : Text) (job : Fin n → LogJob J) (task : Fin n → LogTask T) (left i : Nat)
    (last : LogJob J) (p : Fin n) : LogProg n J T :=
  if p.val = 0 then serialLoop text fname left i last
  else if p.val < i then serialEnd
  else serialClient (job p) (task p)

/-- Rank 0 asks one task and writes its record. -/
theorem serial_step {left : Nat} {q : Fin n} (behind : q.val ≠ 0) {last : LogJob J}
    (bound : last.ntasks = n) {file : Text} :
    Reaches (Step fileAct (fileAfter order))
      (quiet (serialAt text fname job task (left + 1) q last)
        (Function.update files fname (some file)))
      (quiet (serialAt text fname job task left (q + 1) (job q))
        (Function.update files fname (some (file ++ record text job task q)))) := by
  have apart : root n ≠ q := fun same => behind (by rw [← same, val_root])
  have here : Fin.ofNat n q.val = q := Fin.ext (Nat.mod_eq_of_lt q.isLt)
  have start : serialAt text fname job task (left + 1) q last = duo (root n) q
      (serialLoop text fname (left + 1) q last) (serialClient (job q) (task q))
      (serialAt text fname job task (left + 1) q last) := by
    refine eq_duo ?_ ?_ fun z _ _ => rfl
    · rw [serialAt, if_pos val_root]
    · rw [serialAt, if_neg behind, if_neg (Nat.lt_irrefl _)]
  have finish : serialAt text fname job task left (q + 1) (job q) = duo (root n) q
      (serialLoop text fname left (q + 1) (job q)) serialEnd
      (serialAt text fname job task (left + 1) q last) := by
    refine eq_duo ?_ ?_ fun z notRoot notQ => ?_
    · rw [serialAt, if_pos val_root]
    · rw [serialAt, if_neg behind, if_pos (Nat.lt_succ_self _)]
    · have away : z.val ≠ 0 := fun zero => notRoot (eq_root zero)
      have apart' : z.val ≠ q.val := fun same => notQ (Fin.ext same)
      unfold serialAt
      rw [if_neg away, if_neg away]
      by_cases before : z.val < q.val
      · rw [if_pos (by omega), if_pos before]
      · rw [if_neg (by omega), if_neg before]
  have more : (q.val : Int) < last.ntasks := by
    rw [bound]
    exact Int.ofNat_lt.mpr q.isLt
  rw [start, finish, serialLoop, if_pos more, serialClient, here]
  refine (reaches_ask apart).trans ?_
  refine (reaches_answer apart).trans ?_
  refine (reaches_answer apart).trans ?_
  refine (reaches_answer apart).trans ?_
  refine (reaches_duo_left apart (.act rfl)).trans ?_
  rw [fileAct_append]
  exact .refl _

/-- Rank 0 has asked all tasks below `i`. -/
theorem serial_loop (ntasks : ∀ p, (job p).ntasks = n) {i : Nat} (from_ : 1 ≤ i) (to_ : i ≤ n) :
    ∃ last : LogJob J, last.ntasks = n ∧ Reaches (Step fileAct (fileAfter order))
      (quiet (serialAt text fname job task (n - 1) 1 (job (root n)))
        (Function.update files fname (some ((List.ofFn (record text job task)).take 1).flatten)))
      (quiet (serialAt text fname job task (n - i) i last)
        (Function.update files fname
          (some ((List.ofFn (record text job task)).take i).flatten))) := by
  induction i, from_ using Nat.le_induction with
  | base => exact ⟨job (root n), ntasks _, .refl _⟩
  | succ i from_ ih =>
      obtain ⟨last, bound, sofar⟩ := ih (by omega)
      obtain ⟨q, rfl⟩ : ∃ q : Fin n, q.val = i := ⟨⟨i, to_⟩, rfl⟩
      refine ⟨job q, ntasks q, sofar.trans ?_⟩
      have left : n - q.val = (n - (q.val + 1)) + 1 := by omega
      rw [left, flatten_take_succ]
      exact serial_step text (by omega) bound

/-- Rank 0 creates the file and writes its own record. -/
theorem serial_open (rank : ∀ p, (task p).mpiRank = p) (name : (job (root n)).logFname = fname)
    (opens : (sys (root n)).fopen fname = true) :
    Reaches (Step fileAct (fileAfter order))
      (quiet (fun p => (serialBranch text (sys p) (job p) (task p) : LogProg n J T)) files)
      (quiet (serialAt text fname job task (n - 1) 1 (job (root n)))
        (Function.update files fname (some (record text job task (root n))))) := by
  let opened : Fin n → LogProg n J T := fun p =>
    if p.val = 0 then
      .act (.append fname (record text job task p)) (serialLoop text fname (n - 1) 1 (job p))
    else serialClient (job p) (task p)
  have away : ∀ p : Fin n, p ≠ root n → p.val ≠ 0 := fun p other zero => other (eq_root zero)
  have create : Reaches (Step fileAct (fileAfter order))
      (quiet (fun p => (serialBranch text (sys p) (job p) (task p) : LogProg n J T)) files)
      (quiet opened (fileAct (root n) (.create fname) files)) := by
    refine reaches_act ?_ fun p other => ?_
    · rw [serialBranch, if_pos ((rank _).trans val_root), name, if_pos opens]
      simp only [opened, val_root, if_true]
      rfl
    · simp only [opened, if_neg (away p other)]
      rw [serialBranch, rank, if_neg (away p other)]
  have write : Reaches (Step fileAct (fileAfter order))
      (quiet opened (Function.update files fname (some [])))
      (quiet (serialAt text fname job task (n - 1) 1 (job (root n)))
        (fileAct (root n) (.append fname (record text job task (root n)))
          (Function.update files fname (some [])))) := by
    refine reaches_act ?_ fun p other => ?_
    · rw [serialAt, if_pos val_root]
      simp only [opened, val_root, if_true]
    · have behind : ¬p.val < 1 := by
        have := away p other
        omega
      simp only [opened, if_neg (away p other)]
      rw [serialAt, if_neg (away p other), if_neg behind]
  rw [fileAct_create] at create
  rw [fileAct_append, List.nil_append] at write
  exact create.trans write

/-- The serial path leaves the records in the order of the ranks, in the file of rank 0. -/
theorem serial_reaches (ntasks : ∀ p, (job p).ntasks = n) (rank : ∀ p, (task p).mpiRank = p)
    (name : (job (root n)).logFname = fname) (opens : (sys (root n)).fopen fname = true) :
    Reaches (Step fileAct (fileAfter order))
      (quiet (fun p => (serialBranch text (sys p) (job p) (task p) : LogProg n J T)) files)
      (quiet (fun _ => .done .serial)
        (Function.update files fname (some (List.ofFn (record text job task)).flatten))) := by
  have pos : 0 < n := Nat.pos_of_ne_zero (NeZero.ne n)
  have own := flatten_take_succ (record text job task) (root n)
  rw [val_root] at own
  obtain ⟨last, bound, loop⟩ := serial_loop text ntasks pos (Nat.le_refl n)
  have finished : serialAt text fname job task (n - n) n last = fun _ => serialEnd := by
    funext p
    rw [serialAt, Nat.sub_self, if_pos p.isLt, serialLoop, bound, if_neg (Int.lt_irrefl _),
      ite_self]
  rw [finished, own, List.take_of_length_le (Nat.le_of_eq List.length_ofFn)] at loop
  exact ((serial_open text rank name opens).trans loop).trans (reaches_collective fun p => rfl)

end Serial

/-! ## All of it -/

section

variable {n : Nat} {J T : Type} (text : RecordText J T) (sys : Fin n → LogSystem)
  (job : Fin n → LogJob J) (task : Fin n → LogTask T)

/-- The jobs and the tasks as `MPI_Init` and the first lines of `ipm_log` leave them. -/
def jobs (p : Fin n) : LogJob J := (mpiInitJob n (job p)).named (sys p)

def tasks (p : Fin n) : LogTask T := { mpiInitTask p (task p) with wroteLog := true }

/-- The buffer of a task, with its record in it, if it could be allocated. -/
def buffers (p : Fin n) : Option Text :=
  ioBuffer (sys p) (ipmLogWrite text (jobs sys job p) (tasks task p) [])

/-- The slice a task writes on the parallel path. -/
def sliceOf (p : Fin n) : Nat × Nat :=
  (offset (record text (jobs sys job) (tasks task)) p,
    (record text (jobs sys job) (tasks task) p).length)

/-- No task leaves `ipm_log` at its beginning, and all have the same IPM_PARALLEL_IO. -/
structure Together : Prop where
  fresh : ∀ p, (task p).wroteLog = false
  dir : ∀ p, (job p).logDir ≠ "/dev/null".toList
  same : ∀ p q, (task p).parallelIoLog = (task q).parallelIoLog

variable {text sys job task}

theorem sum_flags {X : Type} (l : List X) (b : X → Bool) :
    (l.map fun x => if b x then 1 else 0).sum = l.countP b := by
  induction l with
  | nil => rfl
  | cons x l ih =>
      rw [List.map_cons, List.sum_cons, ih, List.countP_cons, Nat.add_comm]

/-- The allocations are counted: the sum is the size of the job if all have succeeded. -/
theorem sum_eq_size (b : Fin n → Bool) :
    ((List.finRange n).map fun p => (LogShare.flag (if b p then 1 else 0)).mallocFlag).sum = n ↔
      (List.finRange n).all b = true := by
  have counted := sum_flags (List.finRange n) b
  have every := List.countP_eq_length (p := b) (l := List.finRange n)
  rw [List.length_finRange] at every
  rw [List.all_eq_true]
  exact Iff.trans (by rw [← counted]; rfl) every

/-- A buffer that could be allocated holds the record. -/
theorem buffers_eq {p : Fin n} {buffer : Text}
    (some_ : buffers text sys job task p = some buffer) :
    buffer.take (record text (jobs sys job) (tasks task) p).length =
      record text (jobs sys job) (tasks task) p := by
  obtain ⟨block, got, rfl⟩ := Option.map_eq_some_iff.mp some_
  have room := (sys p).length_malloc _ _ got
  have filled := (fill_eq (ipmLogWrite_pieces text (jobs sys job p) (tasks task p) []) room).1
  rw [record, ← measure_eq, filled]

variable [NeZero n]

/-- The records, rank by rank, are the log. -/
theorem flatten_records : (List.ofFn (record text (jobs sys job) (tasks task))).flatten =
    logFile text (jobs sys job) (tasks task) := by
  obtain ⟨m, rfl⟩ := Nat.exists_eq_succ_of_ne_zero (NeZero.ne n)
  exact flatten_record text (fun _ => rfl) fun _ => rfl

/-- Slices that follow one another without a gap, up to a length. -/
structure Tiles (slice : Fin n → Nat × Nat) (length : Nat) : Prop where
  first : (slice (root n)).1 = 0
  next : ∀ (p : Fin n) (h : p.val + 1 < n), (slice ⟨p + 1, h⟩).1 = (slice p).1 + (slice p).2
  last : ∀ p : Fin n, p.val + 1 = n → (slice p).1 + (slice p).2 = length

theorem sliceOf_tiles :
    Tiles (sliceOf text sys job task) (logFile text (jobs sys job) (tasks task)).length where
  first := by
    rw [sliceOf, offset, val_root]
    rfl
  next p h := offset_succ _ p h
  last p end_ := by
    rw [sliceOf, offset, ← List.length_append, ← flatten_take_succ, end_,
      List.take_of_length_le (Nat.le_of_eq List.length_ofFn), flatten_records]

variable (text sys job task)

/-- All tasks come to `ipm_log`. -/
def logNet (files : LogFiles) :
    Net (Fin n) LogOp LogShare (LogMsg J T) LogAct LogFiles LogEnd :=
  quiet (fun p => ipmLog text (sys p) (mpiInitJob n (job p)) (mpiInitTask p (task p))) files

/-- All tasks take the parallel path. -/
def takesParallel : Bool :=
  (task (root n)).parallelIoLog &&
    (List.finRange n).all fun p => (buffers text sys job task p).isSome

/-- The file that rank 0 names. -/
def logName : Text := (jobs sys job (root n)).logFname

/-- The log file can be opened: no task has a name that is too long; on the parallel path all
have the name of rank 0, and each gets the file; on the serial path rank 0 gets it. -/
structure LogOpens : Prop where
  short : ∀ p, (jobs sys job p).logFname.length < maxsizeFilename
  parallel : takesParallel text sys job task = true →
    ∀ p, (jobs sys job p).logFname = logName sys job ∧ (sys p).fileOpen (logName sys job) = true
  serial : takesParallel text sys job task = false → (sys (root n)).fopen (logName sys job) = true

/-- How `ipm_log` ends for a task. -/
def logEnd (p : Fin n) : LogEnd :=
  if takesParallel text sys job task then
    .parallel (sliceOf text sys job task p).1 (sliceOf text sys job task p).2
  else .serial

variable {text sys job task}

/-- A task that does not leave at the beginning. -/
theorem ipmLog_eq (together : Together job task)
    (short : ∀ p, (jobs sys job p).logFname.length < maxsizeFilename) (p : Fin n) :
    ipmLog text (sys p) (mpiInitJob n (job p)) (mpiInitTask p (task p)) =
      if (task (root n)).parallelIoLog then
        .coll .allreduce (.flag (if (buffers text sys job task p).isSome then 1 else 0)) fun all =>
          if ((List.finRange n).map fun p => (all p).mallocFlag).sum = n then
            parallelBranch (sys p) (jobs sys job p).logFname (tasks task p)
              (record text (jobs sys job) (tasks task) p).length
              ((buffers text sys job task p).getD [])
          else serialBranch text (sys p) (jobs sys job p) (tasks task p)
      else serialBranch text (sys p) (jobs sys job p) (tasks task p) := by
  have fresh : (mpiInitTask p (task p)).wroteLog = false := together.fresh p
  have dir : (mpiInitJob n (job p)).logDir ≠ "/dev/null".toList := together.dir p
  have fits : ¬maxsizeFilename ≤ ((mpiInitJob n (job p)).named (sys p)).logFname.length :=
    Nat.not_le.mpr (short p)
  rw [ipmLog, fresh, if_neg Bool.false_ne_true, if_neg dir, together.same (root n) p,
    record, ← measure_eq]
  exact if_neg fits

/-- All tasks come to the parallel path. -/
theorem logNet_parallel {order : List (Fin n)} (together : Together job task)
    (short : ∀ p, (jobs sys job p).logFname.length < maxsizeFilename)
    (taken : takesParallel text sys job task = true) (files : LogFiles) :
    Reaches (Step fileAct (fileAfter order)) (logNet text sys job task files)
      (quiet (fun p => parallelBranch (sys p) (jobs sys job p).logFname (tasks task p)
        (record text (jobs sys job) (tasks task) p).length
        ((buffers text sys job task p).getD [])) files) := by
  rw [logNet, funext (ipmLog_eq together short)]
  obtain ⟨flag, all⟩ := Bool.and_eq_true_iff.mp taken
  simp only [flag, if_true]
  refine (reaches_collective fun p => rfl).trans ?_
  simp only [(sum_eq_size _).mpr all, if_true]
  exact .refl _

/-- All tasks come to the serial path, for want of the flag or of a buffer. -/
theorem logNet_serial {order : List (Fin n)} (together : Together job task)
    (short : ∀ p, (jobs sys job p).logFname.length < maxsizeFilename)
    (left : takesParallel text sys job task = false) (files : LogFiles) :
    Reaches (Step fileAct (fileAfter order)) (logNet text sys job task files)
      (quiet (fun p => serialBranch text (sys p) (jobs sys job p) (tasks task p)) files) := by
  rw [logNet, funext (ipmLog_eq together short)]
  rcases Bool.and_eq_false_iff.mp left with flag | some_
  · simp only [flag, Bool.false_eq_true, if_false]
    exact .refl _
  · cases flag : (task (root n)).parallelIoLog with
    | false =>
        simp only [Bool.false_eq_true, if_false]
        exact .refl _
    | true =>
        simp only [if_true]
        refine (reaches_collective fun p => rfl).trans ?_
        have failed := mt (sum_eq_size _).mp (ne_true_of_eq_false some_)
        simp only [failed, if_false]
        exact .refl _

/-- All tasks come to the end of `ipm_log`, with the log in the file. -/
theorem ipmLog_reaches {order : List (Fin n)} (every : ∀ p, p ∈ order)
    (together : Together job task) (opens : LogOpens text sys job task) (files : LogFiles) :
    Reaches (Step fileAct (fileAfter order)) (logNet text sys job task files)
      (quiet (fun p => .done (logEnd text sys job task p))
        (Function.update files (logName sys job)
          (some (logFile text (jobs sys job) (tasks task))))) := by
  unfold logEnd
  cases taken : takesParallel text sys job task with
  | true =>
      have names : ∀ p, (jobs sys job p).logFname = logName sys job :=
        fun p => (opens.parallel taken p).1
      have all := (Bool.and_eq_true_iff.mp taken).2
      simp only [if_true]
      refine (logNet_parallel together opens.short taken files).trans ?_
      simp only [names]
      rw [← flatten_records]
      refine parallel_reaches every (fun _ => rfl) (fun _ => rfl)
        (fun p => (opens.parallel taken p).2) (fun p => ?_) files
      obtain ⟨buffer, got⟩ := Option.isSome_iff_exists.mp
        (List.all_eq_true.mp all p (List.mem_finRange p))
      rw [got, Option.getD_some]
      exact buffers_eq got
  | false =>
      simp only [Bool.false_eq_true, if_false]
      refine (logNet_serial together opens.short taken files).trans ?_
      rw [← flatten_records]
      exact serial_reaches text (fun _ => rfl) (fun _ => rfl) rfl (opens.serial taken)

/-- Where no task gets the file on the parallel path, all return, and there is no log. -/
theorem ipmLog_unopened {order : List (Fin n)} (together : Together job task)
    (short : ∀ p, (jobs sys job p).logFname.length < maxsizeFilename)
    (taken : takesParallel text sys job task = true)
    (fails : ∀ p, (sys p).fileOpen (jobs sys job p).logFname = false) (files : LogFiles) :
    EndsIn (Step fileAct (fileAfter order)) (logNet text sys job task files)
      (quiet (fun _ => .done .unopened) (Function.update files (logName sys job) none)) := by
  have : Nonempty (Fin n) := ⟨root n⟩
  refine endsIn_of_reaches (step_diamond fileAct_commute) (terminal_of_done fun p => ⟨_, rfl⟩)
    ((logNet_parallel together short taken files).trans ?_)
  exact parallel_unopened (fun _ => rfl) _ _ fails files

end

/-! ## A small job -/

/-- A record with nothing in it. -/
def plainText : RecordText Unit Unit where
  taskLine _ _ := []
  inner _ _ _ := []

/-- A system with memory enough, on which every file opens. -/
def plainSystem : LogSystem where
  malloc size := some (List.replicate size 'x')
  length_malloc size block got := by
    cases got
    exact List.length_replicate
  stat _ := true
  fileOpen _ := true
  fopen _ := true

/-- A system with no memory left. -/
def fullSystem : LogSystem where
  malloc _ := none
  length_malloc _ _ got := by cases got
  stat _ := true
  fileOpen _ := true
  fopen _ := true

def plainJob : LogJob Unit where
  ntasks := -1
  logDir := "./".toList
  logFname := "unset".toList
  username := "user".toList
  cookie := "10.000000".toList
  rest := ()

/-- Of three tasks one finds no memory for its buffer. -/
def threeSystems (p : Fin 3) : LogSystem := if p.val = 1 then fullSystem else plainSystem

def threeTasks (_ : Fin 3) : LogTask Unit := ⟨0, 0, false, true, ()⟩

/-- Rank 0 runs with IPM_PARALLEL_IO=n, rank 1 without. -/
def mixedTask (p : Fin 2) : LogTask Unit := ⟨0, 0, false, p.val == 1, ()⟩

/-- A task that sends to one that waits elsewhere, and then waits for its answer. -/
theorem endsIn_unanswered (prog : Fin 2 → LogProg 2 Unit Unit) (world : LogFiles)
    {a b : LogAct} {m : LogMsg Unit Unit} {k : LogMsg Unit Unit → LogProg 2 Unit Unit} {op : LogOp}
    {x : LogShare} {k' : (Fin 2 → LogShare) → LogProg 2 Unit Unit}
    (asks : prog 0 = .act a (.act b (.send 1 0 m (.recv 1 0 k)))) (waits : prog 1 = .coll op x k') :
    ∃ z, EndsIn (Step fileAct (fileAfter [0, 1])) (quiet prog world) z ∧
      z.prog 0 = .recv 1 0 k ∧ z.prog 1 = .coll op x k' := by
  have : Nonempty (Fin 2) := ⟨0⟩
  have apart : (0 : Fin 2) ≠ 1 := by decide
  have start : prog = duo 0 1 _ _ prog := eq_duo asks waits fun _ _ _ => rfl
  have asked : duo 0 1 (.recv 1 0 k) (.coll op x k') prog 0 = .recv 1 0 k := duo_left apart
  have waits' : duo 0 1 (.recv 1 0 k) (.coll op x k') prog 1 = .coll op x k' := duo_right
  rw [start, quiet]
  refine ⟨_, endsIn_of_reaches (step_diamond fileAct_commute) ?_
    ((reaches_duo_left apart (.act rfl)).trans ((reaches_duo_left apart (.act rfl)).trans
      (reaches_duo_left apart (.send rfl)))), asked, waits'⟩
  refine terminal_of_blocked (p := 0) (fun op' x' k'' at_ => ?_) fun q y e goes => ?_
  · cases asked.symm.trans at_
  · obtain rfl | rfl : q = 0 ∨ q = 1 := by omega
    · change Local _ _ (duo 0 1 (.recv 1 0 k) (.coll op x k') prog 0) _ _ _ at goes
      rw [asked] at goes
      exact Local.not_recv rfl goes
    · change Local _ _ (duo 0 1 (.recv 1 0 k) (.coll op x k') prog 1) _ _ _ at goes
      rw [waits'] at goes
      exact Local.not_coll goes

end Ipm
