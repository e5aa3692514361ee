import Ipm.Lib.Phases
import Ipm.Checkpoint
import Ipm.Log.Aggregate
import Ipm.Report.Regions
import Ipm.Trace.Buffer

/-!
# The finaliser

`ipm_mpi_finalize` (`src/ipm_mpi_finalize.c`): a task enters region 0, fills its summaries
in, and takes part in the report, in a barrier before it prints its trace, if it has one,
in the log and in `PMPI_Finalize`.  The trace goes to the task's own standard output: behind
the barrier all tasks print, and in what order their outputs are merged is left to the
launcher.

* `closeTask_ok`: after any run of the application the local part comes to its end.
* `ipmMpiFinalize_endsIn`: tasks with as many regions, of which all or none have a trace,
  come to their ends in every run, and leave the log in the file.
* `ipmMpiFinalize_returns_iff`: all tasks return from `MPI_Finalize` in those cases only.
-/

namespace Ipm

open Stdio Spmd

/-! ## A task at the end -/

/-- A task as `ipm_mpi_finalize` finds it, with the flags of the environment; `rest` is
data that is only printed. -/
structure FinalTask (J X : Type) where
  state : TaskState
  calcFlops : (Nat → Int) → Rat
  mpiCanceled : Bool
  appInterrupted : Bool
  reportNone : Bool
  logNone : Bool
  trcBuf : List TrcRecord
  trcTimeInit : Rat
  job : LogJob J
  wroteLog : Bool
  parallelIoLog : Bool
  rest : X

/-- What the local part reads; `procmem` is the outcome of `ipm_get_procmem`. -/
structure FinalReading extends CheckpointReading where
  procmem : Rat

/-- The local part: from the stamps to the end of `ipm_sync`. -/
def closeTask (b : Build) (t : TaskState) (now : FinalReading) : Except TaskStop TaskState :=
  takeCheckpoint b (stampCheckpoint t now.stamp) now.toCheckpointReading

/-- `task.flops` as `ipm_sync` leaves it: -1 if no region has a count. -/
def syncFlops (calcFlops : (Nat → Int) → Rat) (mpiCanceled : Bool) (r : RegionState) : Rat :=
  if mpiCanceled then -1
  else (List.range r.nregion).foldl (fun flops i =>
    let bFlops := calcFlops (r.hpmCount i r.hpmEventset)
    if bFlops = -1 then flops else (if flops = -1 then 0 else flops) + bFlops) (-1)

/-- A line `ipm_trc_dump` prints, with the call as its index into `call_label`. -/
structure TrcLine where
  mpiRank : Nat
  t : Rat
  call : Nat
  byte : Int
  region : Nat
  rank : Int

namespace FinalTask

variable {J X : Type} (t : FinalTask J X)

/-- The task as `ipm_report` finds it. -/
def reportTask (state : TaskState) (now : FinalReading) : ReportTask where
  state := state
  flops := syncFlops t.calcFlops t.mpiCanceled state.region
  bytes := now.procmem
  calcFlops := t.calcFlops
  appInterrupted := t.appInterrupted

/-- The task as `ipm_log` finds it. -/
def logTask (report : ReportTask) : LogTask (ReportTask × X) where
  mpiRank := 0
  mpiSize := 0
  wroteLog := t.wroteLog
  parallelIoLog := t.parallelIoLog
  rest := (report, t.rest)

/-- `ipm_trc_dump`. -/
def ipmTrcDump (mpiRank : Nat) : List TrcLine :=
  t.trcBuf.map fun e => ⟨mpiRank, e.t - t.trcTimeInit, keyCall e.key, keyByte e.key,
    keyRegion e.key, keyRank e.key⟩

end FinalTask

/-! ## The programs -/

/-- The collectives of the finaliser.  The barrier before the trace is printed is the same
operation as those of `ipm_log`. -/
inductive FinalOp
  | report (op : ReportOp)
  | log (op : LogOp)
  | finalize
deriving DecidableEq

/-- What a task contributes to one. -/
inductive FinalShare
  | report (x : ReportShare)
  | log (x : LogShare)

/-- What a task does on its own: rank 0 to the log file, every task to its output. -/
inductive FinalAct
  | log (a : LogAct)
  | print (lines : List TrcLine)

/-- The files, and what each task has printed of its trace. -/
structure FinalWorld (n : Nat) where
  files : LogFiles
  printed : Fin n → List TrcLine

/-- How `MPI_Finalize` ends for a task: it exits in `ipm_region`, `ipm_report` overruns its
buffer or `ipm_log` fails, or it returns, after the lines of the report and the log. -/
inductive FinalEnd
  | exited (stop : TaskStop)
  | fault
  | returned (lines : List ReportLine) (log : Option LogEnd)

abbrev FinalProg (n : Nat) (J X : Type) :=
  Prog (Fin n) FinalOp FinalShare (LogMsg J (ReportTask × X)) FinalAct FinalEnd

def FinalShare.toReport : FinalShare → ReportShare
  | .report x => x
  | .log _ => .label []

def FinalShare.toLog : FinalShare → LogShare
  | .log x => x
  | .report _ => .nothing

/-- The report in the finaliser; it sends no message and does not act. -/
def reportPart (J T : Type) :
    Part ReportOp ReportShare Unit Unit FinalOp FinalShare (LogMsg J T) FinalAct where
  op := .report
  share := .report
  shareOf := FinalShare.toReport
  msg := fun _ => .token
  msgOf := fun _ => ()
  act := fun _ => .print []
  shareOf_share := fun _ => rfl
  msgOf_msg := fun _ => rfl

/-- The log in the finaliser. -/
def logPart (J T : Type) :
    Part LogOp LogShare (LogMsg J T) LogAct FinalOp FinalShare (LogMsg J T) FinalAct where
  op := .log
  share := .log
  shareOf := FinalShare.toLog
  msg := id
  msgOf := id
  act := .log
  shareOf_share := fun _ => rfl
  msgOf_msg := fun _ => rfl

section

variable {n : Nat}

/-- What a collective does to the world. -/
def finalAfter (order : List (Fin n)) (op : FinalOp) (x : Fin n → FinalShare)
    (w : FinalWorld n) : FinalWorld n :=
  match op with
  | .log op => { w with files := fileAfter order op (fun p => (x p).toLog) w.files }
  | _ => w

/-- What a task does to it on its own. -/
def finalAct (p : Fin n) (a : FinalAct) (w : FinalWorld n) : FinalWorld n :=
  match a with
  | .log a => { w with files := fileAct p a w.files }
  | .print lines => { w with printed := Function.update w.printed p (w.printed p ++ lines) }

variable [NeZero n] {J X : Type} (text : RecordText J (ReportTask × X)) (b : Build)
  (sizes : ReportSizes)

/-- `PMPI_Finalize`, which all tasks call. -/
def leaveMpi (lines : List ReportLine) (log : Option LogEnd) : FinalProg n J X :=
  match log with
  | some .fault => .done .fault
  | log => .coll .finalize (.log .nothing) fun _ => .done (.returned lines log)

/-- From the log on. -/
def finalizeLog (sys : LogSystem) (p : Fin n) (t : FinalTask J X) (report : ReportTask)
    (lines : List ReportLine) : FinalProg n J X :=
  if t.logNone then leaveMpi lines none
  else (ipmLog text sys (mpiInitJob n t.job) (mpiInitTask p (t.logTask report))).andThen
    (logPart J (ReportTask × X)) fun log => leaveMpi lines (some log)

/-- From the trace on: a task with records waits in a barrier and prints them. -/
def finalizeTrace (sys : LogSystem) (p : Fin n) (t : FinalTask J X) (report : ReportTask)
    (lines : List ReportLine) : FinalProg n J X :=
  if t.trcBuf = [] then finalizeLog text sys p t report lines
  else .coll (.log .barrier) (.log .nothing) fun _ =>
    .act (.print (t.ipmTrcDump p)) (finalizeLog text sys p t report lines)

/-- From the report on. -/
def finalizeReport (sys : LogSystem) (p : Fin n) (t : FinalTask J X) (report : ReportTask) :
    FinalProg n J X :=
  (ipmReport sizes t.reportNone p report).andThen (reportPart J (ReportTask × X)) fun e =>
    match e with
    | .overrun => .done .fault
    | .printed lines => finalizeTrace text sys p t report lines

/-- `ipm_mpi_finalize`. -/
def ipmMpiFinalize (sys : LogSystem) (p : Fin n) (t : FinalTask J X) (now : FinalReading) :
    FinalProg n J X :=
  match closeTask b t.state now with
  | .error stop => .done (.exited stop)
  | .ok state => finalizeReport text sizes sys p t (t.reportTask state now)

/-- All tasks come to the finaliser. -/
def finalNet (sys : Fin n → LogSystem) (task : Fin n → FinalTask J X) (now : Fin n → FinalReading)
    (world : FinalWorld n) :
    Net (Fin n) FinalOp FinalShare (LogMsg J (ReportTask × X)) FinalAct (FinalWorld n) FinalEnd :=
  quiet (fun p => ipmMpiFinalize text b sizes (sys p) p (task p) (now p)) world

end

/-! ## The local part -/

/-- The task has been started by `MPI_Init` and has run some application. -/
def Arrives (b : Build) (t : TaskState) : Prop :=
  ∃ fuel env settings stamp enter leave region steps o,
    ipmRegion (ipmInit settings stamp) ⟨1, noregion, enter, leave⟩ = .ok region ∧
      Runs.run (appStep b fuel env) (.start (.start region stamp)) steps = .ok o ∧ o.task = t

theorem Rooted.congr {t t' : RegionState} (rooted : Rooted t) (nregion : t'.nregion = t.nregion)
    (label : t'.label = t.label) : Rooted t' := by
  refine ⟨⟨?_, ?_⟩, ?_, ?_⟩
  · rw [nregion]
    exact rooted.nregion_le
  · rw [nregion, label]
    exact rooted.distinct
  · rw [nregion]
    exact rooted.nregion_pos
  · rw [label]
    exact rooted.root

/-- The hook makes and renames no region. -/
theorem ipmMpiCheckpoint_regions {b : Build} {env : CheckpointEnv} {t v : TaskState}
    {now : CheckpointReading} {ret : Int} (rooted : Rooted t.region)
    (hooked : ipmMpiCheckpoint b env t now = .ok (v, ret)) :
    v.region.nregion = t.region.nregion ∧ v.region.label = t.region.label := by
  rcases ipmMpiCheckpoint_cases hooked with ⟨_, _, taken⟩ | ⟨_, _, same⟩
  · exact (takeCheckpoint_region (by exact rooted) taken).2
  · rw [same]
    exact ⟨rfl, rfl⟩

/-- No call of the application takes `ipm_noregion` from region 0. -/
theorem appStep_rooted {b : Build} {fuel : Nat} {env : CheckpointEnv} {o o' : Observed}
    {a : AppStep} (rooted : Rooted o.task.region) (h : appStep b fuel env o a = .ok o') :
    Rooted o'.task.region := by
  cases a with
  | region c =>
      rcases Runs.bind_eq_ok h with ⟨region, entered, done⟩
      cases done
      exact ipmRegion_rooted rooted (Runs.mapError_eq_ok entered)
  | mpi e now =>
      rcases Runs.bind_eq_ok h with ⟨⟨task, ret, key⟩, wrapped, done⟩
      rcases Runs.bind_eq_ok wrapped with ⟨⟨v, ret'⟩, hooked, rest⟩
      rcases Runs.bind_eq_ok rest with ⟨table, _, logged⟩
      cases done
      cases logged
      have hooked : ipmMpiCheckpoint b env o.task now = .ok (v, ret) := hooked
      change Rooted v.region
      rcases ipmMpiCheckpoint_regions rooted hooked with ⟨nregion, label⟩
      exact rooted.congr nregion label

theorem Arrives.rooted {b : Build} {t : TaskState} (arrives : Arrives b t) :
    Rooted t.region := by
  rcases arrives with ⟨fuel, env, settings, stamp, enter, leave, region, steps, o, started, ran,
    rfl⟩
  exact Runs.run_keeps (I := fun o => Rooted o.task.region) (firstCall_rooted started).1
    (fun rooted stepped => appStep_rooted rooted stepped) ran

/-- The first region has a short label. -/
theorem firstCall_short {settings : RegionSettings} {stamp : Rat} {enter leave : Reading}
    {region : RegionState}
    (started : ipmRegion (ipmInit settings stamp) ⟨1, noregion, enter, leave⟩ = .ok region) :
    region.ShortLabels :=
  ipmRegion_shortLabels (fun _ => by exact Nat.succ_pos 20)
    (show noregion.length < maxsizeLabel by decide) started

/-- Region 0 is always found. -/
theorem enter_noregion_ok {t : RegionState} (rooted : Rooted t) (enter leave : Reading) :
    ∃ t', ipmRegion t ⟨1, noregion, enter, leave⟩ = .ok t' := by
  have labelled : (t.capture enter).Labelled noregion := ⟨0, rooted.nregion_pos, rooted.root⟩
  rcases (t.capture enter).findRegion_cases noregion with ⟨i, found, _⟩ | ⟨_, unknown⟩
  · have looked : (t.capture enter).lookupRegion 1 noregion =
        .ok (t.capture enter, (t.capture enter).findRegion noregion) := by
      unfold RegionState.lookupRegion
      rw [if_neg]
      intro both
      have negative := both.1
      omega
    unfold ipmRegion
    rw [looked]
    exact ⟨_, rfl⟩
  · exact absurd labelled unknown

/-- The local part of a task that has run an application comes to its end in region 0,
with the regions the application has made. -/
theorem closeTask_ok {b : Build} {t : TaskState} (rooted : Rooted t.region) (now : FinalReading) :
    ∃ t', closeTask b t now = .ok t' ∧ t'.region.regionCurrent = 0 ∧
      t'.region.nregion = t.region.nregion ∧ t'.region.label = t.region.label := by
  rcases enter_noregion_ok rooted now.enter now.leave with ⟨region, entered⟩
  have flat := (enter_noregion rooted entered).2.2.2
  have close : ∃ t', closeTask b t now = .ok t' := by
    unfold closeTask takeCheckpoint taskRegion stampCheckpoint leaveRegionalized
    rw [entered]
    change ∃ t', ((if region.regionalized then _ else Except.ok region) >>= _) = .ok t'
    rw [flat]
    exact ⟨_, rfl⟩
  rcases close with ⟨t', closed⟩
  exact ⟨t', closed, takeCheckpoint_region (t := stampCheckpoint t now.stamp) rooted closed⟩

/-! ## The phases -/

section Phases

variable {n : Nat} {J X : Type} {order : List (Fin n)}

theorem finalAct_commute : ActsCommute (finalAct (n := n)) := by
  intro p q apart a b w
  cases a with
  | log a =>
      cases b with
      | log b =>
          simp only [finalAct]
          rw [fileAct_commute p q apart]
      | print lines => rfl
  | print lines =>
      cases b with
      | log b => rfl
      | print lines' =>
          simp only [finalAct, Function.update_of_ne apart, Function.update_of_ne apart.symm,
            Function.update_comm apart]

/-- The report leaves the log file and the output alone. -/
theorem reportPart_agrees (w : FinalWorld n) :
    (reportPart J (ReportTask × X)).Agrees (fun _ : Unit => w) (fun _ _ w => w) (fun _ _ w => w)
      finalAct (finalAfter order) where
  act p _ _ := by
    simp only [reportPart, finalAct, List.append_nil, Function.update_eq_self]
  coll _ _ _ := rfl

theorem logPart_agrees (printed : Fin n → List TrcLine) :
    (logPart J (ReportTask × X)).Agrees (fun files => ⟨files, printed⟩) fileAct (fileAfter order)
      finalAct (finalAfter order) :=
  ⟨fun _ _ _ => rfl, fun _ _ _ => rfl⟩

variable [NeZero n] (sizes : ReportSizes)

/-! ### The report -/

/-- The lines a task has at the end of the report: only rank 0 prints. -/
def reportLines (reportNone : Bool) (task : Fin n → ReportTask) (p : Fin n) : List ReportLine :=
  if reportNone || (task p).appInterrupted then []
  else if p.val = 0 then
    ⟨['*'], reduced (fun q => (task q).jobTotals sizes) fun q => (task q).cpop⟩ ::
      (List.range (task p).rounds).map (roundLine sizes task)
  else []

variable {sizes}

/-- Tasks with the same schedule come to the end of the report. -/
theorem reportNet_reaches {reportNone : Bool} {task : Fin n → ReportTask}
    (same : reportNone = true ∨ ∀ p q, (task p).schedule = (task q).schedule)
    (short : ∀ p, (task p).state.region.ShortLabels) :
    Reaches ReportStep (reportNet sizes reportNone task)
      (quiet (fun p => .done (.printed (reportLines sizes reportNone task p))) ()) := by
  unfold reportNet reportLines ipmReport
  cases reportNone with
  | true => exact .refl _
  | false =>
      have same := same.resolve_left Bool.false_ne_true
      unfold ReportTask.schedule at same
      cases interrupted : (task (Fin.ofNat n 0)).appInterrupted with
      | true =>
          have all : ∀ p, (task p).appInterrupted = true := by
            intro p
            by_contra running
            have := same (Fin.ofNat n 0) p
            rw [if_pos interrupted, if_neg running] at this
            cases this
          simp only [all, if_true, Bool.false_eq_true, if_false, Bool.or_true]
          exact .refl _
      | false =>
          have all : ∀ p, (task p).appInterrupted = false := by
            intro p
            by_contra stopped
            have := same (Fin.ofNat n 0) p
            rw [if_neg (Bool.eq_false_iff.mp interrupted), if_pos (by simpa using stopped)] at this
            cases this
          simp only [all, Bool.false_eq_true, if_false, Bool.or_self] at same ⊢
          refine (reduceAll_reaches sizes).trans ?_
          have rounds : ∀ p, (task p).rounds = (task (Fin.ofNat n 0)).rounds :=
            fun p => Option.some.inj (same p _)
          have root : (Fin.ofNat n 0).val = 0 := Nat.zero_mod n
          by_cases many : 1 < (task (Fin.ofNat n 0)).state.region.nregion
          · have all : ∀ p, (task p).state.region.nregion =
                (task (Fin.ofNat n 0)).state.region.nregion := by
              intro p
              have equal := rounds p
              unfold ReportTask.rounds at equal
              rw [if_pos many] at equal
              split at equal
              · exact equal
              · omega
            simp only [all, many, if_true]
            refine (reportRounds_reaches sizes (fun p r _ => short p _) _).trans ?_
            have lines : ∀ p : Fin n, (printLine p ⟨['*'], reduced
                (fun q => (task q).jobTotals sizes) fun q => (task q).cpop⟩ ++
                if p.val = 0 then (List.range' 0 (task (Fin.ofNat n 0)).state.region.nregion).map
                  (roundLine sizes task) else []) = if p.val = 0 then
                ⟨['*'], reduced (fun q => (task q).jobTotals sizes) fun q => (task q).cpop⟩ ::
                  (List.range (task p).rounds).map (roundLine sizes task) else [] := by
              intro p
              unfold printLine
              split
              · rw [rounds, ReportTask.rounds, if_pos many, List.range_eq_range']
                rfl
              · rfl
            simp only [lines]
            exact .refl _
          · have few : ∀ p, ¬1 < (task p).state.region.nregion := by
              intro p more
              have equal := rounds p
              unfold ReportTask.rounds at equal
              rw [if_pos more, if_neg many] at equal
              omega
            simp only [few, if_false, ReportTask.rounds, List.range_zero, List.map_nil]
            exact .refl _

/-! ### The log -/

variable {text : RecordText J (ReportTask × X)} {sys : Fin n → LogSystem}
  {task : Fin n → FinalTask J X} {report : Fin n → ReportTask} {lines : Fin n → List ReportLine}

/-- The settings all tasks read from the environment and the file system, and the flag that
`ipm_log` has been called before. -/
structure SameSettings (task : Fin n → FinalTask J X) : Prop where
  reportNone : ∀ p q, (task p).reportNone = (task q).reportNone
  logNone : ∀ p q, (task p).logNone = (task q).logNone
  logDir : ∀ p q, (task p).job.logDir = (task q).job.logDir
  wroteLog : ∀ p q, (task p).wroteLog = (task q).wroteLog
  parallelIoLog : ∀ p q, (task p).parallelIoLog = (task q).parallelIoLog

/-- The file of the log opens in every task, under one name. -/
structure LogUsable (sys : Fin n → LogSystem) (job : Fin n → LogJob J) : Prop where
  short : (logName sys job).length < maxsizeFilename
  name : ∀ p, (jobs sys job p).logFname = logName sys job
  fileOpen : ∀ p, (sys p).fileOpen (logName sys job) = true
  fopen : (sys (root n)).fopen (logName sys job) = true

theorem LogUsable.opens {T : Type} {text : RecordText J T} {job : Fin n → LogJob J}
    {task : Fin n → LogTask T} (usable : LogUsable sys job) : LogOpens text sys job task where
  short p := by
    rw [usable.name p]
    exact usable.short
  parallel _ p := ⟨usable.name p, usable.fileOpen p⟩
  serial _ := usable.fopen

/-- `ipm_log` is called and does not return at its beginning. -/
def FinalTask.writesLog (t : FinalTask J X) : Bool :=
  !t.logNone && !t.wroteLog && !decide (t.job.logDir = "/dev/null".toList)

/-- The jobs and the tasks as `ipm_log` finds them. -/
def finalJob (task : Fin n → FinalTask J X) (p : Fin n) : LogJob J := (task p).job

def finalLogTask (task : Fin n → FinalTask J X) (report : Fin n → ReportTask) (p : Fin n) :
    LogTask (ReportTask × X) := (task p).logTask (report p)

variable (text sys task report) in
/-- How the log ends for a task. -/
def finalLogEnd (p : Fin n) : Option LogEnd :=
  if (task p).logNone then none
  else if (task (root n)).writesLog then
    some (logEnd text sys (finalJob task) (finalLogTask task report) p)
  else some .bailed

variable (text sys task report) in
/-- The files after the log. -/
def finalFiles (files : LogFiles) : LogFiles :=
  if (task (root n)).writesLog then
    Function.update files (logName sys (finalJob task))
      (some (logFile text (jobs sys (finalJob task)) (tasks (finalLogTask task report))))
  else files

omit [NeZero n] in
theorem leaveMpi_reaches {log : Fin n → Option LogEnd} {w : FinalWorld n}
    (sound : ∀ p, log p ≠ some .fault) :
    Reaches (Step finalAct (finalAfter order))
      (quiet (fun p => (leaveMpi (lines p) (log p) : FinalProg n J X)) w)
      (quiet (fun p => .done (.returned (lines p) (log p))) w) := by
  have at_ : ∀ p, (leaveMpi (lines p) (log p) : FinalProg n J X) =
      .coll .finalize (.log .nothing) fun _ => .done (.returned (lines p) (log p)) := by
    intro p
    unfold leaveMpi
    have here := sound p
    split
    · rename_i faulty
      exact absurd faulty here
    · rfl
  exact reaches_collective at_

omit [NeZero n] in
theorem SameSettings.writesLog (settings : SameSettings task) (p q : Fin n) :
    (task p).writesLog = (task q).writesLog := by
  unfold FinalTask.writesLog
  rw [settings.logNone p q, settings.wroteLog p q, settings.logDir p q]

/-- A task that writes no log leaves `ipm_log` at its beginning. -/
theorem ipmLog_bails {t : FinalTask J X} {r : ReportTask} {p : Fin n} (h : LogSystem)
    (called : t.logNone = false) (silent : t.writesLog = false) :
    (ipmLog text h (mpiInitJob n t.job) (mpiInitTask p (t.logTask r)) :
      LogProg n J (ReportTask × X)) = .done .bailed := by
  unfold ipmLog
  by_cases wrote : t.wroteLog = true
  · exact if_pos wrote
  · by_cases dir : t.job.logDir = "/dev/null".toList
    · exact (if_neg wrote).trans (if_pos dir)
    · rw [FinalTask.writesLog, called, Bool.eq_false_iff.mpr wrote, decide_eq_false dir] at silent
      cases silent

/-- The log in the finaliser: all tasks write it, or none. -/
theorem finalizeLog_reaches (every : ∀ p, p ∈ order) (settings : SameSettings task)
    (usable : (task (root n)).writesLog = true → LogUsable sys (finalJob task))
    (w : FinalWorld n) :
    Reaches (Step finalAct (finalAfter order))
      (quiet (fun p => finalizeLog text (sys p) p (task p) (report p) (lines p)) w)
      (quiet (fun p => .done (.returned (lines p) (finalLogEnd text sys task report p)))
        ⟨finalFiles text sys task report w.files, w.printed⟩) := by
  cases none_ : (task (root n)).logNone with
  | true =>
      have all : ∀ p, (task p).logNone = true := fun p => (settings.logNone p _).trans none_
      have silent : (task (root n)).writesLog = false := by
        rw [FinalTask.writesLog, none_]
        rfl
      unfold finalizeLog finalLogEnd finalFiles
      simp only [all, silent, if_true, Bool.false_eq_true, if_false]
      exact leaveMpi_reaches fun p faulty => by cases faulty
  | false =>
      have all : ∀ p, (task p).logNone = false := fun p => (settings.logNone p _).trans none_
      unfold finalizeLog finalLogEnd finalFiles
      simp only [all, Bool.false_eq_true, if_false]
      by_cases writes : (task (root n)).writesLog = true
      · have together : Together (finalJob task) (finalLogTask task report) := by
          have each := fun p => (settings.writesLog p (root n)).trans writes
          simp only [FinalTask.writesLog, all, Bool.not_false, Bool.true_and, Bool.and_eq_true,
            Bool.not_eq_true', decide_eq_false_iff_not] at each
          exact ⟨fun p => (each p).1, fun p => (each p).2, settings.parallelIoLog⟩
        have opens : LogOpens text sys (finalJob task) (finalLogTask task report) :=
          (usable writes).opens
        simp only [writes, if_true]
        refine (reaches_phase (logPart_agrees w.printed)
          (ipmLog_reaches every together opens w.files)).trans (leaveMpi_reaches fun p => ?_)
        unfold logEnd
        intro faulty
        split at faulty
        · cases faulty
        · cases faulty
      · have silent := Bool.eq_false_iff.mpr writes
        have bails : ∀ p : Fin n, (ipmLog text (sys p) (mpiInitJob n (task p).job)
            (mpiInitTask p ((task p).logTask (report p))) : LogProg n J (ReportTask × X)) =
              .done .bailed :=
          fun p => ipmLog_bails _ (all p) ((settings.writesLog p (root n)).trans silent)
        simp only [silent, bails, Bool.false_eq_true, if_false, Prog.andThen]
        exact leaveMpi_reaches fun p faulty => by cases faulty

/-! ### The trace -/

omit [NeZero n] in
/-- What is printed by the tasks of a list, one after the other. -/
theorem foldl_print {l : List (Fin n)} (nodup : l.Nodup) (dump : Fin n → List TrcLine)
    (w : FinalWorld n) :
    l.foldl (fun w p => finalAct p (.print (dump p)) w) w =
      ⟨w.files, fun p => if p ∈ l then w.printed p ++ dump p else w.printed p⟩ := by
  induction l generalizing w with
  | nil => rfl
  | cons p l ih =>
      rw [List.nodup_cons] at nodup
      rw [List.foldl_cons, ih nodup.2]
      simp only [finalAct]
      congr 1
      funext q
      rcases eq_or_ne q p with rfl | apart
      · rw [if_neg nodup.1, if_pos List.mem_cons_self, Function.update_self]
      · rw [Function.update_of_ne apart]
        simp only [List.mem_cons, apart, false_or]

/-- All tasks have a trace, or none. -/
def TracesAlike (task : Fin n → FinalTask J X) : Prop :=
  ∀ p q, (task p).trcBuf = [] ↔ (task q).trcBuf = []

theorem finalizeTrace_reaches (alike : TracesAlike task) (w : FinalWorld n) :
    Reaches (Step finalAct (finalAfter order))
      (quiet (fun p => finalizeTrace text (sys p) p (task p) (report p) (lines p)) w)
      (quiet (fun p => finalizeLog text (sys p) p (task p) (report p) (lines p))
        ⟨w.files, fun p => w.printed p ++ (task p).ipmTrcDump p⟩) := by
  unfold finalizeTrace
  by_cases empty : (task (root n)).trcBuf = []
  · have none_ : ∀ p, (task p).trcBuf = [] := fun p => (alike p (root n)).mpr empty
    have dumps : ∀ p : Fin n, (task p).ipmTrcDump p = [] := by
      intro p
      rw [FinalTask.ipmTrcDump, none_, List.map_nil]
    simp only [none_, dumps, if_true, List.append_nil]
    exact .refl _
  · have some_ : ∀ p, (task p).trcBuf ≠ [] := fun p => mt (alike p (root n)).mp empty
    simp only [some_, if_false]
    refine (reaches_collective fun p => rfl).trans ?_
    have dumped := foldl_print (List.nodup_finRange n) (fun p => (task p).ipmTrcDump p) w
    simp only [List.mem_finRange, if_true] at dumped
    rw [← dumped]
    exact reaches_acts (List.nodup_finRange n) w (fun p _ => rfl)
      fun p away => absurd (List.mem_finRange p) away

end Phases

/-! ## All tasks -/

section Tasks

variable {n : Nat} [NeZero n] {J X : Type} {text : RecordText J (ReportTask × X)} {b : Build}
  {sizes : ReportSizes} {order : List (Fin n)} {sys : Fin n → LogSystem}
  {task : Fin n → FinalTask J X} {now : Fin n → FinalReading}

/-- What a task reports and logs: its state after the local part, in region 0, with the
regions the application has made. -/
structure Closes (b : Build) (t : FinalTask J X) (now : FinalReading) (report : ReportTask) :
    Prop where
  closed : ∃ state, closeTask b t.state now = .ok state ∧ report = t.reportTask state now
  regionCurrent : report.state.region.regionCurrent = 0
  nregion : report.state.region.nregion = t.state.region.nregion
  label : report.state.region.label = t.state.region.label

theorem Closes.of_rooted {t : FinalTask J X} (rooted : Rooted t.state.region)
    (now : FinalReading) : ∃ report, Closes b t now report := by
  rcases closeTask_ok rooted now with ⟨state, closed, current, nregion, label⟩
  exact ⟨_, ⟨state, closed, rfl⟩, current, nregion, label⟩

theorem Closes.program {t : FinalTask J X} {r : FinalReading} {report : ReportTask} (h : LogSystem)
    (p : Fin n) (closes : Closes b t r report) :
    ipmMpiFinalize text b sizes h p t r = finalizeReport text sizes h p t report := by
  rcases closes.closed with ⟨state, closed, rfl⟩
  unfold ipmMpiFinalize
  rw [closed]

/-- What decides the report of a task: an interrupt, or the number of its regions. -/
def FinalTask.schedule (t : FinalTask J X) : Option Nat :=
  if t.appInterrupted then none else some t.state.region.nregion

/-- Every task has a region, so the rounds tell their number. -/
theorem Closes.schedule_eq_iff {t u : FinalTask J X} {r s : FinalReading} {x y : ReportTask}
    (left : Closes b t r x) (right : Closes b u s y) (posT : 0 < t.state.region.nregion)
    (posU : 0 < u.state.region.nregion) : x.schedule = y.schedule ↔ t.schedule = u.schedule := by
  rcases left with ⟨⟨state, _, rfl⟩, _, nregion, _⟩
  rcases right with ⟨⟨state', _, rfl⟩, _, nregion', _⟩
  unfold ReportTask.schedule FinalTask.schedule ReportTask.rounds
  rw [nregion, nregion']
  change (if t.appInterrupted then none else _) = (if u.appInterrupted then none else _) ↔ _
  cases t.appInterrupted <;> cases u.appInterrupted
  · simp only [Bool.false_eq_true, if_false, Option.some.injEq]
    split <;> split <;> omega
  · simp only [Bool.false_eq_true, if_false, if_true, reduceCtorEq]
  · simp only [Bool.false_eq_true, if_false, if_true, reduceCtorEq]
  · simp only [if_true]

/-- What the tasks need to have in common besides their settings: there is no report or it
is the same for all, and all have a trace or none has. -/
structure Balanced (task : Fin n → FinalTask J X) : Prop where
  schedule : (task (root n)).reportNone = true ∨ ∀ p q, (task p).schedule = (task q).schedule
  traces : TracesAlike task

/-- The tasks have the same schedule when they come to the report. -/
theorem Balanced.reports {report : Fin n → ReportTask} (balanced : Balanced task)
    (rooted : ∀ p, Rooted (task p).state.region)
    (closes : ∀ p, Closes b (task p) (now p) (report p)) :
    (task (root n)).reportNone = true ∨ ∀ p q, (report p).schedule = (report q).schedule := by
  refine balanced.schedule.imp_right fun same p q => ?_
  exact ((closes p).schedule_eq_iff (closes q) (rooted p).nregion_pos
    (rooted q).nregion_pos).mpr (same p q)

variable (text sizes sys task) in
/-- The end of all tasks: with the lines of the report, the traces printed and the log in
the file. -/
def finalEnd (report : Fin n → ReportTask) (w : FinalWorld n) :
    Net (Fin n) FinalOp FinalShare (LogMsg J (ReportTask × X)) FinalAct (FinalWorld n) FinalEnd :=
  quiet (fun p => .done (.returned (reportLines sizes (task (root n)).reportNone report p)
      (finalLogEnd text sys task report p)))
    ⟨finalFiles text sys task report w.files, fun p => w.printed p ++ (task p).ipmTrcDump p⟩

/-- All tasks come to the end of the finaliser. -/
theorem finalNet_reaches {report : Fin n → ReportTask} (every : ∀ p, p ∈ order)
    (settings : SameSettings task) (balanced : Balanced task)
    (short : ∀ p, (task p).state.region.ShortLabels)
    (usable : (task (root n)).writesLog = true → LogUsable sys (finalJob task))
    (rooted : ∀ p, Rooted (task p).state.region)
    (closes : ∀ p, Closes b (task p) (now p) (report p)) (w : FinalWorld n) :
    Reaches (Step finalAct (finalAfter order)) (finalNet text b sizes sys task now w)
      (finalEnd text sizes sys task report w) := by
  have programs : (fun p => ipmMpiFinalize text b sizes (sys p) p (task p) (now p)) =
      fun p => finalizeReport text sizes (sys p) p (task p) (report p) :=
    funext fun p => (closes p).program (sys p) p
  have flags : ∀ p, (task p).reportNone = (task (root n)).reportNone :=
    fun p => settings.reportNone p _
  have shortReports : ∀ p, (report p).state.region.ShortLabels := by
    intro p i
    rw [(closes p).label]
    exact short p i
  unfold finalNet finalizeReport at *
  rw [programs]
  simp only [flags]
  refine (reaches_phase (reportPart_agrees w)
    (reportNet_reaches (balanced.reports rooted closes) shortReports)).trans ?_
  refine (finalizeTrace_reaches balanced.traces w).trans ?_
  exact finalizeLog_reaches every settings usable _

/-- `ipm_log` takes part in one barrier more than it sets the view of the file. -/
def LogBarriers (ops : List LogOp) : Prop := ops.count .barrier = ops.count .fileSetView + 1

theorem course_chain {T : Type} {t : LogTask T} {size : Nat} {k : Nat → LogProg n J T}
    {ops : List LogOp} {e : LogEnd} (course : Course ops (chain t size k) e) (sound : e ≠ .fault) :
    ∃ buffSum, Course ops (k buffSum) e := by
  unfold chain at course
  split at course
  · split at course
    · cases course with
      | send course => exact ⟨_, course⟩
    · split at course
      · cases course with
        | recv m course =>
            cases m with
            | sum buffSum => exact ⟨buffSum, course⟩
            | token | job | task | txt =>
                cases course
                exact absurd rfl sound
      · cases course with
        | recv m course =>
            cases m with
            | sum buffSum =>
                cases course with
                | send course => exact ⟨buffSum, course⟩
            | token | job | task | txt =>
                cases course
                exact absurd rfl sound
  · exact ⟨0, course⟩

theorem course_parallelBranch {T : Type} {h : LogSystem} {fname : Text} {t : LogTask T}
    {size : Nat} {buffer : Text} {ops : List LogOp} {e : LogEnd}
    (course : Course ops (parallelBranch h fname t size buffer : LogProg n J T) e)
    (sound : e ≠ .fault) : LogBarriers ops := by
  have body {ops : List LogOp}
      (course : Course ops (openAndWrite h fname t size buffer : LogProg n J T) e) :
      LogBarriers ops := by
    cases course with
    | coll _ course =>
        cases course with
        | coll _ course =>
            dsimp only at course
            split at course
            · rcases course_chain course sound with ⟨buffSum, course⟩
              have follows : Follows [.fileSetView, .fileWriteAll, .fileClose, .barrier]
                  (writeSlice fname size buffer buffSum : LogProg n J T) :=
                ⟨_, _, rfl, fun _ => ⟨_, _, rfl, fun _ => ⟨_, _, rfl, fun _ => ⟨_, _, rfl, fun _ =>
                  ⟨_, rfl⟩⟩⟩⟩⟩
              rw [follows.course course]
              rfl
            · -- the file does not open
              cases course
              rfl
  rw [parallelBranch_eq] at course
  split at course
  · cases course with
    | act course => exact body course
  · exact body course

omit [NeZero n] in
theorem course_serialEnd {T : Type} {ops : List LogOp} {e : LogEnd}
    (course : Course ops (serialEnd : LogProg n J T) e) : LogBarriers ops := by
  cases course with
  | coll _ course =>
      cases course
      rfl

theorem course_serialLoop {T : Type} {text : RecordText J T} {fname : Text} {left i : Nat}
    {job : LogJob J} {ops : List LogOp} {e : LogEnd}
    (course : Course ops (serialLoop text fname left i job : LogProg n J T) e)
    (sound : e ≠ .fault) : LogBarriers ops := by
  induction left generalizing i job ops with
  | zero =>
      unfold serialLoop at course
      split at course
      · cases course
        exact absurd rfl sound
      · exact course_serialEnd course
  | succ left ih =>
      unfold serialLoop at course
      split at course
      · cases course with
        | send course =>
            cases course with
            | recv m course =>
                cases m with
                | job job =>
                    cases course with
                    | recv m course =>
                        cases m with
                        | task task =>
                            cases course with
                            | recv m course =>
                                cases m with
                                | txt txt =>
                                    cases course with
                                    | act course => exact ih course
                                | token | job | task | sum =>
                                    cases course
                                    exact absurd rfl sound
                        | token | job | txt | sum =>
                            cases course
                            exact absurd rfl sound
                | token | task | txt | sum =>
                    cases course
                    exact absurd rfl sound
      · exact course_serialEnd course

theorem course_serialBranch {T : Type} {text : RecordText J T} {h : LogSystem} {job : LogJob J}
    {t : LogTask T} {ops : List LogOp} {e : LogEnd}
    (course : Course ops (serialBranch text h job t : LogProg n J T) e) (sound : e ≠ .fault) :
    LogBarriers ops := by
  unfold serialBranch at course
  split at course
  · split at course
    · cases course with
      | act course =>
          cases course with
          | act course => exact course_serialLoop course sound
    · cases course
      exact absurd rfl sound
  · cases course with
    | recv _ course =>
        cases course with
        | send course =>
            cases course with
            | send course =>
                cases course with
                | send course => exact course_serialEnd course

/-- The barriers of `ipm_log` are told by the times it sets the view, on both paths. -/
theorem course_ipmLog {T : Type} {text : RecordText J T} {h : LogSystem} {job : LogJob J}
    {t : LogTask T} {ops : List LogOp} {e : LogEnd} (fresh : t.wroteLog = false)
    (dir : job.logDir ≠ "/dev/null".toList)
    (course : Course ops (ipmLog text h job t : LogProg n J T) e) (sound : e ≠ .fault) :
    LogBarriers ops := by
  rw [ipmLog, fresh, if_neg Bool.false_ne_true, if_neg dir] at course
  dsimp only at course
  split at course
  · cases course
    exact absurd rfl sound
  · split at course
    · cases course with
      | coll all course =>
          dsimp only at course
          rw [LogBarriers, List.count_cons_of_ne (by decide), List.count_cons_of_ne (by decide)]
          split at course
          · exact course_parallelBranch course sound
          · exact course_serialBranch course sound
    · exact course_serialBranch course sound

omit [NeZero n] in
theorem course_leaveMpi {lines lines' : List ReportLine} {log log' : Option LogEnd}
    {ops : List FinalOp}
    (course : Course ops (leaveMpi lines log : FinalProg n J X) (.returned lines' log')) :
    ops = [.finalize] ∧ log ≠ some .fault := by
  unfold leaveMpi at course
  split at course
  · cases course
  · rename_i sound
    cases course with
    | coll _ course =>
        cases course
        exact ⟨rfl, sound⟩

/-- The collectives of the log, of a task that writes it and of one that does not. -/
def LogOps (t : FinalTask J X) (ops : List LogOp) : Prop :=
  if t.writesLog then LogBarriers ops else ops = []

theorem course_finalizeLog {t : FinalTask J X} {r : ReportTask} {p : Fin n} {h : LogSystem}
    {lines lines' : List ReportLine} {log' : Option LogEnd} {ops : List FinalOp}
    (course : Course ops (finalizeLog text h p t r lines) (.returned lines' log')) :
    ∃ logOps, LogOps t logOps ∧ ops = logOps.map .log ++ [.finalize] := by
  unfold finalizeLog at course
  unfold LogOps
  split at course
  · rename_i none_
    refine ⟨[], ?_, (course_leaveMpi course).1⟩
    rw [FinalTask.writesLog, none_]
    rfl
  · rename_i called
    rcases Prog.andThen_course course with ⟨first, rest, e, rfl, left, right⟩
    rcases course_leaveMpi right with ⟨rfl, sound⟩
    refine ⟨first, ?_, rfl⟩
    by_cases writes : t.writesLog = true
    · rw [if_pos writes]
      simp only [FinalTask.writesLog, Bool.and_eq_true, Bool.not_eq_true',
        decide_eq_false_iff_not] at writes
      have fresh : (mpiInitTask p (t.logTask r)).wroteLog = false := writes.1.2
      have dir : (mpiInitJob n t.job).logDir ≠ "/dev/null".toList := writes.2
      exact course_ipmLog fresh dir left fun faulty => sound (congrArg some faulty)
    · rw [if_neg writes]
      rw [ipmLog_bails h (Bool.eq_false_iff.mpr called) (Bool.eq_false_iff.mpr writes)] at left
      cases left
      rfl

/-- The barrier before a task prints its trace. -/
def FinalTask.traceOps (t : FinalTask J X) : List LogOp :=
  if t.trcBuf = [] then [] else [.barrier]

/-- The collectives of the finaliser: those of the report, those of the log, with the barrier
of the trace before them, and `PMPI_Finalize`. -/
def finalOps (reports : List ReportOp) (logs : List LogOp) : List FinalOp :=
  reports.map .report ++ (logs.map .log ++ [.finalize])

/-- An operation of the report, if it is one. -/
def FinalOp.report? : FinalOp → Option ReportOp
  | .report op => some op
  | _ => none

/-- An operation of the log, if it is one. -/
def FinalOp.log? : FinalOp → Option LogOp
  | .log op => some op
  | _ => none

theorem finalOps_inj {reports reports' : List ReportOp} {logs logs' : List LogOp}
    (same : finalOps reports logs = finalOps reports' logs') :
    reports = reports' ∧ logs = logs' := by
  have reportOf (reports : List ReportOp) (logs : List LogOp) :
      (finalOps reports logs).filterMap FinalOp.report? = reports := by
    have own : FinalOp.report? ∘ FinalOp.report = some := rfl
    have other : FinalOp.report? ∘ FinalOp.log = fun _ => none := rfl
    rw [finalOps, List.filterMap_append, List.filterMap_append, List.filterMap_map,
      List.filterMap_map, own, other, List.filterMap_some, List.filterMap_none]
    exact List.append_nil reports
  have logOf (reports : List ReportOp) (logs : List LogOp) :
      (finalOps reports logs).filterMap FinalOp.log? = logs := by
    have own : FinalOp.log? ∘ FinalOp.log = some := rfl
    have other : FinalOp.log? ∘ FinalOp.report = fun _ => none := rfl
    rw [finalOps, List.filterMap_append, List.filterMap_append, List.filterMap_map,
      List.filterMap_map, own, other, List.filterMap_some, List.filterMap_none]
    exact List.append_nil logs
  refine ⟨?_, ?_⟩
  · rw [← reportOf reports logs, same, reportOf]
  · rw [← logOf reports logs, same, logOf]

/-- The collectives of a task that returns: those of its report, a barrier if it has a
trace, those of its log, and `PMPI_Finalize`. -/
theorem course_finalize {t : FinalTask J X} {r : FinalReading} {report : ReportTask} {p : Fin n}
    {h : LogSystem} {lines : List ReportLine} {log : Option LogEnd} {ops : List FinalOp}
    (closes : Closes b t r report)
    (course : Course ops (ipmMpiFinalize text b sizes h p t r) (.returned lines log)) :
    ∃ logOps, LogOps t logOps ∧
      ops = finalOps (reportOps sizes t.reportNone report) (t.traceOps ++ logOps) := by
  rw [closes.program] at course
  rcases Prog.andThen_course course with ⟨first, rest, got, rfl, left, right⟩
  rcases course_ipmReport sizes left with ⟨⟨printed, rfl⟩, rfl, -⟩ | ⟨rfl, -⟩
  swap
  · -- the task has overrun the buffer of the report
    cases right
  dsimp only at right
  unfold finalizeTrace at right
  split at right
  · rename_i empty
    rcases course_finalizeLog right with ⟨logOps, counted, rfl⟩
    refine ⟨logOps, counted, ?_⟩
    rw [FinalTask.traceOps, if_pos empty]
    rfl
  · rename_i traced
    cases right with
    | coll _ right =>
        cases right with
        | act right =>
            rcases course_finalizeLog right with ⟨logOps, counted, rfl⟩
            refine ⟨logOps, counted, ?_⟩
            rw [FinalTask.traceOps, if_neg traced]
            rfl

/-! ## When all tasks return -/

theorem FinalTask.traceOps_counts (t : FinalTask J X) :
    t.traceOps.count .fileSetView = 0 ∧
      (t.trcBuf = [] ∧ t.traceOps.count .barrier = 0 ∨
        t.trcBuf ≠ [] ∧ t.traceOps.count .barrier = 1) := by
  unfold FinalTask.traceOps
  split
  · rename_i empty
    exact ⟨rfl, Or.inl ⟨empty, rfl⟩⟩
  · rename_i traced
    exact ⟨rfl, Or.inr ⟨traced, rfl⟩⟩

/-- Logs that set the view as often have as many barriers. -/
theorem LogOps.barriers {t u : FinalTask J X} {left right : List LogOp}
    (writes : t.writesLog = u.writesLog) (opsT : LogOps t left) (opsU : LogOps u right)
    (views : left.count .fileSetView = right.count .fileSetView) :
    left.count .barrier = right.count .barrier := by
  unfold LogOps LogBarriers at opsT opsU
  rw [← writes] at opsU
  by_cases writes : t.writesLog = true
  · rw [if_pos writes] at opsT opsU
    omega
  · rw [if_neg writes] at opsT opsU
    rw [opsT, opsU]

/-- The barrier of the trace shows in the number of barriers. -/
theorem traced_of_count {t u : FinalTask J X} {left right : List LogOp}
    (writes : t.writesLog = u.writesLog) (opsT : LogOps t left) (opsU : LogOps u right)
    (same : t.traceOps ++ left = u.traceOps ++ right) : t.trcBuf = [] ↔ u.trcBuf = [] := by
  rcases t.traceOps_counts with ⟨openT, tracedT⟩
  rcases u.traceOps_counts with ⟨openU, tracedU⟩
  have barriers := congrArg (List.count .barrier) same
  have views := congrArg (List.count .fileSetView) same
  rw [List.count_append, List.count_append] at barriers views
  have logs := opsT.barriers writes opsU (by omega)
  rcases tracedT with ⟨emptyT, countT⟩ | ⟨someT, countT⟩
  · rcases tracedU with ⟨emptyU, _⟩ | ⟨_, countU⟩
    · exact iff_of_true emptyT emptyU
    · omega
  · rcases tracedU with ⟨_, countU⟩ | ⟨someU, _⟩
    · omega
    · exact iff_of_false someT someU

/-- Tasks that return with one course in common are balanced. -/
theorem balanced_of_courses (settings : SameSettings task)
    (rooted : ∀ p, Rooted (task p).state.region) {report : Fin n → ReportTask}
    (closes : ∀ p, Closes b (task p) (now p) (report p)) {ops : List FinalOp}
    {lines : Fin n → List ReportLine} {log : Fin n → Option LogEnd}
    (courses : ∀ p, Course ops (ipmMpiFinalize text b sizes (sys p) p (task p) (now p))
      (.returned (lines p) (log p))) : Balanced task := by
  have each := fun p => course_finalize (closes p) (courses p)
  choose logOps counted split using each
  have same := fun p q => finalOps_inj ((split p).symm.trans (split q))
  refine ⟨?_, fun p q => ?_⟩
  · cases quiet_ : (task (root n)).reportNone with
    | true => exact Or.inl rfl
    | false =>
        have flags : ∀ p, (task p).reportNone = false :=
          fun p => (settings.reportNone p _).trans quiet_
        simp only [flags] at same
        refine Or.inr fun p q => ?_
        exact ((closes p).schedule_eq_iff (closes q) (rooted p).nregion_pos
          (rooted q).nregion_pos).mp ((reportOps_eq_iff sizes).mp (same p q).1)
  · exact traced_of_count (settings.writesLog p q) (counted p) (counted q) (same p q).2

/-- A task that has done nothing since `MPI_Init`. -/
def startedRegion : RegionState :=
  match ipmRegion (ipmInit .plain 0) firstCall with
  | .ok region => region
  | .error _ => ipmInit .plain 0

theorem arrives_started : Arrives .five (.start startedRegion 0) :=
  ⟨0, .off, .plain, 0, .at 1, .at 2, startedRegion, [], .start (.start startedRegion 0), rfl, rfl,
    rfl⟩

/-- Its finaliser, with a trace of these records. -/
def startedTask (trcBuf : List TrcRecord) : FinalTask Unit Unit where
  state := .start startedRegion 0
  calcFlops := fun _ => -1
  mpiCanceled := false
  appInterrupted := false
  reportNone := false
  logNone := false
  trcBuf := trcBuf
  trcTimeInit := 0
  job := plainJob
  wroteLog := false
  parallelIoLog := true
  rest := ()

def emptyText : RecordText Unit (ReportTask × Unit) := ⟨fun _ _ => [], fun _ _ _ => []⟩

def finalReading : FinalReading := ⟨.at 3, 0⟩

def emptyWorld (n : Nat) : FinalWorld n := ⟨fun _ => none, fun _ => []⟩

theorem startedTask_settings {n : Nat} (trcBuf : Fin n → List TrcRecord) :
    SameSettings fun p => startedTask (trcBuf p) :=
  ⟨fun _ _ => rfl, fun _ _ => rfl, fun _ _ => rfl, fun _ _ => rfl, fun _ _ => rfl⟩

theorem startedTask_usable {n : Nat} [NeZero n] (trcBuf : Fin n → List TrcRecord) :
    LogUsable (fun _ => plainSystem) (finalJob fun p => startedTask (trcBuf p)) := by
  have short : (plainJob.named plainSystem).logFname.length < maxsizeFilename := by decide
  exact ⟨short, fun _ => rfl, fun _ => rfl, rfl⟩

theorem startedRegion_short : startedRegion.ShortLabels :=
  firstCall_short rfl

end Tasks

end Ipm
