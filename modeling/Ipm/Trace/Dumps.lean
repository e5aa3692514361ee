import Ipm.Finalize

/-!
# Traces and checkpoints

`ipm_mpi_checkpoint` prints the trace as the finaliser does: when there are records the tasks
meet in a barrier, and each prints its buffer.  The buffer stays as it is, so the next dump
prints the same records again.

* `TracedTask.step_eq_ok`: what a step adds to the buffer, and what it prints.
* `Dumped.run`: a run prints the buffer as its checkpoints have found it.
* `trace_printed`: how often a record is printed.
-/

namespace Ipm

/-! ## A task with its trace -/

/-- A task with the trace fields of `TraceState`, whose regions and call masks are those of the
task; `dumps` are the lines each call of `ipm_trc_dump` has printed. -/
structure TracedTask where
  task : TaskState
  mpiRank : Nat
  trcTimeInit : Rat
  trcCount : Nat
  trcCountMax : Nat
  trcBuf : Option Nat
  alarm : Alarm
  timeFinal : Double
  stored : List (TrcRecord × Nat)
  dumps : List (List TrcLine)

/-- A step of the application or an alarm; the time of an MPI call starts at `t1`. -/
inductive TracedStep
  | region (c : RegionCall)
  | alarm
  | mpi (e : MpiEvent) (t1 : Rat) (now : CheckpointReading)

namespace TracedTask

/-- The trace fields. -/
def trace (t : TracedTask) : TraceState where
  region := t.task.region
  callMask := t.task.table.callMask
  trcCount := t.trcCount
  trcCountMax := t.trcCountMax
  trcBuf := t.trcBuf
  alarm := t.alarm
  timeFinal := t.timeFinal
  stored := t.stored

/-- The trace section of a wrapper and the alarms change the flag, the buffer and the alarm. -/
def withTrace (t : TracedTask) (s : TraceState) : TracedTask :=
  { t with
    task := { t.task with region := s.region }
    trcCount := s.trcCount
    alarm := s.alarm
    stored := s.stored }

/-- `ipm_trc_dump`. -/
def ipmTrcDump (t : TracedTask) : List TrcLine :=
  t.stored.map fun x => ⟨t.mpiRank, x.1.t - t.trcTimeInit, keyCall x.1.key, keyByte x.1.key,
    keyRegion x.1.key, keyRank x.1.key⟩

/-- The hook dumps the trace: a checkpoint has been taken, and there are records. -/
def dumpsTrace (t : TracedTask) (ret : Int) : Bool := ret == 1 && t.trcCount != 0

/-- One step: a wrapper with its hook, which finds the trace before the event is traced. -/
def step (b : Build) (fuel : Nat) (env : CheckpointEnv) (t : TracedTask) :
    TracedStep → Except TaskStop TracedTask
  | .region c => do
      let region ← taskRegion t.task.region c
      .ok { t with task := { t.task with region := region } }
  | .alarm => .ok (t.withTrace t.trace.onAlarm)
  | .mpi e t1 now => do
      let (task, ret, key) ← mpiWrapper b fuel env t.task e now
      let dumps := if t.dumpsTrace ret then t.dumps ++ [t.ipmTrcDump] else t.dumps
      let t := { t with task := task, dumps := dumps }
      .ok (t.withTrace (traceEvent t.trace ⟨e.call, key, t1, t1 + e.wall⟩))

end TracedTask

/-- `ipm_trc_count` where the step takes a checkpoint. -/
def TracedStep.checkpoint (env : CheckpointEnv) (t : TracedTask) : TracedStep → List Nat
  | .mpi _ _ now => if takesCheckpoint env t.task now.stamp then [t.trcCount] else []
  | _ => []

/-- `ipm_trc_count` at the checkpoints of a run. -/
def checkpointCounts (b : Build) (fuel : Nat) (env : CheckpointEnv) :
    TracedTask → List TracedStep → List Nat
  | _, [] => []
  | t, a :: steps =>
      a.checkpoint env t ++
        match t.step b fuel env a with
        | .error _ => []
        | .ok t' => checkpointCounts b fuel env t' steps

/-! ## The buffer -/

/-- Only more is stored, and all of it is counted. -/
structure Grows (t t' : TraceState) : Prop where
  stored : t.stored <+: t'.stored
  count : t.trcCount = t.stored.length → t'.trcCount = t'.stored.length

theorem Grows.refl (t : TraceState) : Grows t t := ⟨List.prefix_refl _, id⟩

theorem Grows.trans {t u v : TraceState} (first : Grows t u) (second : Grows u v) : Grows t v :=
  ⟨first.stored.trans second.stored, fun counted => second.count (first.count counted)⟩

theorem ipmTrace_grows (t : TraceState) (record : TrcRecord) : Grows t (t.ipmTrace record) := by
  unfold TraceState.ipmTrace
  split
  · exact ⟨List.prefix_refl _, id⟩
  · refine ⟨List.prefix_append _ _, fun counted => ?_⟩
    rw [List.length_append, List.length_singleton, ← counted]

theorem traceEvent_grows (t : TraceState) (e : TraceEvent) : Grows t (traceEvent t e) := by
  unfold traceEvent
  split
  · exact (ipmTrace_grows t _).trans (ipmTrace_grows _ _)
  · exact .refl t

theorem onAlarm_stored (t : TraceState) :
    t.onAlarm.stored = t.stored ∧ t.onAlarm.trcCount = t.trcCount := by
  unfold TraceState.onAlarm
  cases t.alarm <;> exact ⟨rfl, rfl⟩

/-- A wrapper dumps the trace when it takes a checkpoint and there are records. -/
theorem TracedTask.dumpsTrace_eq {b : Build} {env : CheckpointEnv} {t : TracedTask}
    {now : CheckpointReading} {v : TaskState} {ret : Int}
    (hooked : ipmMpiCheckpoint b env t.task now = .ok (v, ret)) :
    t.dumpsTrace ret = (takesCheckpoint env t.task now.stamp && t.trcCount != 0) := by
  unfold TracedTask.dumpsTrace
  congr 1
  rcases ipmMpiCheckpoint_cases hooked with ⟨taken, rfl, _⟩ | ⟨quiet, other, _⟩
  · rw [taken]
    rfl
  · rw [quiet]
    exact beq_eq_false_iff_ne.mpr other

/-- What a step does to the trace: it stores more behind what is there, and it prints what
is there when it takes a checkpoint. -/
theorem TracedTask.step_eq_ok {b : Build} {fuel : Nat} {env : CheckpointEnv} {t t' : TracedTask}
    {a : TracedStep} (stepped : t.step b fuel env a = .ok t') :
    Grows t.trace t'.trace ∧ t'.mpiRank = t.mpiRank ∧ t'.trcTimeInit = t.trcTimeInit ∧
      t'.dumps = t.dumps ++ ((a.checkpoint env t).filter (0 < ·)).map fun _ => t.ipmTrcDump := by
  cases a with
  | region c =>
      rcases Runs.bind_eq_ok stepped with ⟨region, _, done⟩
      cases done
      exact ⟨⟨List.prefix_refl _, id⟩, rfl, rfl, (List.append_nil _).symm⟩
  | alarm =>
      cases stepped
      rcases onAlarm_stored t.trace with ⟨stored, count⟩
      refine ⟨⟨?_, fun counted => ?_⟩, rfl, rfl, (List.append_nil _).symm⟩
      · change t.stored <+: t.trace.onAlarm.stored
        rw [stored]
        exact List.prefix_refl _
      · change t.trace.onAlarm.trcCount = t.trace.onAlarm.stored.length
        rw [stored, count]
        exact counted
  | mpi e t1 now =>
      rcases Runs.bind_eq_ok stepped with ⟨⟨task, ret, key⟩, wrapped, done⟩
      rcases Runs.bind_eq_ok wrapped with ⟨⟨v, ret'⟩, hooked, rest⟩
      rcases Runs.bind_eq_ok rest with ⟨table, _, made⟩
      cases done
      cases made
      have grows := traceEvent_grows (TracedTask.trace { t with task := { v with table := table } })
      refine ⟨⟨(grows _).stored, (grows _).count⟩, rfl, rfl, ?_⟩
      change (if t.dumpsTrace ret then _ else _) = t.dumps ++ (List.filter _
        (if takesCheckpoint env t.task now.stamp then [t.trcCount] else [])).map _
      rw [TracedTask.dumpsTrace_eq hooked]
      cases takesCheckpoint env t.task now.stamp with
      | false => exact (List.append_nil _).symm
      | true =>
          by_cases none_ : t.trcCount = 0
          · rw [none_]
            exact (List.append_nil _).symm
          · have some_ : decide (0 < t.trcCount) = true :=
              decide_eq_true (Nat.pos_of_ne_zero none_)
            rw [if_pos rfl, List.filter_singleton, some_, Bool.true_and, if_pos]
            · rfl
            · exact bne_iff_ne.mpr none_

theorem TracedTask.run_grows {b : Build} {fuel : Nat} {env : CheckpointEnv} {t u : TracedTask}
    {steps : List TracedStep} (ran : Runs.run (TracedTask.step b fuel env) t steps = .ok u) :
    Grows t.trace u.trace := by
  induction steps generalizing t with
  | nil =>
      cases ran
      exact .refl _
  | cons a steps ih =>
      rcases Runs.run_cons_eq_ok ran with ⟨t', stepped, rest⟩
      exact (step_eq_ok stepped).1.trans (ih rest)

/-! ## A run -/

/-- The dumps of a task are what its checkpoints have found in the buffer. -/
structure Dumped (t : TracedTask) (counts : List Nat) : Prop where
  count : t.trcCount = t.stored.length
  before : ∀ d ∈ t.dumps, d <+: t.ipmTrcDump
  lengths : t.dumps.map List.length = counts.filter (0 < ·)

section Runs

variable {b : Build} {fuel : Nat} {env : CheckpointEnv} {t t' : TracedTask} {counts : List Nat}

theorem mem_checkpoint {a : TracedStep} {c : Nat} : c ∈ a.checkpoint env t ↔
    ∃ e t1 now, a = .mpi e t1 now ∧ takesCheckpoint env t.task now.stamp = true ∧
      t.trcCount = c := by
  cases a with
  | region | alarm =>
      refine iff_of_false List.not_mem_nil ?_
      rintro ⟨_, _, _, same, _⟩
      cases same
  | mpi e t1 now =>
      rw [TracedStep.checkpoint]
      cases taken : takesCheckpoint env t.task now.stamp with
      | false =>
          refine iff_of_false List.not_mem_nil ?_
          rintro ⟨_, _, _, same, taken', _⟩
          cases same
          cases taken.symm.trans taken'
      | true =>
          rw [if_pos rfl, List.mem_singleton]
          refine ⟨fun same => ⟨e, t1, now, rfl, taken, same.symm⟩, ?_⟩
          rintro ⟨_, _, _, _, _, same⟩
          exact same.symm

theorem Dumped.step {a : TracedStep} (dumped : Dumped t counts)
    (stepped : t.step b fuel env a = .ok t') : Dumped t' (counts ++ a.checkpoint env t) := by
  rcases TracedTask.step_eq_ok stepped with ⟨grows, rank, init, dumps⟩
  have longer : t.ipmTrcDump <+: t'.ipmTrcDump := by
    unfold TracedTask.ipmTrcDump
    rw [rank, init]
    exact grows.stored.map _
  have length : t.ipmTrcDump.length = t.trcCount := by
    rw [TracedTask.ipmTrcDump, List.length_map, dumped.count]
  refine ⟨grows.count dumped.count, fun d mem => ?_, ?_⟩
  · rw [dumps] at mem
    rcases List.mem_append.mp mem with old | new
    · exact (dumped.before d old).trans longer
    · rcases List.mem_map.mp new with ⟨_, _, rfl⟩
      exact longer
  · rw [dumps, List.map_append, dumped.lengths, List.filter_append, List.map_map]
    congr 1
    refine (List.map_congr_left fun c mem => ?_).trans (List.map_id _)
    rw [Function.comp_apply, length, id_eq]
    rcases mem_checkpoint.mp (List.mem_of_mem_filter mem) with ⟨_, _, _, _, _, count⟩
    exact count

theorem Dumped.run {steps : List TracedStep} (dumped : Dumped t counts)
    (ran : Runs.run (TracedTask.step b fuel env) t steps = .ok t') :
    Dumped t' (counts ++ checkpointCounts b fuel env t steps) := by
  induction steps generalizing t counts with
  | nil =>
      cases ran
      rwa [checkpointCounts, List.append_nil]
  | cons a steps ih =>
      rcases Runs.run_cons_eq_ok ran with ⟨u, stepped, rest⟩
      rw [checkpointCounts, stepped, ← List.append_assoc]
      exact ih (dumped.step stepped) rest

/-- The checkpoints of a run, by the states they are taken in. -/
theorem mem_checkpointCounts {steps : List TracedStep} {c : Nat} :
    c ∈ checkpointCounts b fuel env t steps ↔
      ∃ v e t1 now, Runs.Visit (TracedTask.step b fuel env) t steps v (.mpi e t1 now) ∧
        takesCheckpoint env v.task now.stamp = true ∧ v.trcCount = c := by
  induction steps generalizing t with
  | nil =>
      refine iff_of_false List.not_mem_nil ?_
      intro given
      rcases given with ⟨v, e, t1, now, ⟨pre, within, _⟩, _⟩
      exact List.concat_ne_nil _ _ (List.prefix_nil.mp within)
  | cons a steps ih =>
      simp only [Runs.visit_cons_iff]
      rw [checkpointCounts, List.mem_append, mem_checkpoint]
      constructor
      · intro given
        rcases given with ⟨e, t1, now, rfl, taken, count⟩ | later
        · exact ⟨t, e, t1, now, Or.inl ⟨rfl, rfl⟩, taken, count⟩
        · cases stepped : t.step b fuel env a with
          | error stop =>
              rw [stepped] at later
              cases later
          | ok t' =>
              rw [stepped] at later
              rcases ih.mp later with ⟨v, e, t1, now, visit, taken, count⟩
              exact ⟨v, e, t1, now, Or.inr ⟨t', rfl, visit⟩, taken, count⟩
      · intro given
        rcases given with ⟨v, e, t1, now, ⟨rfl, rfl⟩ | ⟨t', stepped, visit⟩, taken, count⟩
        · exact Or.inl ⟨e, t1, now, rfl, taken, count⟩
        · rw [stepped]
          exact Or.inr (ih.mpr ⟨v, e, t1, now, visit, taken, count⟩)

/-! ## What is printed -/

/-- What a task has printed when the finaliser has dumped its trace too. -/
def TracedTask.printed (t : TracedTask) : List (List TrcLine) := t.dumps ++ [t.ipmTrcDump]

/-- How often the record at a place of the buffer is printed. -/
def timesPrinted (printed : List (List TrcLine)) (i : Nat) : Nat :=
  printed.countP fun d => i < d.length

theorem Dumped.timesPrinted (dumped : Dumped t counts) {i : Nat} (below : i < t.trcCount) :
    Ipm.timesPrinted t.printed i = counts.countP (i < ·) + 1 := by
  have last : [t.ipmTrcDump].countP (fun d => i < d.length) = 1 := by
    rw [List.countP_singleton, TracedTask.ipmTrcDump, List.length_map, ← dumped.count]
    exact if_pos (decide_eq_true below)
  have earlier : t.dumps.countP (fun d => i < d.length) = counts.countP (i < ·) := by
    have lengths := congrArg (List.countP (i < ·)) dumped.lengths
    rw [List.countP_map, List.countP_filter] at lengths
    refine lengths.trans (List.countP_congr fun c _ => ?_)
    rw [← Bool.decide_and, decide_eq_true_iff, decide_eq_true_iff]
    omega
  rw [Ipm.timesPrinted, TracedTask.printed, List.countP_append, last, earlier]

/-- **A record is printed by every checkpoint that is taken after it, and once at the end**:
each dump prints the buffer from its start, so the trace is printed once in all exactly when
no checkpoint is taken after the first record. -/
theorem trace_printed {steps : List TracedStep} (count : t.trcCount = 0) (stored : t.stored = [])
    (dumps : t.dumps = []) (ran : Runs.run (TracedTask.step b fuel env) t steps = .ok t') :
    (∀ d ∈ t'.printed, d <+: t'.ipmTrcDump) ∧
      (∀ i < t'.trcCount, timesPrinted t'.printed i =
        (checkpointCounts b fuel env t steps).countP (i < ·) + 1) ∧
      ((∀ i < t'.trcCount, timesPrinted t'.printed i = 1) ↔
        ∀ v e t1 now, Runs.Visit (TracedTask.step b fuel env) t steps v (.mpi e t1 now) →
          takesCheckpoint env v.task now.stamp = true → v.trcCount = 0) := by
  have start : Dumped t [] := by
    refine ⟨?_, ?_, ?_⟩
    · rw [count, stored]
      rfl
    · rw [dumps]
      exact fun d mem => absurd mem List.not_mem_nil
    · rw [dumps, List.map_nil, List.filter_nil]
  have dumped := start.run ran
  rw [List.nil_append] at dumped
  refine ⟨?_, fun i below => dumped.timesPrinted below, ?_, ?_⟩
  · intro d mem
    rcases List.mem_append.mp mem with old | last
    · exact dumped.before d old
    · rw [List.mem_singleton.mp last]
  · intro once v e t1 now visit taken
    by_contra late
    have some_ : 0 < v.trcCount := Nat.pos_of_ne_zero late
    have found : v.trcCount ∈ checkpointCounts b fuel env t steps :=
      mem_checkpointCounts.mpr ⟨v, e, t1, now, visit, taken, rfl⟩
    have printed : v.trcCount ∈ t'.dumps.map List.length := by
      rw [dumped.lengths]
      exact List.mem_filter.mpr ⟨found, decide_eq_true some_⟩
    rcases List.mem_map.mp printed with ⟨d, mem, length⟩
    have within := (dumped.before d mem).length_le
    rw [length, TracedTask.ipmTrcDump, List.length_map, ← dumped.count] at within
    have more := dumped.timesPrinted (Nat.lt_of_lt_of_le some_ within)
    rw [once 0 (Nat.lt_of_lt_of_le some_ within)] at more
    have counted : 0 < (checkpointCounts b fuel env t steps).countP (0 < ·) :=
      List.countP_pos_iff.mpr ⟨_, found, decide_eq_true some_⟩
    omega
  · intro early i below
    rw [dumped.timesPrinted below]
    have none_ : (checkpointCounts b fuel env t steps).countP (i < ·) = 0 := by
      rw [List.countP_eq_zero]
      intro c found
      rcases mem_checkpointCounts.mp found with ⟨v, e, t1, now, visit, taken, rfl⟩
      rw [early v e t1 now visit taken, decide_eq_true_iff]
      exact Nat.not_lt_zero i
    rw [none_]

/-- A task that starts to trace with the next alarm. -/
def alarmedTask : TracedTask where
  task :=
    { TaskState.start startedRegion 0 with
      table := { HashState.init with callMask := fun _ => callMaskBprec ||| callOptTrace } }
  mpiRank := 0
  trcTimeInit := 0
  trcCount := 0
  trcCountMax := 8
  trcBuf := some 8
  alarm := .tron
  timeFinal := .finite 100
  stored := []
  dumps := []

/-- Checkpoints at 12 and 24 seconds, the second one with two records. -/
def alarmedSteps : List TracedStep :=
  [.alarm, .mpi (sizeEvent 1 5) 11 (.at 12), .mpi (sizeEvent 1 5) 23 (.at 24)]

/-- The first two records are printed twice, the others once. -/
theorem trace_printed_alarmed :
    ∃ t, Runs.run (TracedTask.step .five 20 everyTen) alarmedTask alarmedSteps = .ok t ∧
      (∀ d ∈ t.printed, d <+: t.ipmTrcDump) ∧
      (∀ i < t.trcCount, timesPrinted t.printed i =
        (checkpointCounts .five 20 everyTen alarmedTask alarmedSteps).countP (i < ·) + 1) ∧
      ((∀ i < t.trcCount, timesPrinted t.printed i = 1) ↔
        ∀ v e t1 now, Runs.Visit (TracedTask.step .five 20 everyTen) alarmedTask alarmedSteps v
          (.mpi e t1 now) → takesCheckpoint everyTen v.task now.stamp = true → v.trcCount = 0) := by
  have ran : Runs.okWith (Runs.run (TracedTask.step .five 20 everyTen) alarmedTask alarmedSteps)
      (fun t => decide (t.dumps.map List.length = [2] ∧ t.trcCount = 4)) = true := by
    decide +kernel
  rcases Runs.okWith_eq_true ran with ⟨t, ended, _⟩
  exact ⟨t, ended, trace_printed rfl rfl rfl ended⟩

end Runs

end Ipm
