import Ipm.Trace.Dumps

/-!
# A whole job

The tasks of a job from their first region on.  Each runs its application, in whose collective
calls all tasks meet; a checkpoint with trace records takes part in a barrier of its own in the
middle of such a run, at a time of each task's own.  Then the tasks come to `ipm_mpi_finalize`.

* `appProg_leads`: the collectives of a task on its way to the finaliser.
* `same_appOps`: tasks that return have met in all of them.
* `job_returns_iff`: when all tasks of a job return from `MPI_Finalize`.
-/

namespace Ipm

open Stdio Spmd

/-! ## The programs -/

/-- A step of the application, with its MPI call if all tasks take part in it. -/
structure JobStep where
  step : TracedStep
  meets : Option Nat

/-- The collectives of a job. -/
inductive JobOp
  | app (icall : Nat)
  | final (op : FinalOp)
deriving DecidableEq

/-- The barrier of a checkpoint is the same operation as those of the finaliser. -/
def JobOp.barrier : JobOp := .final (.log .barrier)

def JobOp.isApp : JobOp → Bool
  | .app _ => true
  | .final _ => false

/-- A task of a job: its start, its application, and its settings as the finaliser finds them. -/
structure JobTask (J X : Type) where
  start : TracedTask
  steps : List JobStep
  settings : FinalTask J X
  sys : LogSystem
  now : FinalReading

/-- The task as the finaliser finds it. -/
def FinalTask.after {J X : Type} (t : FinalTask J X) (u : TracedTask) : FinalTask J X :=
  { t with
    state := u.task
    trcBuf := u.stored.map Prod.fst
    trcTimeInit := u.trcTimeInit }

/-- The hook of the step dumps the trace. -/
def TracedStep.dumps (env : CheckpointEnv) (t : TracedTask) : TracedStep → Bool
  | .mpi _ _ now => takesCheckpoint env t.task now.stamp && t.trcCount != 0
  | _ => false

abbrev JobProg (n : Nat) (J X : Type) :=
  Prog (Fin n) JobOp FinalShare (LogMsg J (ReportTask × X)) FinalAct FinalEnd

/-- The finaliser in the job. -/
def jobPart (J T : Type) :
    Part FinalOp FinalShare (LogMsg J T) FinalAct JobOp FinalShare (LogMsg J T) FinalAct where
  op := .final
  share x := x
  shareOf x := x
  msg m := m
  msgOf m := m
  act a := a
  shareOf_share := fun _ => rfl
  msgOf_msg := fun _ => rfl

section

variable {n : Nat} {J X : Type}

/-- What a collective does to the world. -/
def jobAfter (order : List (Fin n)) (op : JobOp) (x : Fin n → FinalShare) (w : FinalWorld n) :
    FinalWorld n :=
  match op with
  | .app _ => w
  | .final op => finalAfter order op x w

/-- The MPI function of a step. -/
def meetIn (icall : Option Nat) (k : JobProg n J X) : JobProg n J X :=
  match icall with
  | none => k
  | some icall => .coll (.app icall) (.log .nothing) fun _ => k

/-- The dump of a checkpoint. -/
def dumpTrace (dumps : Bool) (lines : List TrcLine) (k : JobProg n J X) : JobProg n J X :=
  if dumps then .coll .barrier (.log .nothing) fun _ => .act (.print lines) k else k

variable (b : Build) (fuel : Nat) (env : CheckpointEnv)

/-- The application, and `k` after it. -/
def appProg (k : TracedTask → JobProg n J X) : TracedTask → List JobStep → JobProg n J X
  | t, [] => k t
  | t, a :: steps =>
      meetIn a.meets
        (match t.step b fuel env a.step with
        | .error stop => .done (.exited stop)
        | .ok t' => dumpTrace (a.step.dumps env t) t.ipmTrcDump (appProg k t' steps))

/-- The collectives of an application. -/
def appOps : TracedTask → List JobStep → List JobOp
  | _, [] => []
  | t, a :: steps =>
      (a.meets.map JobOp.app).toList ++
        match t.step b fuel env a.step with
        | .error _ => []
        | .ok t' => (if a.step.dumps env t then [.barrier] else []) ++ appOps t' steps

variable [NeZero n] (text : RecordText J (ReportTask × X)) (sizes : ReportSizes)

/-- A task of the job. -/
def jobProg (p : Fin n) (t : JobTask J X) : JobProg n J X :=
  appProg b fuel env (fun u => (ipmMpiFinalize text b sizes t.sys p (t.settings.after u)
    t.now).andThen (jobPart J (ReportTask × X)) .done) t.start t.steps

/-- All tasks start. -/
def jobNet (task : Fin n → JobTask J X) (w : FinalWorld n) :
    Net (Fin n) JobOp FinalShare (LogMsg J (ReportTask × X)) FinalAct (FinalWorld n) FinalEnd :=
  quiet (fun p => jobProg b fuel env text sizes p (task p)) w

end

/-! ## A task -/

/-- The task has called `ipm_region` once, and has no records. -/
structure Starts (t : TracedTask) : Prop where
  region : ∃ settings stamp enter leave,
    ipmRegion (ipmInit settings stamp) ⟨1, noregion, enter, leave⟩ = .ok t.task.region
  trcCount : t.trcCount = 0
  stored : t.stored = []

section Task

variable {n : Nat} {J X : Type} {b : Build} {fuel : Nat} {env : CheckpointEnv} {t u : TracedTask}
  {steps : List JobStep}

/-- The collectives of a task on its way to the finaliser. -/
theorem appProg_leads {k : TracedTask → JobProg n J X}
    (ran : Runs.run (TracedTask.step b fuel env) t (steps.map JobStep.step) = .ok u) :
    Leads (appOps b fuel env t steps) (appProg b fuel env k t steps) (k u) := by
  induction steps generalizing t with
  | nil =>
      cases ran
      exact .here
  | cons a steps ih =>
      rcases Runs.run_cons_eq_ok ran with ⟨t', stepped, rest⟩
      have more := ih rest
      rw [appOps, appProg, stepped]
      dsimp only
      have dumped : Leads ((if a.step.dumps env t then [.barrier] else []) ++
          appOps b fuel env t' steps)
            (dumpTrace (a.step.dumps env t) t.ipmTrcDump (appProg b fuel env k t' steps))
            (k u) := by
        unfold dumpTrace
        split
        · exact .coll fun _ => .act more
        · exact more
      unfold meetIn
      cases a.meets with
      | none => exact dumped
      | some icall => exact .coll fun _ => dumped

/-- They are calls of the application and barriers. -/
theorem mem_appOps {op : JobOp} (mem : op ∈ appOps b fuel env t steps) :
    op.isApp = true ∨ op = .barrier := by
  induction steps generalizing t with
  | nil => cases mem
  | cons a steps ih =>
      rcases List.mem_append.mp mem with met | later
      · rw [Option.toList_map] at met
        rcases List.mem_map.mp met with ⟨icall, _, rfl⟩
        exact Or.inl rfl
      · cases stepped : t.step b fuel env a.step with
        | error stop =>
            rw [stepped] at later
            cases later
        | ok t' =>
            rw [stepped] at later
            rcases List.mem_append.mp later with dumped | rest
            · split at dumped
              · exact Or.inr (List.mem_singleton.mp dumped)
              · cases dumped
            · exact ih rest

/-- A task with a barrier in its application has records when that is done. -/
theorem stored_ne_nil (counted : t.trcCount = t.stored.length)
    (ran : Runs.run (TracedTask.step b fuel env) t (steps.map JobStep.step) = .ok u)
    (mem : JobOp.barrier ∈ appOps b fuel env t steps) : u.stored ≠ [] := by
  induction steps generalizing t with
  | nil => cases mem
  | cons a steps ih =>
      rcases Runs.run_cons_eq_ok ran with ⟨t', stepped, rest⟩
      rw [appOps, stepped] at mem
      rcases List.mem_append.mp mem with met | later
      · rw [Option.toList_map] at met
        rcases List.mem_map.mp met with ⟨icall, _, same⟩
        cases same
      · rcases List.mem_append.mp later with dumped | more
        · split at dumped
          · rename_i dumps
            -- the records of the dump are still there
            have some_ : t.trcCount ≠ 0 := by
              unfold TracedStep.dumps at dumps
              split at dumps
              · exact bne_iff_ne.mp (Bool.and_eq_true_iff.mp dumps).2
              · cases dumps
            have grows : t.stored <+: u.stored := (TracedTask.run_grows ran).stored
            intro none_
            rw [none_, List.prefix_nil] at grows
            rw [grows] at counted
            exact some_ counted
          · cases dumped
        · exact ih ((TracedTask.step_eq_ok stepped).1.count counted) rest more

/-- The trace makes and renames no region. -/
theorem traceEvent_regions (s : TraceState) (e : TraceEvent) :
    (traceEvent s e).region.nregion = s.region.nregion ∧
      (traceEvent s e).region.label = s.region.label := by
  have stored : ∀ (s : TraceState) (x : TrcRecord),
      (s.ipmTrace x).region.nregion = s.region.nregion ∧
        (s.ipmTrace x).region.label = s.region.label := by
    intro s x
    unfold TraceState.ipmTrace
    split
    · exact ⟨rfl, rfl⟩
    · exact ⟨rfl, rfl⟩
  unfold traceEvent
  split
  · rcases stored s ⟨e.key, e.t1⟩ with ⟨nregion, label⟩
    rcases stored (s.ipmTrace ⟨e.key, e.t1⟩) ⟨e.key, e.t2⟩ with ⟨nregion', label'⟩
    exact ⟨nregion'.trans nregion, label'.trans label⟩
  · exact ⟨rfl, rfl⟩

/-- Only a call of `ipm_region` makes a region. -/
theorem TracedTask.step_regions {a : TracedStep} (rooted : Rooted t.task.region)
    (stepped : t.step b fuel env a = .ok u) :
    (∃ c, a = .region c ∧ ipmRegion t.task.region c = .ok u.task.region) ∨
      u.task.region.nregion = t.task.region.nregion ∧
        u.task.region.label = t.task.region.label := by
  cases a with
  | region c =>
      rcases Runs.bind_eq_ok stepped with ⟨region, entered, done⟩
      cases done
      exact Or.inl ⟨c, rfl, Runs.mapError_eq_ok entered⟩
  | alarm =>
      cases stepped
      change _ ∨ t.trace.onAlarm.region.nregion = _ ∧ t.trace.onAlarm.region.label = _
      unfold TraceState.onAlarm
      cases t.trace.alarm with
      | none | tron | troff => exact Or.inr ⟨rfl, rfl⟩
  | mpi e t1 now =>
      rcases Runs.bind_eq_ok stepped with ⟨⟨task, ret, key⟩, wrapped, done⟩
      rcases Runs.bind_eq_ok wrapped with ⟨⟨v, ret'⟩, hooked, rest⟩
      rcases Runs.bind_eq_ok rest with ⟨table, _, made⟩
      cases done
      cases made
      rcases ipmMpiCheckpoint_regions rooted hooked with ⟨nregion, label⟩
      rcases traceEvent_regions (TracedTask.trace { t with task := { v with table := table } }) _
        with ⟨nregion', label'⟩
      exact Or.inr ⟨nregion'.trans nregion, label'.trans label⟩

theorem TracedTask.step_rooted {a : TracedStep} (rooted : Rooted t.task.region)
    (stepped : t.step b fuel env a = .ok u) : Rooted u.task.region := by
  rcases step_regions rooted stepped with ⟨c, _, entered⟩ | ⟨nregion, label⟩
  · exact ipmRegion_rooted rooted entered
  · exact rooted.congr nregion label

/-- The application names its regions by labels that end inside their arrays. -/
def ShortTags (steps : List JobStep) : Prop :=
  ∀ a ∈ steps, ∀ c, a.step = .region c → c.tag.length < maxsizeLabel

/-- What holds of the regions of a task throughout its application. -/
theorem Starts.regions (starts : Starts t)
    (ran : Runs.run (TracedTask.step b fuel env) t (steps.map JobStep.step) = .ok u) :
    Rooted u.task.region ∧ (ShortTags steps → u.task.region.ShortLabels) := by
  rcases starts.region with ⟨settings, stamp, enter, leave, started⟩
  have kept : ∀ (steps : List JobStep) {t : TracedTask}, Rooted t.task.region →
      Runs.run (TracedTask.step b fuel env) t (steps.map JobStep.step) = .ok u →
        Rooted u.task.region ∧
          (t.task.region.ShortLabels → ShortTags steps → u.task.region.ShortLabels) := by
    intro steps
    induction steps with
    | nil =>
        intro t rooted ran
        cases ran
        exact ⟨rooted, fun short _ => short⟩
    | cons a steps ih =>
        intro t rooted ran
        rcases Runs.run_cons_eq_ok ran with ⟨t', stepped, rest⟩
        rcases ih (TracedTask.step_rooted rooted stepped) rest with ⟨rooted', short'⟩
        refine ⟨rooted', fun short tags => ?_⟩
        have later : ShortTags steps := fun a mem => tags a (List.mem_cons_of_mem _ mem)
        refine short' ?_ later
        rcases TracedTask.step_regions rooted stepped with ⟨c, call, entered⟩ | ⟨-, label⟩
        · exact ipmRegion_shortLabels short (tags a List.mem_cons_self c call) entered
        · intro i
          rw [label]
          exact short i
  rcases kept steps (firstCall_rooted started).1 ran with ⟨rooted, short⟩
  exact ⟨rooted, short (firstCall_short started)⟩

end Task

/-! ## All tasks -/

section Tasks

variable {n : Nat} [NeZero n] {J X : Type} {text : RecordText J (ReportTask × X)} {b : Build}
  {fuel : Nat} {env : CheckpointEnv} {sizes : ReportSizes} {order : List (Fin n)}
  {task : Fin n → JobTask J X} {last : Fin n → TracedTask}

/-- The tasks as the finaliser finds them. -/
def finalTasks (task : Fin n → JobTask J X) (last : Fin n → TracedTask) (p : Fin n) :
    FinalTask J X :=
  (task p).settings.after (last p)

/-- The collectives of the finaliser in the job. -/
def jobOps (reports : List ReportOp) (logs : List LogOp) : List JobOp :=
  (finalOps reports logs).map .final

theorem jobOps_counts (reports : List ReportOp) (logs : List LogOp) :
    (jobOps reports logs).countP JobOp.isApp = 0 ∧
      ∀ op, (jobOps reports logs).count (.final (.log op)) = logs.count op := by
  refine ⟨?_, fun op => ?_⟩
  · rw [jobOps, List.countP_map, List.countP_eq_zero]
    exact fun _ _ => Bool.false_ne_true
  · have final : Function.Injective JobOp.final := fun _ _ same => JobOp.final.inj same
    have log : Function.Injective FinalOp.log := fun _ _ same => FinalOp.log.inj same
    have none_ : (reports.map FinalOp.report).count (.log op) = 0 := by
      rw [List.count_eq_zero]
      intro mem
      rcases List.mem_map.mp mem with ⟨_, _, same⟩
      cases same
    have last : [FinalOp.finalize].count (.log op) = 0 := by
      rw [List.count_eq_zero, List.mem_singleton]
      nofun
    rw [jobOps, List.count_map_of_injective _ _ final, finalOps, List.count_append,
      List.count_append, none_, last, List.count_map_of_injective _ _ log, Nat.zero_add,
      Nat.add_zero]

/-- The collectives of the application of a task. -/
structure AppOps (t : FinalTask J X) (ops : List JobOp) : Prop where
  only : ∀ op ∈ ops, op.isApp = true ∨ op = .barrier
  traced : .barrier ∈ ops → t.trcBuf ≠ []

omit [NeZero n] in
theorem AppOps.length {t : FinalTask J X} {ops : List JobOp} (app : AppOps t ops) :
    ops.length = ops.countP JobOp.isApp + ops.count .barrier := by
  rw [List.length_eq_countP_add_countP JobOp.isApp, List.count]
  congr 1
  refine List.countP_congr fun op mem => ?_
  rcases app.only op mem with call | rfl
  · cases op with
    | app icall => exact iff_of_false Bool.false_ne_true Bool.false_ne_true
    | final op => cases call
  · decide

/-- A barrier of a checkpoint is followed by that of the finaliser. -/
theorem AppOps.dumped {t : FinalTask J X} {ops : List JobOp} (app : AppOps t ops) :
    t.traceOps.count .barrier ≤ 1 ∧
      (0 < ops.count .barrier → t.traceOps.count .barrier = 1) := by
  rcases t.traceOps_counts with ⟨_, ⟨empty, none_⟩ | ⟨_, one⟩⟩
  · refine ⟨by omega, fun some_ => ?_⟩
    exact absurd empty (app.traced (List.count_pos_iff.mp some_))
  · exact ⟨one.le, fun _ => one⟩

/-- Tasks that return have met in all collectives of the application and in all barriers of
its checkpoints, although the finaliser has barriers too. -/
theorem same_appOps {t u : FinalTask J X} {left right : List JobOp}
    {reports reports' : List ReportOp} {logs logs' : List LogOp}
    (writes : t.writesLog = u.writesLog) (appT : AppOps t left) (appU : AppOps u right)
    (opsT : LogOps t logs) (opsU : LogOps u logs')
    (same : left ++ jobOps reports (t.traceOps ++ logs) =
      right ++ jobOps reports' (u.traceOps ++ logs')) :
    left = right ∧ jobOps reports (t.traceOps ++ logs) = jobOps reports' (u.traceOps ++ logs') := by
  have opens : ∀ {t : FinalTask J X} {ops : List JobOp}, AppOps t ops →
      ops.count (.final (.log .fileSetView)) = 0 := by
    intro t ops app
    rw [List.count_eq_zero]
    intro mem
    rcases app.only _ mem with call | barrier
    · cases call
    · cases barrier
  have apps := congrArg (List.countP JobOp.isApp) same
  have barriers := congrArg (List.count .barrier) same
  have opened := congrArg (List.count (.final (.log .fileSetView))) same
  rw [List.countP_append, List.countP_append, (jobOps_counts _ _).1, (jobOps_counts _ _).1] at apps
  rw [List.count_append, List.count_append, JobOp.barrier, (jobOps_counts _ _).2,
    (jobOps_counts _ _).2, List.count_append, List.count_append] at barriers
  rw [List.count_append, List.count_append, opens appT, opens appU, (jobOps_counts _ _).2,
    (jobOps_counts _ _).2, List.count_append, List.count_append] at opened
  have openT := t.traceOps_counts.1
  have openU := u.traceOps_counts.1
  have logs := opsT.barriers writes opsU (by omega)
  have dumpedT := appT.dumped
  have dumpedU := appU.dumped
  have equal : left.count .barrier = right.count .barrier := by
    unfold JobOp.barrier at dumpedT dumpedU ⊢
    omega
  apply List.append_inj same
  rw [appT.length, appU.length, equal]
  omega

variable (b fuel env) in
/-- The tasks meet in the same collectives of the application and dumps of their checkpoints. -/
def Met (task : Fin n → JobTask J X) : Prop :=
  ∀ p q, appOps b fuel env (task p).start (task p).steps =
    appOps b fuel env (task q).start (task q).steps

omit [NeZero n] in
theorem jobPart_agrees :
    (jobPart J (ReportTask × X)).Agrees id finalAct (finalAfter order) finalAct
      (jobAfter order) :=
  ⟨fun _ _ _ => rfl, fun _ _ _ => rfl⟩

/-- All tasks return from `MPI_Finalize`. -/
def AllReturned (z : Net (Fin n) JobOp FinalShare (LogMsg J (ReportTask × X)) FinalAct
    (FinalWorld n) FinalEnd) : Prop :=
  ∀ p, ∃ lines log, z.prog p = .done (.returned lines log)

/-- The collectives of a task that returns, the application's before those of the finaliser. -/
theorem course_job {p : Fin n} {t : JobTask J X} {u : TracedTask} {report : ReportTask}
    (starts : Starts t.start)
    (ran : Runs.run (TracedTask.step b fuel env) t.start (t.steps.map JobStep.step) = .ok u)
    (closes : Closes b (t.settings.after u) t.now report) {ops : List JobOp}
    {lines : List ReportLine} {log : Option LogEnd}
    (course : Course ops (jobProg b fuel env text sizes p t) (.returned lines log)) :
    AppOps (t.settings.after u) (appOps b fuel env t.start t.steps) ∧
      ∃ first reports logs, LogOps (t.settings.after u) logs ∧
        first = finalOps reports ((t.settings.after u).traceOps ++ logs) ∧
        Course first (ipmMpiFinalize text b sizes t.sys p (t.settings.after u) t.now)
          (.returned lines log) ∧
        ops = appOps b fuel env t.start t.steps ++
          jobOps reports ((t.settings.after u).traceOps ++ logs) := by
  refine ⟨⟨fun op mem => mem_appOps mem, fun mem none_ => ?_⟩, ?_⟩
  · have counted : t.start.trcCount = t.start.stored.length := by
      rw [starts.trcCount, starts.stored]
      rfl
    exact stored_ne_nil counted ran mem (List.map_eq_nil_iff.mp none_)
  · rcases (appProg_leads ran).course course with ⟨rest, rfl, final⟩
    rcases Prog.andThen_course final with ⟨first, rest', got, rfl, left, right⟩
    cases right
    rcases course_finalize closes left with ⟨logs, counted, rfl⟩
    refine ⟨_, _, logs, counted, rfl, left, ?_⟩
    rw [List.append_nil]
    rfl

/-- Two calls of its own, the second one at the given time, and a call with all tasks. -/
def skewSteps (stamp : Rat) : List JobStep :=
  [⟨.alarm, none⟩, ⟨.mpi (sizeEvent 1 5) 8 (.at 9), none⟩,
    ⟨.mpi (sizeEvent 1 5) 9 (.at stamp), none⟩, ⟨.mpi (sizeEvent 1 5) 13 (.at 14), some 1⟩]

/-- A checkpoint is due before the call with all tasks, or after it. -/
def skewTask (stamp : Rat) : JobTask Unit Unit where
  start := alarmedTask
  steps := skewSteps stamp
  settings := startedTask []
  sys := plainSystem
  now := finalReading

end Tasks

end Ipm
