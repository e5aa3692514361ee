import Mathlib.Algebra.BigOperators.Fin
import Ipm.Lib.Phases
import Ipm.Task
import Ipm.Report.Order

/-!
# The report

`ipm_report` (`src/ipm_mpi_report.c`): each task adds up its own totals, nine reductions
bring them to rank 0, and where a task has more than one region it goes through as many
further rounds, each with a broadcast of a region label of rank 0 and nine reductions of
the values of that region.

A row of `region_label` with 21 characters has no terminating zero, and `sprintf` copies
it behind the end of the buffer for the broadcast: the task ends in `ReportEnd.overrun`.

* `course_ipmReport`: the collectives of a task, if its labels fit the buffer, and that it
  overruns it if they do not.
* `ipmReport_match_iff`: the tasks take part in the same ones, and come to the end of the
  report, exactly when they go through the same number of rounds and their labels fit.
-/

namespace Ipm

open Spmd

/-! ## Collective operations -/

inductive MpiType
  | char
  | int
  | longLong
  | double
deriving DecidableEq

inductive MpiOp
  | sum
  | min
  | max
deriving DecidableEq

/-- The kind, the element count and type, and the root of a collective operation. -/
inductive ReportOp
  | bcast (count : Nat) (type : MpiType) (root : Nat)
  | reduce (count : Nat) (type : MpiType) (op : MpiOp) (root : Nat)
deriving DecidableEq

/-- What a task contributes to one. -/
inductive ReportShare
  | label (l : Label)
  | doubles (v : Nat → Rat)
  | ints (v : Nat → Int)
  | longs (v : Nat → Nat → Int)

namespace ReportShare

def toLabel : ReportShare → Label
  | label l => l
  | _ => []

def toDoubles : ReportShare → Nat → Rat
  | doubles v => v
  | _ => 0

def toInts : ReportShare → Nat → Int
  | ints v => v
  | _ => 0

def toLongs : ReportShare → Nat → Nat → Int
  | longs v => v
  | _ => 0

end ReportShare

/-- A reduction of one element over all tasks. -/
def MpiOp.over {n : Nat} [NeZero n] {X : Type} [Zero X] [Add X] [Min X] [Max X] (op : MpiOp)
    (x : Fin n → X) : X :=
  match op with
  | .sum => (List.ofFn x).sum
  | .min => (List.ofFn x).foldl Min.min (x (Fin.ofNat n 0))
  | .max => (List.ofFn x).foldl Max.max (x (Fin.ofNat n 0))

/-! ## The accumulators -/

/-- `MAXSIZE_AGGBUF`. -/
def maxsizeAggbuf : Nat := 10

/-- The sizes of the arrays that depend on the build and its hardware counters. -/
structure ReportSizes where
  build : Build
  nEventsets : Nat
  hpmCounters : Nat

/-- The arrays a task reduces. -/
structure Totals where
  rbuf : Nat → Rat
  mpiTime : Nat → Rat
  mpiCount : Nat → Rat
  cbuf : Nat → Nat → Int

/-- What rank 0 gets: the sums, and of two arrays the minima and maxima. -/
structure Reduced where
  rbuf : MpiOp → Nat → Rat
  mpiTime : Nat → Rat
  mpiCount : Nat → Rat
  cpop : Nat → Int
  cbuf : MpiOp → Nat → Nat → Int

/-- A task as `ipm_report` finds it.  `calcFlops` is `IPM_HPM_CALC_FLOPS`. -/
structure ReportTask where
  state : TaskState
  flops : Rat
  bytes : Rat
  calcFlops : (Nat → Int) → Rat
  appInterrupted : Bool

section

variable (sizes : ReportSizes) (t : ReportTask)

/-- The entries of the table that are in use. -/
def ReportTask.entries : List HashEnt :=
  ((List.range (sizes.build.maxsizeHash + 1)).map t.state.table.hash).filter (·.key ≠ 0)

/-- `rbuf[5]` and `rbuf[6]`: whether there is a flop count, and which. -/
def flopPair (flops : Rat) : Rat × Rat := if flops = -1 then (0, 0) else (1, flops)

/-- The whole-job totals. -/
def ReportTask.jobTotals : Totals where
  rbuf := fun i => ([t.state.wtime, t.state.utime, t.state.stime, t.state.mtime,
    t.state.mtime / t.state.wtime, (flopPair t.flops).1, (flopPair t.flops).2, t.bytes, 1, 1] :
      List Rat).getD i 0
  mpiTime := fun icall =>
    (((t.entries sizes).filter fun e => keyCall e.key = icall).map (·.tTot)).sum
  mpiCount := fun icall =>
    (((t.entries sizes).filter fun e => keyCall e.key = icall).map fun e => (e.count : Rat)).sum
  cbuf := fun i j =>
    ((List.range maxsizeRegion).map fun k => t.state.region.hpmCount k i j).sum

/-- The totals of region `jreg`. -/
def ReportTask.regionTotals (jreg : Nat) : Totals where
  rbuf := fun i =>
    let r := t.state.region
    let pair := flopPair (t.calcFlops (r.hpmCount jreg r.hpmEventset))
    ([r.wtime jreg, r.utime jreg, r.stime jreg, t.state.regionMtime jreg,
      t.state.regionMtime jreg / r.wtime jreg, pair.1, pair.2, r.count jreg, 1, r.count jreg] :
        List Rat).getD i 0
  mpiTime := fun icall =>
    (((t.entries sizes).filter fun e => keyRegion e.key = jreg ∧ keyCall e.key = icall).map
      (·.tTot)).sum
  mpiCount := fun icall =>
    (((t.entries sizes).filter fun e => keyRegion e.key = jreg ∧ keyCall e.key = icall).map
      fun e => (e.count : Rat)).sum
  cbuf := fun i j => t.state.region.hpmCount jreg i j

/-- `cpop`: the event set the task counts. -/
def ReportTask.cpop (i : Nat) : Int := if i = t.state.region.hpmEventset then 1 else 0

/-- The first region of a task with this label. -/
def ReportTask.matchRegion (l : Label) : Option Nat :=
  (List.range t.state.region.nregion).find? fun i => sameLabel l (t.state.region.label i)

/-- What a round reduces: a task without the region sets `rbuf` to zero, and leaves the
other arrays as they are. -/
def ReportTask.roundTotals (jreg : Option Nat) (last : Totals) : Totals :=
  match jreg with
  | none => { last with rbuf := fun _ => 0 }
  | some j => t.regionTotals sizes j

/-- The permutation `preg`. -/
def ReportTask.preg : Equiv.Perm Nat :=
  indexDoubles maxsizeRegion fun i => t.state.region.wtime i

end

/-! ## `ipm_report` -/

/-- A line of the report that rank 0 prints. -/
structure ReportLine where
  label : Label
  reduced : Reduced

/-- How `ipm_report` ends for a task: it overruns `egregious_mistake`, or it returns, after
these lines. -/
inductive ReportEnd
  | overrun
  | printed (lines : List ReportLine)

abbrev ReportProg (n : Nat) := Prog (Fin n) ReportOp ReportShare Unit Unit ReportEnd

section

variable {n : Nat} [NeZero n] (sizes : ReportSizes)

/-- The nine reductions. -/
def reduceOps : List ReportOp :=
  [.reduce maxsizeAggbuf .double .sum 0, .reduce maxsizeAggbuf .double .min 0,
    .reduce maxsizeAggbuf .double .max 0, .reduce (sizes.build.maxsizeCalls + 1) .double .sum 0,
    .reduce (sizes.build.maxsizeCalls + 1) .double .sum 0, .reduce sizes.nEventsets .int .sum 0,
    .reduce (sizes.nEventsets * sizes.hpmCounters) .longLong .sum 0,
    .reduce (sizes.nEventsets * sizes.hpmCounters) .longLong .min 0,
    .reduce (sizes.nEventsets * sizes.hpmCounters) .longLong .max 0]

/-- What rank 0 has after the nine reductions of these contributions. -/
def reduced (totals : Fin n → Totals) (cpop : Fin n → Nat → Int) : Reduced where
  rbuf op i := op.over fun p => (totals p).rbuf i
  mpiTime i := MpiOp.sum.over fun p => (totals p).mpiTime i
  mpiCount i := MpiOp.sum.over fun p => (totals p).mpiCount i
  cpop i := MpiOp.sum.over fun p => cpop p i
  cbuf op i j := op.over fun p => (totals p).cbuf i j

/-- The same from what was contributed to each of the nine. -/
def gather (rbufSum rbufMin rbufMax mpiTime mpiCount cpop cbufSum cbufMin cbufMax :
    Fin n → ReportShare) : Reduced where
  rbuf
    | .sum => fun i => MpiOp.sum.over fun p => (rbufSum p).toDoubles i
    | .min => fun i => MpiOp.min.over fun p => (rbufMin p).toDoubles i
    | .max => fun i => MpiOp.max.over fun p => (rbufMax p).toDoubles i
  mpiTime i := MpiOp.sum.over fun p => (mpiTime p).toDoubles i
  mpiCount i := MpiOp.sum.over fun p => (mpiCount p).toDoubles i
  cpop i := MpiOp.sum.over fun p => (cpop p).toInts i
  cbuf
    | .sum => fun i j => MpiOp.sum.over fun p => (cbufSum p).toLongs i j
    | .min => fun i j => MpiOp.min.over fun p => (cbufMin p).toLongs i j
    | .max => fun i j => MpiOp.max.over fun p => (cbufMax p).toLongs i j

theorem gather_eq (x : Fin n → Totals) (cpop : Fin n → Nat → Int) :
    gather (fun p => .doubles (x p).rbuf) (fun p => .doubles (x p).rbuf)
        (fun p => .doubles (x p).rbuf) (fun p => .doubles (x p).mpiTime)
        (fun p => .doubles (x p).mpiCount) (fun p => .ints (cpop p)) (fun p => .longs (x p).cbuf)
        (fun p => .longs (x p).cbuf) (fun p => .longs (x p).cbuf) = reduced x cpop := by
  unfold gather reduced
  congr 1 <;> funext op <;> cases op <;> rfl

/-- "now reduce the above totals". -/
def reduceAll (x : Totals) (cpop : Nat → Int) (k : Reduced → ReportProg n) : ReportProg n :=
  .coll (.reduce maxsizeAggbuf .double .sum 0) (.doubles x.rbuf) fun rbufSum =>
  .coll (.reduce maxsizeAggbuf .double .min 0) (.doubles x.rbuf) fun rbufMin =>
  .coll (.reduce maxsizeAggbuf .double .max 0) (.doubles x.rbuf) fun rbufMax =>
  .coll (.reduce (sizes.build.maxsizeCalls + 1) .double .sum 0) (.doubles x.mpiTime) fun mpiTime =>
  .coll (.reduce (sizes.build.maxsizeCalls + 1) .double .sum 0) (.doubles x.mpiCount)
    fun mpiCount =>
  .coll (.reduce sizes.nEventsets .int .sum 0) (.ints cpop) fun cpop =>
  .coll (.reduce (sizes.nEventsets * sizes.hpmCounters) .longLong .sum 0) (.longs x.cbuf)
    fun cbufSum =>
  .coll (.reduce (sizes.nEventsets * sizes.hpmCounters) .longLong .min 0) (.longs x.cbuf)
    fun cbufMin =>
  .coll (.reduce (sizes.nEventsets * sizes.hpmCounters) .longLong .max 0) (.longs x.cbuf)
    fun cbufMax =>
  k (gather rbufSum rbufMin rbufMax mpiTime mpiCount cpop cbufSum cbufMin cbufMax)

/-- `if(!task.mpi_rank) ipm_report_internal(…)`: only rank 0 has the reduced values. -/
def printLine (p : Fin n) (line : ReportLine) : List ReportLine := if p.val = 0 then [line] else []

/-- The loop over the regions, with the totals of the last round. -/
def reportRounds (p : Fin n) (t : ReportTask) : Nat → Nat → Totals → List ReportLine → ReportProg n
  | 0, _, _, lines => .done (.printed lines)
  | left + 1, ireg, last, lines =>
      let label := t.state.region.label (t.preg ireg)
      -- `sprintf(egregious_mistake,"%s",…)` needs room for the terminating zero
      if maxsizeLabel ≤ label.length then .done .overrun
      else
        .coll (.bcast maxsizeLabel .char 0) (.label label) fun all =>
          let egregiousMistake := (all (Fin.ofNat n 0)).toLabel
          let jreg := if p.val = 0 then some (t.preg ireg) else t.matchRegion egregiousMistake
          let x := t.roundTotals sizes jreg last
          reduceAll sizes x t.cpop fun got =>
            reportRounds p t left (ireg + 1) x (lines ++ printLine p ⟨egregiousMistake, got⟩)

/-- `ipm_report`, with the flag REPORT_NONE. -/
def ipmReport (reportNone : Bool) (p : Fin n) (t : ReportTask) : ReportProg n :=
  if reportNone then .done (.printed [])
  else if t.appInterrupted then .done (.printed [])
  else
    reduceAll sizes (t.jobTotals sizes) t.cpop fun got =>
      if 1 < t.state.region.nregion then
        reportRounds sizes p t t.state.region.nregion 0 (t.jobTotals sizes)
          (printLine p ⟨['*'], got⟩)
      else .done (.printed (printLine p ⟨['*'], got⟩))

/-! ## The collectives of a task -/

/-- The collectives of one round. -/
def roundOps : List ReportOp := .bcast maxsizeLabel .char 0 :: reduceOps sizes

/-- The rounds a task goes through. -/
def ReportTask.rounds (t : ReportTask) : Nat :=
  if 1 < t.state.region.nregion then t.state.region.nregion else 0

/-- The collectives of a task. -/
def reportOps (reportNone : Bool) (t : ReportTask) : List ReportOp :=
  if reportNone || t.appInterrupted then []
  else reduceOps sizes ++ (List.replicate t.rounds (roundOps sizes)).flatten

theorem follows_reduceAll {x : Totals} {cpop : Nat → Int} {k : Reduced → ReportProg n}
    {ops : List ReportOp} (follows : ∀ got, Follows ops (k got)) :
    Follows (reduceOps sizes ++ ops) (reduceAll sizes x cpop k) := by
  iterate 9 refine ⟨_, _, rfl, fun all => ?_⟩
  exact follows _

theorem course_reduceAll {x : Totals} {cpop : Nat → Int} {k : Reduced → ReportProg n}
    {ops : List ReportOp} {e : ReportEnd} (course : Course ops (reduceAll sizes x cpop k) e) :
    ∃ got rest, ops = reduceOps sizes ++ rest ∧ Course rest (k got) e := by
  unfold reduceAll at course
  iterate 9
    obtain ⟨_, _, rfl, next⟩ := course.of_coll
    clear course
    rename' next => course
  exact ⟨_, _, rfl, course⟩

/-- The labels of the rounds from `ireg` on fit the buffer. -/
def ReportTask.RoundsFit (t : ReportTask) (ireg left : Nat) : Prop :=
  ∀ r, r < left → (t.state.region.label (t.preg (ireg + r))).length < maxsizeLabel

theorem ReportTask.roundsFit_succ {t : ReportTask} {ireg left : Nat} :
    t.RoundsFit ireg (left + 1) ↔
      (t.state.region.label (t.preg ireg)).length < maxsizeLabel ∧ t.RoundsFit (ireg + 1) left := by
  unfold RoundsFit
  rw [Nat.forall_lt_succ_left']
  simp only [Nat.add_zero, Nat.add_comm, Nat.add_left_comm]

theorem follows_reportRounds (p : Fin n) {t : ReportTask} {left ireg : Nat}
    (fits : t.RoundsFit ireg left) (last : Totals) (lines : List ReportLine) :
    Follows (List.replicate left (roundOps sizes)).flatten
      (reportRounds sizes p t left ireg last lines) := by
  induction left generalizing ireg last lines with
  | zero => exact ⟨_, rfl⟩
  | succ left ih =>
      obtain ⟨short, more⟩ := ReportTask.roundsFit_succ.mp fits
      rw [List.replicate_succ, List.flatten_cons, roundOps, List.cons_append, reportRounds,
        if_neg (Nat.not_le.mpr short)]
      refine ⟨_, _, rfl, fun all => follows_reduceAll sizes fun got => ?_⟩
      exact ih more _ _

/-- A task goes through its rounds, or comes to a label that does not fit. -/
theorem course_reportRounds {p : Fin n} {t : ReportTask} {left ireg : Nat} {last : Totals}
    {lines : List ReportLine} {ops : List ReportOp} {e : ReportEnd}
    (course : Course ops (reportRounds sizes p t left ireg last lines) e) :
    (∃ all, e = .printed all) ∧ ops = (List.replicate left (roundOps sizes)).flatten ∧
        t.RoundsFit ireg left ∨
      e = .overrun ∧ ¬t.RoundsFit ireg left := by
  induction left generalizing ireg last lines ops with
  | zero =>
      cases course
      exact Or.inl ⟨⟨lines, rfl⟩, rfl, nofun⟩
  | succ left ih =>
      rw [reportRounds] at course
      rw [ReportTask.roundsFit_succ]
      split at course
      · rename_i long
        cases course
        exact Or.inr ⟨rfl, fun fits => absurd fits.1 (Nat.not_lt.mpr long)⟩
      · rename_i short
        cases course with
        | coll all course =>
            obtain ⟨got, rest, rfl, after⟩ := course_reduceAll sizes course
            rcases ih after with ⟨printed, rfl, fits⟩ | ⟨overrun, fault⟩
            · exact Or.inl ⟨printed, rfl, Nat.not_le.mp short, fits⟩
            · exact Or.inr ⟨overrun, fun fits => fault fits.2⟩

/-- The labels a task prints to the buffer fit it. -/
def ReportTask.LabelsFit (t : ReportTask) : Prop :=
  t.appInterrupted = true ∨ t.RoundsFit 0 t.rounds

theorem ReportTask.LabelsFit.of_short {t : ReportTask}
    (short : ∀ i : Nat, (t.state.region.label i).length < maxsizeLabel) : t.LabelsFit :=
  Or.inr fun r _ => short (t.preg (0 + r))

/-- The collectives of a task depend on the number of its regions and nothing else, if its
labels fit. -/
theorem ipmReport_follows {reportNone : Bool} (p : Fin n) {t : ReportTask}
    (fits : reportNone = true ∨ t.LabelsFit) :
    Follows (reportOps sizes reportNone t) (ipmReport sizes reportNone p t) := by
  unfold reportOps ipmReport
  cases reportNone with
  | true => exact ⟨_, rfl⟩
  | false =>
      cases interrupted : t.appInterrupted with
      | true => exact ⟨_, rfl⟩
      | false =>
          have fits := (fits.resolve_left Bool.false_ne_true).resolve_left
            (Bool.eq_false_iff.mp interrupted)
          simp only [Bool.or_self, Bool.false_eq_true, if_false]
          refine follows_reduceAll sizes fun got => ?_
          unfold ReportTask.rounds at fits ⊢
          split
          · rename_i many
            rw [if_pos many] at fits
            exact follows_reportRounds sizes p fits _ _
          · exact ⟨_, rfl⟩

/-- The collectives of a task that comes to the end of the report, and when it does
not. -/
theorem course_ipmReport {reportNone : Bool} {p : Fin n} {t : ReportTask} {ops : List ReportOp}
    {e : ReportEnd} (course : Course ops (ipmReport sizes reportNone p t) e) :
    (∃ lines, e = .printed lines) ∧ ops = reportOps sizes reportNone t ∧
        (reportNone = true ∨ t.LabelsFit) ∨
      e = .overrun ∧ ¬(reportNone = true ∨ t.LabelsFit) := by
  unfold ipmReport at course
  cases reportNone with
  | true =>
      cases course
      exact Or.inl ⟨⟨[], rfl⟩, rfl, Or.inl rfl⟩
  | false =>
      unfold ReportTask.LabelsFit reportOps
      cases interrupted : t.appInterrupted with
      | true =>
          rw [interrupted] at course
          cases course
          exact Or.inl ⟨⟨[], rfl⟩, rfl, Or.inr (Or.inl rfl)⟩
      | false =>
          rw [interrupted] at course
          simp only [Bool.or_self, Bool.false_eq_true, if_false, false_or] at course ⊢
          obtain ⟨got, rest, rfl, after⟩ := course_reduceAll sizes course
          unfold ReportTask.rounds
          split at after
          · rename_i many
            rw [if_pos many]
            rcases course_reportRounds sizes after with ⟨printed, rfl, fits⟩ | overrun
            · exact Or.inl ⟨printed, rfl, fits⟩
            · exact Or.inr overrun
          · rename_i few
            rw [if_neg few]
            cases after
            exact Or.inl ⟨⟨_, rfl⟩, rfl, nofun⟩

/-- What decides the collectives of a task: no report, or how many rounds. -/
def ReportTask.schedule (t : ReportTask) : Option Nat :=
  if t.appInterrupted then none else some t.rounds

/-- The collectives are counted by the schedule. -/
theorem length_reportOps (t : ReportTask) :
    (reportOps sizes false t).length = t.schedule.elim 0 fun rounds => 9 + rounds * 10 := by
  unfold reportOps ReportTask.schedule
  cases t.appInterrupted with
  | true => rfl
  | false =>
      simp only [Bool.or_self, Bool.false_eq_true, if_false, Option.elim_some, List.length_append,
        List.length_flatten, List.map_replicate, List.sum_replicate, smul_eq_mul]
      rfl

theorem reportOps_eq_iff {t u : ReportTask} :
    reportOps sizes false t = reportOps sizes false u ↔ t.schedule = u.schedule := by
  constructor
  · intro same
    have lengths := congrArg List.length same
    rw [length_reportOps, length_reportOps] at lengths
    cases left : t.schedule with
    | none =>
        cases right : u.schedule with
        | none => rfl
        | some r =>
            rw [left, right, Option.elim_none, Option.elim_some] at lengths
            omega
    | some r =>
        cases right : u.schedule with
        | none =>
            rw [left, right, Option.elim_none, Option.elim_some] at lengths
            omega
        | some r' =>
            rw [left, right, Option.elim_some, Option.elim_some] at lengths
            congr 1
            omega
  · intro same
    have flags : t.appInterrupted = u.appInterrupted := by
      unfold ReportTask.schedule at same
      cases left : t.appInterrupted <;> cases right : u.appInterrupted <;> simp_all
    unfold reportOps
    rw [flags]
    cases interrupted : u.appInterrupted with
    | true => rfl
    | false =>
        rw [ReportTask.schedule, ReportTask.schedule, flags, interrupted] at same
        rw [Option.some.inj same]

/-! ## All tasks -/

/-- All tasks come to the report. -/
def reportNet (reportNone : Bool) (task : Fin n → ReportTask) :
    Net (Fin n) ReportOp ReportShare Unit Unit Unit ReportEnd :=
  quiet (fun p => ipmReport sizes reportNone p (task p)) ()

/-- The steps of the report: there is nothing but the collectives. -/
abbrev ReportStep : Net (Fin n) ReportOp ReportShare Unit Unit Unit ReportEnd →
    Net (Fin n) ReportOp ReportShare Unit Unit Unit ReportEnd → Prop :=
  Step (fun _ _ w => w) fun _ _ w => w

/-- The tasks come to the end of the report exactly when their collectives are the same and
their labels fit. -/
theorem reportNet_endsIn_iff {reportNone : Bool} {task : Fin n → ReportTask} :
    (∃ z, EndsIn ReportStep (reportNet sizes reportNone task) z ∧
        ∀ p, ∃ lines, z.prog p = .done (.printed lines)) ↔
      (∀ p q, reportOps sizes reportNone (task p) = reportOps sizes reportNone (task q)) ∧
        ∀ p, reportNone = true ∨ (task p).LabelsFit := by
  have : Nonempty (Fin n) := ⟨Fin.ofNat n 0⟩
  constructor
  · rintro ⟨z, ⟨_, m, all⟩, printed⟩
    choose lines done using printed
    obtain ⟨ops, courses⟩ := common_course (all 0 _ rfl).2 done
    have each : ∀ p, ops = reportOps sizes reportNone (task p) ∧
        (reportNone = true ∨ (task p).LabelsFit) := by
      intro p
      rcases course_ipmReport sizes (courses p) with ⟨-, same, fits⟩ | ⟨overrun, -⟩
      · exact ⟨same, fits⟩
      · cases overrun
    exact ⟨fun p q => (each p).1.symm.trans (each q).1, fun p => (each p).2⟩
  · rintro ⟨same, fits⟩
    have ends : ∃ z, EndsIn ReportStep (reportNet sizes reportNone task) z ∧
        ∀ p, ∃ e, z.prog p = .done e :=
      (endsIn_done_iff (fun _ _ _ _ _ _ => rfl)
        fun p => ipmReport_follows sizes p (fits p)).mpr same
    obtain ⟨z, ends, done⟩ := ends
    refine ⟨z, ends, ?_⟩
    choose e at_ using done
    obtain ⟨_, m, all⟩ := ends
    obtain ⟨ops, courses⟩ := common_course (all 0 _ rfl).2 at_
    intro p
    rcases course_ipmReport sizes (courses p) with ⟨⟨lines, printed⟩, -⟩ | ⟨-, fault⟩
    · exact ⟨lines, (at_ p).trans (congrArg _ printed)⟩
    · exact absurd (fits p) fault

end

/-! ## A task that enters one region more -/

/-- A task with these regions, of one second each, and an empty table. -/
def plainReportTask (labels : List Label) : ReportTask where
  state := .start { ipmInit .plain 0 with
    nregion := labels.length
    label := fun i => labels.getD i.toNat []
    wtime := fun i => if 0 ≤ i ∧ i < labels.length then 1 else 0 } 0
  flops := -1
  bytes := 0
  calcFlops := fun _ => -1
  appInterrupted := false

def smallSizes : ReportSizes := ⟨.five, 1, 1⟩

/-- Rank 0 enters no region of its own, rank 1 enters one. -/
def unevenTasks (p : Fin 2) : ReportTask :=
  plainReportTask (if p.val = 0 then [noregion] else [noregion, ['a']])

theorem plainReportTask_short {labels : List Label}
    (short : ∀ l ∈ labels, l.length < maxsizeLabel) (i : Nat) :
    ((plainReportTask labels).state.region.label i).length < maxsizeLabel := by
  change (labels.getD i []).length < maxsizeLabel
  rcases Nat.lt_or_ge i labels.length with inside | outside
  · rw [List.getD_eq_getElem _ _ inside]
    exact short _ (List.getElem_mem inside)
  · rw [List.getD_eq_default _ _ outside]
    decide

/-- Three tasks with two regions each, the second of a label of its own. -/
def evenTasks (p : Fin 3) : ReportTask := plainReportTask [noregion, List.replicate (20 - p) 'a']

end Ipm
