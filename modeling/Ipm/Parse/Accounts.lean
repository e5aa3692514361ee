import Ipm.Log.Events
import Ipm.Parse.Text

/-!
# From the calls of a job to its statistics

The tasks of a job run their applications, each closes and prints its log, and `ipm_parse`
reads the text of all of them and aggregates what it finds.

* `FinishedTask`: a task that has come to `ipm_log_write`, and `FinishedTask.log` what it prints.
* `lookup_values`: the table of a region has the calls of its task in it.
* `jobFunc_accounts`: the entry of a call in a region accounts for its MPI calls in all tasks.
* `jobHents_account`: so do the totals of the hash entries.
-/

namespace Ipm

open Stdio Scan Tallies Scientific

/-! ## A task that is done -/

/-- A label that is printed and read as it is. -/
structure Readable (label : Label) : Prop where
  legible : Legible label
  room : label.length < maxsizeLabel
  plain : '"' ∉ label ∧ '<' ∉ label ∧ '>' ∉ label

/-- A task that has run an application from `MPI_Init` on and has closed its log. -/
structure FinishedTask (b : Build) (fuel : Nat) (env : CheckpointEnv) where
  rank : Nat
  settings : RegionSettings
  stamp : Rat
  enter : Reading
  leave : Reading
  region : RegionState
  steps : List AppStep
  o : Observed
  now : FinalReading
  state : TaskState
  started : ipmRegion (ipmInit settings stamp) ⟨1, noregion, enter, leave⟩ = .ok region
  ran : Runs.run (appStep b fuel env) (.start (.start region stamp)) steps = .ok o
  inBounds : ∀ e ∈ appEvents b fuel env (.start (.start region stamp)) steps,
    e.InBounds ∧ e.call ≤ b.maxsizeCalls
  closed : closeTask b o.task now = .ok state
  readable : ∀ label ∈ state.region.rows, Readable label

namespace FinishedTask

variable {b : Build} {fuel : Nat} {env : CheckpointEnv} (t : FinishedTask b fuel env)

/-- The MPI calls of the application. -/
def events : List MpiEvent := appEvents b fuel env (.start (.start t.region t.stamp)) t.steps

theorem accounted : Accounted b t.o t.events :=
  Accounted.of_run t.started t.ran fun e mem => (t.inBounds e mem).1

theorem regionsOk : RegionsOk t.state.region := by
  rcases t.accounted.closed t.closed with ⟨_, nregion, label⟩
  have regions := t.accounted.rooted.toRegionsOk
  refine ⟨nregion ▸ regions.nregion_le, ?_⟩
  rw [nregion, label]
  exact regions.distinct

theorem rows_length : t.state.region.rows.length = t.state.region.nregion := by
  rw [RegionState.rows, List.length_map, List.length_range]

theorem rows_getElem {i : Nat} (below : i < t.state.region.rows.length) :
    t.state.region.rows[i] = t.state.region.label i := by
  simp [RegionState.rows]

theorem rows_nodup : t.state.region.rows.Nodup := t.regionsOk.rows_nodup

/-- The summary of a call is that of its events. -/
theorem summaries {ireg icall : Nat} (below : ireg < t.state.region.nregion) (named : 1 ≤ icall)
    (call : icall ≤ b.maxsizeCalls) :
    t.state.table.callMcount ireg icall = (callEvents t.events ireg icall).length ∧
      t.state.table.callMtime ireg icall =
        ((callEvents t.events ireg icall).map MpiEvent.wall).sum := by
  have recorded := (t.accounted.closed t.closed).1
  have room := Nat.lt_of_lt_of_le below t.regionsOk.nregion_le
  rcases closeTask_summaries t.accounted.rooted t.closed room named call with ⟨count, time⟩
  rw [count, time]
  exact ⟨recorded.callCount ireg icall, recorded.callTime ireg icall⟩

/-- The region of a line is one of the task, its call one of the table, and its time not
negative. -/
theorem line_bounds {mpiSize : Int} {line : HentLine}
    (mem : line ∈ hentLines b mpiSize t.state.table) :
    line.region < t.state.region.nregion ∧ line.icall ≤ b.maxsizeCalls ∧ 0 ≤ line.tTot := by
  rcases t.accounted.closed t.closed with ⟨recorded, nregion, _⟩
  rcases recorded.share_of_line mem with ⟨share, some_, shared, time⟩
  rcases Multiset.exists_mem_of_ne_zero some_ with ⟨e, given⟩
  rcases shared e given with ⟨logged, region, call⟩
  have made := t.accounted.made e logged
  have bounds := t.inBounds e logged
  have nonneg := bounds.1.region_nonneg
  refine ⟨by omega, call ▸ bounds.2, ?_⟩
  rw [time]
  apply Multiset.sum_nonneg
  intro wall listed
  rcases Multiset.mem_map.mp listed with ⟨e', given', rfl⟩
  exact (t.inBounds e' (shared e' given').1).1.wall_nonneg

end FinishedTask

/-! ## Its log -/

theorem plainText_fmtExp (p : Nat) (x : Rat) : PlainText (fmtExp p x) := by
  intro c mem
  rcases mem_fmtExp mem with digit | sign
  · refine ⟨?_, ?_, ?_, ?_, ?_⟩ <;> (rintro rfl; exact absurd digit (by decide))
  · refine ⟨?_, ?_, ?_, ?_, ?_⟩ <;> (rintro rfl; exact absurd sign (by decide))

/-- The names `ipm_log_write` prints, and its settings. -/
structure LogNames where
  callLabel : Nat → Label
  hpmEname : Nat → Nat → Label
  hpmEorder : Nat → Nat → Nat
  maxsizeHpmcounters : Nat
  logFull : Bool
  mpiSize : Int

/-- A line of an entry as it is printed. -/
def HentLine.entry (names : LogNames) (line : HentLine) : HashEntry where
  key := line.key
  call := names.callLabel line.icall
  bytes := line.ibytes
  orank := line.orank
  region := line.region
  count := line.count
  times := (fmtExp 4 line.tTot, fmtExp 4 line.tMin, fmtExp 4 line.tMax)

namespace FinishedTask

variable {b : Build} {fuel : Nat} {env : CheckpointEnv} (t : FinishedTask b fuel env)
  (names : LogNames)

/-- The attributes of a region behind its label. -/
def regionAttrs (i : Nat) : List (Label × Label) :=
  [("nexits".toList, fmtInt (t.state.region.count i)),
    ("wtime".toList, fmtExp 4 (t.state.region.wtime i)),
    ("utime".toList, fmtExp 4 (t.state.region.utime i)),
    ("stime".toList, fmtExp 4 (t.state.region.stime i)),
    ("mtime".toList, fmtExp 4 (t.state.regionMtime i))]

theorem regionAttrs_not_mem (i : Nat) :
    '<' ∉ attrText (t.regionAttrs i) ∧ '>' ∉ attrText (t.regionAttrs i) ∧
      '\n' ∉ attrText (t.regionAttrs i) := by
  apply attrText_not_mem
  unfold regionAttrs
  simp only [List.forall_mem_cons, plainText_fmtInt, plainText_fmtExp, and_true]
  exact ⟨by decide, by decide, by decide, by decide, by decide, nofun⟩

def regionEntry (i : Fin t.state.region.nregion) : RegionEntry where
  label := t.state.region.label i
  attrs := attrText (t.regionAttrs i) ++ ">".toList
  counters := (List.range names.maxsizeHpmcounters).map fun k =>
    let eventset := t.state.region.hpmEventset
    let ii := names.hpmEorder eventset k
    (names.hpmEname eventset ii, t.state.region.hpmCount i eventset ii)
  funcs := (List.range (b.maxsizeCalls + 1)).map fun icall =>
    ⟨names.callLabel icall, t.state.table.callMcount i icall,
      fmtExp 4 (t.state.table.callMtime i icall)⟩
  plain := (t.readable _ (List.mem_map_of_mem (List.mem_range.mpr i.2))).plain
  closed := by
    have line : ∀ c ∈ attrText (t.regionAttrs i) ++ ">".toList, (c != '\n') = true := by
      intro c mem
      rw [bne_iff_ne]
      rintro rfl
      rcases List.mem_append.mp mem with attr | bracket
      · exact (t.regionAttrs_not_mem i).2.2 attr
      · exact absurd bracket (by decide)
    rw [List.takeWhile_eq_self_iff.mpr line]
    exact List.mem_append_right _ (by decide)

def regionEntries : List RegionEntry :=
  (List.finRange t.state.region.nregion).map (t.regionEntry names)

theorem regionEntries_label :
    (t.regionEntries names).map RegionEntry.label = t.state.region.rows := by
  unfold regionEntries RegionState.rows
  rw [List.map_map, ← List.map_coe_finRange_eq_range, List.map_map]
  rfl

theorem regionEntries_length : (t.regionEntries names).length = t.state.region.nregion := by
  rw [regionEntries, List.length_map, List.length_finRange]

/-- What `ipm_log_write` prints of the task. -/
def log : TaskLog where
  mpiRank := t.rank
  hpmCanceled := t.state.region.hpmCanceled
  logFull := names.logFull
  regions := t.regionEntries names
  hash := (hentLines b names.mpiSize t.state.table).map (HentLine.entry names)
  room := by
    rw [regionEntries_length]
    exact t.regionsOk.nregion_le
  short := by
    intro r mem
    have row : r.label ∈ t.state.region.rows := by
      rw [← t.regionEntries_label names]
      exact List.mem_map_of_mem mem
    exact (t.readable _ row).room.le
  distinct := by
    rw [regionEntries_label]
    exact t.rows_nodup
  known := by
    intro h mem
    rcases List.mem_map.mp mem with ⟨line, given, rfl⟩
    rw [regionEntries_length]
    exact (t.line_bounds given).1

end FinishedTask

/-- The names have no characters of the format. -/
structure PlainNames (names : LogNames) : Prop where
  call : ∀ icall, PlainText (names.callLabel icall)
  hpm : ∀ eventset ii, '\n' ∉ names.hpmEname eventset ii ∧ '<' ∉ names.hpmEname eventset ii

/-- Nor has what is printed beside the regions and the hash entries. -/
structure PlainRest (x : TextRest) : Prop where
  rest : ∀ s ∈ [x.cookie, x.stampInit, x.stampFinal, x.username, x.groupname, x.api], PlainText s
  gflop : ∀ r, PlainText (x.gflop r)
  apart : ∀ line ∈ x.before ++ x.after, Apart line

section Job

variable {b : Build} {fuel : Nat} {env : CheckpointEnv} {names : LogNames}

theorem plain_log (t : FinishedTask b fuel env) {x : TextRest} (plainNames : PlainNames names)
    (plainRest : PlainRest x) : PlainTask (t.log names) x where
  rest := plainRest.rest
  attrs := by
    intro r mem
    rcases List.mem_map.mp mem with ⟨i, _, rfl⟩
    change '<' ∉ attrText (t.regionAttrs i) ++ ">".toList
    rw [List.mem_append, not_or]
    exact ⟨(t.regionAttrs_not_mem i).1, by decide⟩
  gflop := fun r _ => plainRest.gflop r
  counters := by
    intro r mem c given
    rcases List.mem_map.mp mem with ⟨i, _, rfl⟩
    rcases List.mem_map.mp given with ⟨k, _, rfl⟩
    exact plainNames.hpm _ _
  funcs := by
    intro r mem f given
    rcases List.mem_map.mp mem with ⟨i, _, rfl⟩
    rcases List.mem_map.mp given with ⟨icall, _, rfl⟩
    have name := (plainNames.call icall).not_mem
    exact ⟨⟨name.2.2.2.2, name.2.1⟩, plainText_fmtExp 4 _⟩
  hash := by
    intro h mem
    rcases List.mem_map.mp mem with ⟨line, _, rfl⟩
    exact ⟨plainNames.call _, plainText_fmtExp 4 _, plainText_fmtExp 4 _, plainText_fmtExp 4 _⟩
  apart := plainRest.apart

/-! ## A job that is done -/

/-- The tasks of a job in the order of their records in the log. -/
structure FinishedJob (b : Build) (fuel : Nat) (env : CheckpointEnv) where
  tasks : List (FinishedTask b fuel env)
  ranks : (tasks.map FinishedTask.rank).Nodup

namespace FinishedJob

variable (job : FinishedJob b fuel env)

def log (names : LogNames) : JobLog where
  tasks := job.tasks.map fun t => t.log names
  ranks := by
    rw [List.map_map]
    exact job.ranks

/-- The text of the log. -/
def text (names : LogNames) (x : Nat → TextRest) : List Label :=
  (job.log names).tasks.flatMap fun t => t.text (x t.mpiRank)

/-- The MPI calls of a kind in a region of all tasks. -/
def calls (ireg icall : Nat) : List MpiEvent :=
  job.tasks.flatMap fun t => callEvents t.events ireg icall

end FinishedJob

theorem sum_map_flatMap {α β M : Type} [AddMonoid M] (f : β → M) (g : α → List β) (l : List α) :
    ((l.flatMap g).map f).sum = (l.map fun a => ((g a).map f).sum).sum := by
  induction l with
  | nil => rfl
  | cons a l ih =>
      rw [List.flatMap_cons, List.map_append, List.sum_append, ih, List.map_cons, List.sum_cons]

/-- What is printed of some MPI calls. -/
def callValue (events : List MpiEvent) : FuncValue :=
  ⟨events.length, (near 4 (events.map MpiEvent.wall).sum).toNNRat⟩

/-- What is printed by the ranks that have made some. -/
def printedValues (xs : List (Nat × List MpiEvent)) : List (Nat × FuncValue) :=
  xs.filterMap fun x => if x.2 = [] then none else some (x.1, callValue x.2)

/-- The MPI calls of a kind in a region by the ranks of the job. -/
def FinishedJob.callsByRank (job : FinishedJob b fuel env) (ireg icall : Nat) :
    List (Nat × List MpiEvent) :=
  job.tasks.map fun t => (t.rank, callEvents t.events ireg icall)

section Printed

variable {xs : List (Nat × List MpiEvent)}

theorem printedValues_cons (x : Nat × List MpiEvent) (xs : List (Nat × List MpiEvent)) :
    printedValues (x :: xs) =
      (if x.2 = [] then [] else [(x.1, callValue x.2)]) ++ printedValues xs := by
  unfold printedValues
  rw [List.filterMap_cons]
  split
  · rename_i skipped
    rw [if_pos]
    · rfl
    · by_contra called
      rw [if_neg called] at skipped
      cases skipped
  · rename_i v kept
    split at kept
    · cases kept
    · rename_i called
      cases kept
      rw [if_neg called]
      rfl

theorem printedValues_count (xs : List (Nat × List MpiEvent)) :
    ((printedValues xs).map fun x => x.2.count).sum = (xs.flatMap Prod.snd).length := by
  induction xs with
  | nil => rfl
  | cons x xs ih =>
      rw [printedValues_cons, List.map_append, List.sum_append, ih, List.flatMap_cons,
        List.length_append]
      split
      · rename_i uncalled
        rw [uncalled]
        rfl
      · rfl

/-- The printed times add up to those of the calls, as far as they are printed. -/
theorem printedValues_time (nonneg : ∀ x ∈ xs, ∀ e ∈ x.2, 0 ≤ e.wall) :
    ((((printedValues xs).map fun x => x.2.time).sum : NNRat) : Rat) =
      ((xs.map fun x => (x.2.map MpiEvent.wall).sum).map (near 4)).sum := by
  induction xs with
  | nil => rfl
  | cons x xs ih =>
      rw [List.forall_mem_cons] at nonneg
      have total : 0 ≤ (x.2.map MpiEvent.wall).sum := by
        apply List.sum_nonneg
        rw [List.forall_mem_map]
        exact nonneg.1
      rw [printedValues_cons, List.map_append, List.sum_append, NNRat.coe_add, ih nonneg.2,
        List.map_cons, List.map_cons, List.sum_cons]
      congr 1
      split
      · rename_i uncalled
        rw [uncalled]
        exact near_zero.symm
      · change ((((near 4 (x.2.map MpiEvent.wall).sum).toNNRat + 0 : NNRat)) : Rat) = _
        rw [add_zero, Rat.coe_toNNRat _ (near_nonneg total)]

end Printed

theorem numify_fmtExp (x : Rat) : numify (fmtExp 4 x) = near 4 x := by
  have read : scanDecimal (fmtExp 4 x ++ []) = some (near 4 x, []) :=
    scanDecimal_fmtExp (by decide) x nofun
  rw [List.append_nil] at read
  unfold numify
  rw [read]
  rfl

/-- The table of a region has the calls of its task in it. -/
theorem lookup_values (t : FinishedTask b fuel env) {i : Fin t.state.region.nregion} {icall : Nat}
    (named : 1 ≤ icall) (call : icall ≤ b.maxsizeCalls)
    (only : ∀ c ≤ b.maxsizeCalls, names.callLabel c = names.callLabel icall → c = icall) :
    (RegionValues.of ((t.log names).records (t.regionEntry names i))).funcs.lookup
        (names.callLabel icall) =
      if callEvents t.events i icall = [] then none
      else some (callValue (callEvents t.events i icall)) := by
  rcases t.summaries i.2 named call with ⟨count, time⟩
  have one : (((t.regionEntry names i).funcs.filter fun f => 0 < f.count).filter fun f =>
      f.name = names.callLabel icall) =
        if callEvents t.events i icall = [] then []
        else [⟨names.callLabel icall, t.state.table.callMcount i icall,
          fmtExp 4 (t.state.table.callMtime i icall)⟩] := by
    unfold FinishedTask.regionEntry
    dsimp only
    have distinct : ((List.range (b.maxsizeCalls + 1)).map id).Nodup := by
      rw [List.map_id]
      exact List.nodup_range
    rw [List.map_eq_flatMap, List.filter_flatMap, List.filter_flatMap,
      flatMap_of_key distinct (List.mem_range.mpr (Nat.lt_succ_of_le call))]
    · by_cases uncalled : callEvents t.events i icall = []
      · rw [if_pos uncalled, List.filter_cons_of_neg, List.filter_nil, List.filter_nil]
        rw [decide_eq_true_iff, count, uncalled]
        exact Nat.lt_irrefl 0
      · rw [if_neg uncalled, List.filter_cons_of_pos, List.filter_nil, List.filter_cons_of_pos]
        · rfl
        · exact decide_eq_true rfl
        · rw [decide_eq_true_iff, count]
          exact List.length_pos_iff.mpr uncalled
    · intro c mem other
      rw [List.filter_eq_nil_iff]
      intro f given
      rw [decide_eq_true_iff, List.mem_singleton.mp (List.mem_of_mem_filter given)]
      exact fun same => other (only c (Nat.le_of_lt_succ (List.mem_range.mp mem)) same)
  rw [lookup_func, named_records, one]
  split
  · rfl
  · rw [List.getLast?_singleton, Option.map_some, FuncEntry.value, numify_fmtExp, count, time]
    rfl

/-! ## What is read of it -/

/-- The tasks make the same regions in the same order. -/
def FinishedJob.SameRegions (job : FinishedJob b fuel env) (labels : List Label) : Prop :=
  ∀ t ∈ job.tasks, t.state.region.rows = labels

/-- No other call has the name of this one. -/
def LogNames.Only (names : LogNames) (b : Build) (icall : Nat) : Prop :=
  ∀ c ≤ b.maxsizeCalls, names.callLabel c = names.callLabel icall → c = icall

variable {job : FinishedJob b fuel env} {labels : List Label}

theorem FinishedJob.SameRegions.uniform (same : job.SameRegions labels)
    {t : FinishedTask b fuel env} (mem : t ∈ job.tasks) : Uniform (job.log names) labels where
  same := by
    intro u given
    rcases List.mem_map.mp given with ⟨t', mem', rfl⟩
    exact (t'.regionEntries_label names).trans (same t' mem')
  legible := by
    intro label given
    have readable := t.readable label (by rwa [same t mem])
    exact ⟨readable.legible, readable.room⟩

/-- The tables behind the text of a job. -/
theorem run_finishedText (dat : Label → Option DataClass) {x : Nat → TextRest} {v : Label}
    (version : Version v) (known : knownVersion v = true) (plainNames : PlainNames names)
    (plainRest : ∀ t ∈ job.tasks, PlainRest (x t.rank) ∧ (x t.rank).ipmVersion = v)
    (same : job.SameRegions labels) {t : FinishedTask b fuel env} (mem : t ∈ job.tasks) :
    ∃ s, Runs.run (TextState.parseText dat) textInit (job.text names x) = .ok s ∧
      s.state.tables = ((job.log names).tasks.flatMap TaskLog.filings).foldl (JobTables.file dat)
        ⟨∅, .empty⟩ := by
  have plain : ∀ u ∈ (job.log names).tasks,
      PlainTask u (x u.mpiRank) ∧ (x u.mpiRank).ipmVersion = v := by
    intro u given
    rcases List.mem_map.mp given with ⟨t', mem', rfl⟩
    rcases plainRest t' mem' with ⟨rest, versioned⟩
    exact ⟨plain_log t' plainNames rest, versioned⟩
  rcases run_jobText dat version known plain with ⟨s, ran, _, tables⟩
  rw [runFilings_job (same.uniform mem)] at tables
  exact ⟨s, ran, tables⟩

/-- The entry of a call in a region of a task that is read. -/
theorem lookup_finished (dat : Label → Option DataClass) (same : job.SameRegions labels)
    {ireg : Nat} (below : ireg < labels.length) {icall : Nat} (named : 1 ≤ icall)
    (call : icall ≤ b.maxsizeCalls) (only : names.Only b icall) {t : FinishedTask b fuel env}
    (mem : t ∈ job.tasks) :
    ((((job.log names).tasks.flatMap TaskLog.filings).foldl (JobTables.file dat)
      ⟨∅, .empty⟩).region (t.rank, labels[ireg])).bind (fun R =>
        R.funcs.lookup (names.callLabel icall)) =
      if callEvents t.events ireg icall = [] then none
      else some (callValue (callEvents t.events ireg icall)) := by
  have rows := same t mem
  have within : ireg < t.state.region.nregion := by
    rw [← t.rows_length, rows]
    exact below
  have label : labels[ireg] = (t.regionEntry names ⟨ireg, within⟩).label := by
    subst rows
    exact t.rows_getElem below
  have logged : t.log names ∈ (job.log names).tasks := List.mem_map_of_mem mem
  have read := region_of_job (t := t.log names) dat logged
    (List.mem_map_of_mem (List.mem_finRange ⟨ireg, within⟩))
  rw [label]
  refine (congrArg (fun R => Option.bind R _) read).trans ?_
  exact lookup_values t named call only

end Job

/-! ## Two tasks -/

/-- A call outside and a call inside a region. -/
def timedSteps (wall : Rat) : List AppStep :=
  [.mpi (sizeEvent 1 5 wall) (.at 12), .region ⟨1, ['a'], .at 13, .at 14⟩,
    .mpi (sizeEvent 1 7 wall) (.at 16), .region ⟨-1, ['a'], .at 30, .at 31⟩]

def timedEnd (wall : Rat) : Observed :=
  let start := Observed.start (.start startedRegion 0)
  match Runs.run (appStep .five 20 everyTen) start (timedSteps wall) with
  | .ok o => o
  | .error _ => .start (.start startedRegion 0)

def timedClosed (wall : Rat) : TaskState :=
  match closeTask .five (timedEnd wall).task finalReading with
  | .ok u => u
  | .error _ => (timedEnd wall).task

def timedLabels : List Label := [noregion, ['a']]

def timedOk (wall : Rat) : Bool :=
  Runs.okWith (Runs.run (appStep .five 20 everyTen) (.start (.start startedRegion 0))
    (timedSteps wall)) fun o => Runs.okWith (closeTask .five o.task finalReading) fun u =>
      decide (u.region.rows = timedLabels ∧
        ∀ e ∈ appEvents .five 20 everyTen (.start (.start startedRegion 0)) (timedSteps wall),
          e.InBounds ∧ e.call ≤ 2)

theorem timedOk_spec {wall : Rat} (ok : timedOk wall = true) :
    Runs.run (appStep .five 20 everyTen) (.start (.start startedRegion 0)) (timedSteps wall) =
        .ok (timedEnd wall) ∧
      closeTask .five (timedEnd wall).task finalReading = .ok (timedClosed wall) ∧
      (timedClosed wall).region.rows = timedLabels ∧
      ∀ e ∈ appEvents .five 20 everyTen (.start (.start startedRegion 0)) (timedSteps wall),
        e.InBounds ∧ e.call ≤ 2 := by
  rcases Runs.okWith_eq_true ok with ⟨o, ended, rest⟩
  rcases Runs.okWith_eq_true rest with ⟨u, closed, checked⟩
  have isEnd : timedEnd wall = o := by
    unfold timedEnd
    dsimp only
    rw [ended]
  have isClosed : timedClosed wall = u := by
    rw [timedClosed, isEnd, closed]
  rw [isClosed, isEnd]
  exact ⟨ended, closed, of_decide_eq_true checked⟩

def timedTask (rank : Nat) (wall : Rat) (ok : timedOk wall = true) :
    FinishedTask .five 20 everyTen where
  rank := rank
  settings := .plain
  stamp := 0
  enter := .at 1
  leave := .at 2
  region := startedRegion
  steps := timedSteps wall
  o := timedEnd wall
  now := finalReading
  state := timedClosed wall
  started := rfl
  ran := (timedOk_spec ok).1
  inBounds := (timedOk_spec ok).2.2.2
  closed := (timedOk_spec ok).2.1
  readable := by
    rw [(timedOk_spec ok).2.2.1]
    change ∀ label ∈ [_, _], Readable label
    rw [List.forall_mem_cons, List.forall_mem_singleton]
    have spaces : ∀ label ∈ timedLabels, ∀ c ∈ label, Scan.isSpace c = false := by
      have checked : (timedLabels.all fun label => label.all fun c => !Scan.isSpace c) = true := by
        decide
      intro label mem c given
      have each := List.all_eq_true.mp (List.all_eq_true.mp checked label mem) c given
      rwa [Bool.not_eq_true'] at each
    change ∀ label ∈ [_, _], _ at spaces
    rw [List.forall_mem_cons, List.forall_mem_singleton] at spaces
    exact ⟨⟨⟨by decide, spaces.1⟩, by decide, by decide⟩, ⟨by decide, spaces.2⟩, by decide,
      by decide⟩

def timedJob : FinishedJob .five 20 everyTen where
  tasks := [timedTask 0 (1 / 4) (by decide +kernel), timedTask 1 (1 / 3) (by decide +kernel)]
  ranks := by decide

def timedNames : LogNames where
  callLabel := fun icall => if icall = 1 then "MPI_Send".toList else "MPI_Recv".toList
  hpmEname := fun _ _ => "PAPI".toList
  hpmEorder := fun _ k => k
  maxsizeHpmcounters := 1
  logFull := true
  mpiSize := 2

theorem timedNames_plain : PlainNames timedNames := by
  refine ⟨fun icall => ?_, fun _ _ => ?_⟩
  · change PlainText (if icall = 1 then _ else _)
    split <;> decide
  · change '\n' ∉ "PAPI".toList ∧ '<' ∉ "PAPI".toList
    decide

theorem timedNames_only : timedNames.Only .five 1 := by
  unfold LogNames.Only
  decide

theorem smallRest_plain : PlainRest smallRest where
  rest := by decide
  gflop := by
    intro r
    change PlainText "0.0000e+00".toList
    decide
  apart := smallRest_apart

theorem timedJob_same : timedJob.SameRegions timedLabels := by
  change ∀ t ∈ [_, _], _
  rw [List.forall_mem_cons, List.forall_mem_singleton]
  have closed : ∀ {wall : Rat}, timedOk wall = true →
      (timedClosed wall).region.rows = timedLabels := fun ok => (timedOk_spec ok).2.2.1
  exact ⟨closed (by decide +kernel), closed (by decide +kernel)⟩

/-! ## The calls of a job -/

section Job

variable {b : Build} {fuel : Nat} {env : CheckpointEnv} {names : LogNames}
  {job : FinishedJob b fuel env} {labels : List Label}

/-- **`ipm_parse` accounts for every MPI call of a job.**  The tasks run any applications that make
the same regions in the same order, with whatever checkpoints and culls, and print their logs.
Then the entry of a call in a region, if no other call has its name, has the number of its calls in
all tasks, and their time but for the rounding of what is printed, with the extremes and the ranks
they are from, in whatever order the tasks are visited. -/
theorem jobFunc_accounts (dat : Label → Option DataClass) {x : Nat → TextRest} {v : Label}
    (version : Version v) (known : knownVersion v = true) (plainNames : PlainNames names)
    (plainRest : ∀ t ∈ job.tasks, PlainRest (x t.rank) ∧ (x t.rank).ipmVersion = v)
    (same : job.SameRegions labels) {ireg : Nat} (below : ireg < labels.length) {icall : Nat}
    (named : 1 ≤ icall) (call : icall ≤ b.maxsizeCalls) (only : names.Only b icall)
    {order : List Nat} (visited : order.Perm (job.tasks.map FinishedTask.rank))
    (called : job.calls ireg icall ≠ []) :
    ∃ s e, Runs.run (TextState.parseText dat) textInit (job.text names x) = .ok s ∧
      regionFunc (s.state.tables.visit order) labels[ireg] (names.callLabel icall) = some e ∧
      e.Of (printedValues (job.callsByRank ireg icall)) ∧
      e.count.sum = (job.calls ireg icall).length ∧
      |(e.time.sum : Rat) - ((job.calls ireg icall).map MpiEvent.wall).sum| ≤
        ((job.calls ireg icall).map MpiEvent.wall).sum / 20000 := by
  rcases List.exists_mem_of_ne_nil _ called with ⟨e₀, made⟩
  rcases List.mem_flatMap.mp made with ⟨t, mem, _⟩
  rcases run_finishedText dat version known plainNames plainRest same mem with ⟨s, ran, tables⟩
  have values : (funcValues (s.state.tables.visit order) labels[ireg]
      (names.callLabel icall)).Perm (printedValues (job.callsByRank ireg icall)) := by
    rw [funcValues_visit, tables]
    refine (visited.filterMap _).trans (List.Perm.of_eq ?_)
    unfold printedValues FinishedJob.callsByRank
    rw [List.filterMap_map, List.filterMap_map]
    refine List.filterMap_congr fun u given => ?_
    rw [Function.comp_apply, lookup_finished dat same below named call only given]
    dsimp only [Function.comp_apply]
    split <;> rfl
  have events : (job.callsByRank ireg icall).flatMap Prod.snd = job.calls ireg icall :=
    List.flatMap_map _ _ _
  have count := printedValues_count (job.callsByRank ireg icall)
  rw [events] at count
  have some_ : printedValues (job.callsByRank ireg icall) ≠ [] := by
    intro none_
    rw [none_] at count
    exact called (List.eq_nil_of_length_eq_zero count.symm)
  rcases regionFunc_right (ne_nil_of_perm values.symm some_) with ⟨e, entry, right⟩
  have right : e.Of (printedValues (job.callsByRank ireg icall)) :=
    ⟨right.count.perm (values.map _), right.time.perm (values.map _)⟩
  refine ⟨s, e, ran, entry, right, ?_, ?_⟩
  · rw [right.count.sum, List.map_map]
    exact count
  · have nonneg : ∀ y ∈ job.callsByRank ireg icall, ∀ e ∈ y.2, 0 ≤ e.wall := by
      intro y given e' listed
      rcases List.mem_map.mp given with ⟨u, _, rfl⟩
      exact (u.inBounds e' (List.mem_of_mem_filter listed)).1.wall_nonneg
    have total : ((job.callsByRank ireg icall).map fun y => (y.2.map MpiEvent.wall).sum).sum =
        ((job.calls ireg icall).map MpiEvent.wall).sum := by
      rw [← events]
      exact (sum_map_flatMap _ _ _).symm
    have walls : ∀ w ∈ (job.callsByRank ireg icall).map fun y => (y.2.map MpiEvent.wall).sum,
        0 ≤ w := by
      rw [List.forall_mem_map]
      intro y given
      apply List.sum_nonneg
      rw [List.forall_mem_map]
      exact nonneg y given
    have rounded := abs_sum_near_sub_le 4 walls
    rw [← printedValues_time nonneg, total] at rounded
    rw [right.time.sum, List.map_map]
    norm_num at rounded ⊢
    exact rounded

/-- The call of both tasks inside the region. -/
theorem jobFunc_accounts_timed :
    ∃ s e, Runs.run (TextState.parseText sendDat) textInit
        (timedJob.text timedNames fun _ => smallRest) = .ok s ∧
      regionFunc (s.state.tables.visit [1, 0]) timedLabels[1] (timedNames.callLabel 1) = some e ∧
      e.Of (printedValues (timedJob.callsByRank 1 1)) ∧
      e.count.sum = (timedJob.calls 1 1).length ∧
      |(e.time.sum : Rat) - ((timedJob.calls 1 1).map MpiEvent.wall).sum| ≤
        ((timedJob.calls 1 1).map MpiEvent.wall).sum / 20000 :=
  jobFunc_accounts sendDat smallRest_version.1 smallRest_version.2 timedNames_plain
    (fun _ _ => ⟨smallRest_plain, rfl⟩) timedJob_same (by decide) (by decide) (by decide)
    timedNames_only (by decide) (List.ne_nil_of_length_pos (by decide +kernel))

/-! ## What is read of the hash entries -/

/-- The region an MPI call is in, with its task. -/
def FinishedTask.placeOf (t : FinishedTask b fuel env) (e : MpiEvent) : Place :=
  (t.rank, t.state.region.label e.region.toNat)

/-- The MPI calls of a kind at some places. -/
def FinishedTask.callsAt (t : FinishedTask b fuel env) (P : Place → Prop) [DecidablePred P]
    (icall : Nat) : List MpiEvent :=
  t.events.filter fun e => P (t.placeOf e) ∧ e.call = icall

def FinishedJob.callsAt (job : FinishedJob b fuel env) (P : Place → Prop) [DecidablePred P]
    (icall : Nat) : List MpiEvent :=
  job.tasks.flatMap fun t => t.callsAt P icall

/-- A total accounts for some MPI calls, the time as far as it is printed. -/
structure CallTotal.Accounts (total : CallTotal) (events : List MpiEvent) : Prop where
  count : total.count = events.length
  time : |total.ttot - (events.map MpiEvent.wall).sum| ≤ (events.map MpiEvent.wall).sum / 20000

theorem CallTotal.Accounts.append {x y : CallTotal} {events events' : List MpiEvent}
    (first : x.Accounts events) (second : y.Accounts events') :
    CallTotal.Accounts ⟨x.ttot + y.ttot, x.count + y.count⟩ (events ++ events') where
  count := by
    rw [List.length_append, first.count, second.count]
  time := by
    rw [List.map_append, List.sum_append, add_sub_add_comm, add_div]
    exact (abs_add_le _ _).trans (add_le_add first.time second.time)

/-- The totals of a call account for its MPI calls in a job, by region and by task. -/
structure HentAccounts (job : FinishedJob b fuel env) (st : HentState) (name : Label)
    (icall : Nat) : Prop where
  whole : (st.J.call name).Accounts (job.callsAt (fun _ => True) icall)
  region : ∀ label, ((st.JR label).call name).Accounts
    (job.callsAt (fun place => place.2 = label) icall)
  task : ∀ rank, ((st.T rank).call name).Accounts
    (job.callsAt (fun place => place.1 = rank) icall)
  taskRegion : ∀ place, ((st.TR place).call name).Accounts
    (job.callsAt (fun place' => place' = place) icall)

/-- The hash entries of a task as they are read. -/
def FinishedTask.parsedHents (t : FinishedTask b fuel env) (names : LogNames) : List ParsedHent :=
  (t.log names).entries.map fun h => h.parsed (t.rank, (t.log names).labelAt h.region)

/-- A line of an entry as it is read. -/
def FinishedTask.parsedLine (t : FinishedTask b fuel env) (names : LogNames) (line : HentLine) :
    ParsedHent :=
  (line.entry names).parsed (t.rank, t.state.region.label line.region)

/-- They are the lines of the table. -/
theorem FinishedTask.parsedHents_eq (t : FinishedTask b fuel env) (full : names.logFull = true) :
    t.parsedHents names =
      (hentLines b names.mpiSize t.state.table).map (t.parsedLine names) := by
  have entries : (t.log names).entries =
      (hentLines b names.mpiSize t.state.table).map (HentLine.entry names) := if_pos full
  have label : ∀ line ∈ hentLines b names.mpiSize t.state.table,
      (t.log names).labelAt line.region = t.state.region.label line.region := by
    intro line mem
    have within := (t.line_bounds mem).1
    rw [← t.rows_length] at within
    have rows : (t.log names).regions.map RegionEntry.label = t.state.region.rows :=
      t.regionEntries_label names
    unfold TaskLog.labelAt
    rw [rows, List.getElem?_eq_getElem within, t.rows_getElem within]
    rfl
  unfold FinishedTask.parsedHents
  rw [entries, List.map_map]
  refine List.map_congr_left fun line mem => ?_
  change (line.entry names).parsed (t.rank, (t.log names).labelAt line.region) = _
  rw [label line mem]
  rfl

/-- Those of a call at some places. -/
theorem filter_parsedHents (t : FinishedTask b fuel env) (full : names.logFull = true)
    (P : Place → Prop) [DecidablePred P] {icall : Nat} (only : names.Only b icall) :
    (t.parsedHents names).filter (fun h => P (h.irank, h.ireg) ∧ h.icall = names.callLabel icall) =
      ((hentLines b names.mpiSize t.state.table).filter fun line =>
        P (t.rank, t.state.region.label line.region) ∧ line.icall = icall).map
          (t.parsedLine names) := by
  rw [t.parsedHents_eq full, List.filter_map]
  congr 1
  refine List.filter_congr fun line mem => ?_
  have name : names.callLabel line.icall = names.callLabel icall ↔ line.icall = icall :=
    ⟨only _ (t.line_bounds mem).2.1, fun same => by rw [same]⟩
  exact decide_eq_decide.mpr (and_congr_right' name)

/-- The total of some hash entries. -/
def totalOf (hs : List ParsedHent) : CallTotal :=
  ⟨(hs.map ParsedHent.ittot).sum, (hs.map ParsedHent.icount).sum⟩

/-- The hash entries of a task account for its MPI calls. -/
theorem parsedHents_accounts (t : FinishedTask b fuel env) (full : names.logFull = true)
    (P : Place → Prop) [DecidablePred P] {icall : Nat} (only : names.Only b icall) :
    (totalOf ((t.parsedHents names).filter fun h =>
      P (h.irank, h.ireg) ∧ h.icall = names.callLabel icall)).Accounts (t.callsAt P icall) := by
  have recorded := (t.accounted.closed t.closed).1
  rw [filter_parsedHents t full P only]
  generalize kept : (hentLines b names.mpiSize t.state.table).filter (fun line =>
    P (t.rank, t.state.region.label line.region) ∧ line.icall = icall) = lines
  have times : (lines.map (t.parsedLine names)).map ParsedHent.ittot =
      (lines.map HentLine.tTot).map (near 4) := by
    rw [List.map_map, List.map_map]
    exact List.map_congr_left fun line _ => numify_fmtExp line.tTot
  have walls : (lines.map HentLine.tTot).sum = ((t.callsAt P icall).map MpiEvent.wall).sum := by
    rw [← kept, hentLines_sum]
    exact recorded.entrySum_time fun x => P (t.rank, t.state.region.label x.1) ∧ x.2.1 = icall
  have nonneg : ∀ x ∈ lines.map HentLine.tTot, 0 ≤ x := by
    rw [List.forall_mem_map, ← kept]
    exact fun line mem => (t.line_bounds (List.mem_of_mem_filter mem)).2.2
  refine ⟨?_, ?_⟩
  · have counts : (totalOf (lines.map (t.parsedLine names))).count =
        (lines.map HentLine.count).sum := by
      change (List.map ParsedHent.icount _).sum = _
      rw [List.map_map]
      rfl
    rw [counts, ← kept, hentLines_sum]
    exact recorded.entrySum_count fun x => P (t.rank, t.state.region.label x.1) ∧ x.2.1 = icall
  · have rounded := abs_sum_near_sub_le 4 nonneg
    rw [walls] at rounded
    rw [totalOf, times]
    norm_num at rounded ⊢
    exact rounded

/-- The hash entries of a job as they are read. -/
def FinishedJob.parsedHents (job : FinishedJob b fuel env) (names : LogNames) : List ParsedHent :=
  job.tasks.flatMap fun t => t.parsedHents names

theorem accounts_of_total (full : names.logFull = true) (P : Place → Prop) [DecidablePred P]
    {icall : Nat} (only : names.Only b icall) {total : CallTotal}
    (right : TotalRight total ((job.parsedHents names).filter fun h => P (h.irank, h.ireg))
      (names.callLabel icall)) : total.Accounts (job.callsAt P icall) := by
  have both : ((job.parsedHents names).filter fun h => P (h.irank, h.ireg)).filter
      (fun h => h.icall = names.callLabel icall) = job.tasks.flatMap fun t =>
        (t.parsedHents names).filter fun h =>
          P (h.irank, h.ireg) ∧ h.icall = names.callLabel icall := by
    rw [List.filter_filter, FinishedJob.parsedHents, List.filter_flatMap]
    refine List.flatMap_congr fun t _ => List.filter_congr fun h _ => ?_
    rw [Bool.and_comm, Bool.decide_and]
  have all : total = totalOf (((job.parsedHents names).filter fun h => P (h.irank, h.ireg)).filter
      fun h => h.icall = names.callLabel icall) := by
    rw [totalOf, ← right.1, ← right.2]
  rw [all, both]
  unfold FinishedJob.callsAt
  induction job.tasks with
  | nil => exact ⟨rfl, by simp [totalOf]⟩
  | cons t ts ih =>
      have sums := (parsedHents_accounts t full P only).append ih
      rw [List.flatMap_cons, List.flatMap_cons, totalOf, List.map_append, List.map_append,
        List.sum_append, List.sum_append]
      exact sums

/-- What the text of a job makes of its hash entries. -/
theorem run_finishedHents (dat : Label → Option DataClass) {x : Nat → TextRest} {v : Label}
    (version : Version v) (known : knownVersion v = true) (plainNames : PlainNames names)
    (plainRest : ∀ t ∈ job.tasks, PlainRest (x t.rank) ∧ (x t.rank).ipmVersion = v)
    (same : job.SameRegions labels) (some_ : job.tasks ≠ []) :
    ∃ s, Runs.run (TextState.parseText dat) textInit (job.text names x) = .ok s ∧
      s.state.tables.hents = parseHents dat (job.parsedHents names) := by
  rcases List.exists_mem_of_ne_nil _ some_ with ⟨t, mem⟩
  rcases run_finishedText dat version known plainNames plainRest same mem with ⟨s, ran, tables⟩
  have filed : ((job.log names).tasks.flatMap TaskLog.filings).filterMap Filing.hent =
      job.parsedHents names := by
    unfold FinishedJob.log FinishedJob.parsedHents
    rw [List.filterMap_flatMap, List.flatMap_map]
    exact List.flatMap_congr fun u _ => hents_filings (u.log names)
  refine ⟨s, ran, ?_⟩
  rw [tables, hents_foldl, filed]
  rfl

/-- **The totals of the hash entries account for every MPI call of a job**, when the entries are
printed: those of the job, of a region, of a task and of a region of a task, in their counts and,
but for the rounding of what is printed, in their times. -/
theorem jobHents_account (dat : Label → Option DataClass) {x : Nat → TextRest} {v : Label}
    (version : Version v) (known : knownVersion v = true) (plainNames : PlainNames names)
    (plainRest : ∀ t ∈ job.tasks, PlainRest (x t.rank) ∧ (x t.rank).ipmVersion = v)
    (same : job.SameRegions labels) (full : names.logFull = true) (some_ : job.tasks ≠ []) :
    ∃ s, Runs.run (TextState.parseText dat) textInit (job.text names x) = .ok s ∧
      ∀ icall, names.Only b icall →
        HentAccounts job s.state.tables.hents (names.callLabel icall) icall := by
  rcases run_finishedHents dat version known plainNames plainRest same some_ with ⟨s, ran, hents⟩
  refine ⟨s, ran, fun icall only => ?_⟩
  rcases parse_call dat (job.parsedHents names) (names.callLabel icall) with ⟨J, JR, T, TR⟩
  rw [hents]
  refine ⟨?_, fun label => ?_, fun rank => ?_, fun place => ?_⟩
  · refine accounts_of_total full (fun _ => True) only ?_
    rwa [decide_true, List.filter_true]
  · exact accounts_of_total full (fun place => place.2 = label) only (JR label)
  · exact accounts_of_total full (fun place => place.1 = rank) only (T rank)
  · exact accounts_of_total full (fun place' => place' = place) only (TR place)

/-- The totals of both tasks. -/
theorem jobHents_account_timed :
    ∃ s, Runs.run (TextState.parseText sendDat) textInit
        (timedJob.text timedNames fun _ => smallRest) = .ok s ∧
      ∀ icall, timedNames.Only .five icall →
        HentAccounts timedJob s.state.tables.hents (timedNames.callLabel icall) icall :=
  jobHents_account sendDat smallRest_version.1 smallRest_version.2 timedNames_plain
    (fun _ _ => ⟨smallRest_plain, rfl⟩) timedJob_same rfl (List.cons_ne_nil _ _)

end Job

end Ipm
