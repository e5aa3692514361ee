import Ipm.Hash.Rules
import Ipm.Region.Accounting
import Ipm.Task

/-!
# Checkpoints

`ipm_mpi_checkpoint` (`src/checkpoints/ipm_checkpoints.c`), which every wrapper
calls before it builds the key of its event, and what it does to the regions.

The two-run property is about an application: a list of `ipm_region` calls and MPI
calls.  `Observed` is the task with a record of what the run attributes, the key of
each event and the region each interval between steps is credited to.

* `takeCheckpoint_region`: a checkpoint leaves region 0 current.
* `appStep_charged`: `region_wtime` is the sum of the intervals attributed to the region.
* `checkpoint_transparent_iff`: a run with checkpoints attributes like the run
  without them exactly when it takes them in region 0 only.
-/

namespace Ipm

/-! ## The hook -/

/-- `IPM_CHECKPOINT` and `CHKPT_INTERVAL`. -/
structure CheckpointEnv where
  ipmCheckpoint : Bool
  chkptInterval : Rat

/-- No checkpoints. -/
def CheckpointEnv.off : CheckpointEnv := ⟨false, 0⟩

/-- What one execution of the hook reads. -/
structure CheckpointReading where
  stamp : Rat
  enter : Reading
  leave : Reading
  exitEnter : Reading
  exitLeave : Reading
  sync : SyncReading

/-- How a step of the application stops the program. -/
inductive TaskStop
  | region (stop : RegionStop)
  | hash (stop : Stop)
  deriving DecidableEq, Repr

/-- `ipm_region` within a step of the application. -/
def taskRegion (t : RegionState) (c : RegionCall) : Except TaskStop RegionState :=
  (ipmRegion t c).mapError .region

/-- The exit of the current region of a `IPM_REGIONALIZED` task. -/
def leaveRegionalized (t : RegionState) (now : CheckpointReading) :
    Except TaskStop RegionState :=
  if t.regionalized then
    taskRegion t ⟨-1, t.label t.regionCurrent, now.exitEnter, now.exitLeave⟩
  else .ok t

/-- What a checkpoint does once it is due.  Each task writes a log of its own,
which leaves the task as it is. -/
def takeCheckpoint (b : Build) (t : TaskState) (now : CheckpointReading) :
    Except TaskStop TaskState := do
  let region ← taskRegion t.region ⟨1, noregion, now.enter, now.leave⟩
  let region ← leaveRegionalized region now
  .ok (ipmSync b { t with region := { region with regionCurrent := 0 } } now.sync)

/-- The hook's stamps. -/
def stampCheckpoint (t : TaskState) (stamp : Rat) : TaskState :=
  { t with stampFinal := stamp, stampFinalMpi := stamp }

/-- `prev_cp_stamp`, which starts at the start of the task. -/
def prevStamp (t : TaskState) : Rat := if t.prevCpStamp = 0 then t.stampInit else t.prevCpStamp

@[simp] theorem prevStamp_stampCheckpoint (t : TaskState) (stamp : Rat) :
    prevStamp (stampCheckpoint t stamp) = prevStamp t := rfl

/-- A checkpoint is due. -/
def takesCheckpoint (env : CheckpointEnv) (t : TaskState) (stamp : Rat) : Bool :=
  env.ipmCheckpoint && !(env.chkptInterval ≤ 0) && !(stamp - prevStamp t < env.chkptInterval)

/-- `ipm_mpi_checkpoint`, with its return value. -/
def ipmMpiCheckpoint (b : Build) (env : CheckpointEnv) (t : TaskState)
    (now : CheckpointReading) : Except TaskStop (TaskState × Int) :=
  if env.ipmCheckpoint = false then .ok (t, 0)
  else
    let t := stampCheckpoint t now.stamp
    if env.chkptInterval ≤ 0 then .ok (t, -1)
    else
      let t := { t with prevCpStamp := prevStamp t }
      if now.stamp - t.prevCpStamp < env.chkptInterval then .ok (t, 0)
      else do
        let t ← takeCheckpoint b { t with prevCpStamp := now.stamp } now
        .ok (t, 1)

/-- A wrapper from the hook on: the key is built in the region the hook leaves. -/
def mpiWrapper (b : Build) (fuel : Nat) (env : CheckpointEnv) (t : TaskState) (e : MpiEvent)
    (now : CheckpointReading) : Except TaskStop (TaskState × Int × Nat) := do
  let (t, ret) ← ipmMpiCheckpoint b env t now
  let e := { e with region := t.region.regionCurrent }
  let table ← (wrapperLog b fuel t.table e).mapError .hash
  .ok ({ t with table := table }, ret, e.key t.table.callMask)

/-! ## The application -/

/-- A step of the application. -/
inductive AppStep
  | region (c : RegionCall)
  | mpi (e : MpiEvent) (now : CheckpointReading)

/-- A task and what its run has attributed: the keys of the events, the region and the
seconds of each interval between steps, the intervals that wait for the next
`ipm_region`, and when the last step was over. -/
structure Observed where
  task : TaskState
  keys : List Nat
  credited : List (Int × Rat)
  waiting : List Rat
  last : Rat

/-- The current region. -/
def Observed.current (o : Observed) : Int := o.task.region.regionCurrent

/-- Nothing attributed yet. -/
def Observed.start (task : TaskState) : Observed := ⟨task, [], [], [], task.region.wtimeInit⟩

/-- The interval before a step has passed. -/
def Observed.elapse (o : Observed) (now : Reading) : Observed :=
  { o with waiting := o.waiting ++ [now.wall - o.last], last := now.wall }

/-- `ipm_region` credits the waiting intervals to the region it finds current, and is over
`now`. -/
def Observed.credit (o : Observed) (now : Reading) : Observed :=
  { o with
    credited := o.credited ++ o.waiting.map fun seconds => (o.current, seconds)
    waiting := []
    last := now.wall }

/-- Every interval so far with its region; those that wait are the current region's. -/
def Observed.attributed (o : Observed) : List (Int × Rat) :=
  o.credited ++ o.waiting.map fun seconds => (o.current, seconds)

/-- The seconds attributed to a region. -/
def Observed.seconds (o : Observed) (r : Nat) : Rat :=
  ((o.attributed.filter fun i => decide (i.1 = (r : Int))).map Prod.snd).sum

/-- `region_wtime` since the start, with what the next `ipm_region` is going to credit. -/
def Observed.charged (start o : Observed) (r : Nat) : Rat :=
  o.task.region.wtime r - start.task.region.wtime r +
    if o.current = r then o.last - o.task.region.wtimeInit else 0

/-- One step of the application; the time of an MPI call is when its hook is entered. -/
def appStep (b : Build) (fuel : Nat) (env : CheckpointEnv) (o : Observed) :
    AppStep → Except TaskStop Observed
  | .region c => do
      let region ← taskRegion o.task.region c
      .ok { (o.elapse c.enter).credit c.leave with task := { o.task with region := region } }
  | .mpi e now => do
      let (task, ret, key) ← mpiWrapper b fuel env o.task e now
      let seen := if ret = 1 then (o.elapse now.enter).credit now.leave else o.elapse now.enter
      .ok { seen with task := task, keys := o.keys ++ [key] }

/-! ## Where the hook leaves the regions -/

/-- `ipm_noregion` is region 0, and the labels are distinct. -/
structure Rooted (t : RegionState) : Prop extends RegionsOk t where
  nregion_pos : 0 < t.nregion
  root : sameLabel noregion (t.label 0) = true

theorem ipmRegion_rooted {t t' : RegionState} {c : RegionCall} (rooted : Rooted t)
    (h : ipmRegion t c = .ok t') : Rooted t' := by
  refine ⟨ipmRegion_regionsOk rooted.toRegionsOk h, ?_, ?_⟩
  · exact Nat.lt_of_lt_of_le rooted.nregion_pos (ipmRegion_nregion_le h)
  · rcases ipmRegion_regions h with ⟨-, label, -⟩ | ⟨-, label, -⟩
    · rw [label]
      exact rooted.root
    · have old := (t.addRegion_label c.tag).2 0 rooted.nregion_pos
      rw [label]
      exact old ▸ rooted.root

theorem firstCall_rooted {settings : RegionSettings} {stamp : Rat} {enter leave : Reading}
    {t : RegionState} (h : ipmRegion (ipmInit settings stamp) ⟨1, noregion, enter, leave⟩ = .ok t) :
    Rooted t ∧ t.regionCurrent = 0 := by
  have regions := ipmRegion_regionsOk (ipmInit_regionsOk settings stamp) h
  rcases ipmRegion_regions h with ⟨-, -, labelled⟩ | ⟨nregion, label, -⟩
  · obtain ⟨i, below, -⟩ := labelled rfl
    exact absurd below (Nat.not_lt_zero i)
  · have one : t.nregion = 1 := nregion
    refine ⟨⟨regions, by omega, ?_⟩, ?_⟩
    · rw [label]
      rfl
    · rcases ipmRegion_regionCurrent h with ⟨i, below, -, -, current⟩ | ⟨-, unknown⟩
      · omega
      · exact absurd (fun exiting => absurd exiting (show ¬ (1 : Int) = -1 by decide)) unknown

/-- What the choice of regions rests on. -/
structure SameRegions (t t' : RegionState) : Prop where
  regionCurrent : t.regionCurrent = t'.regionCurrent
  nregion : t.nregion = t'.nregion
  label : t.label = t'.label

/-- Entering `ipm_noregion` leads to region 0 from anywhere. -/
theorem enter_noregion {t t' : RegionState} {enter leave : Reading} (rooted : Rooted t)
    (h : ipmRegion t ⟨1, noregion, enter, leave⟩ = .ok t') :
    t'.regionCurrent = 0 ∧ t'.nregion = t.nregion ∧ t'.label = t.label ∧
      t'.regionalized = false := by
  have labelled : t.Labelled noregion := ⟨0, rooted.nregion_pos, rooted.root⟩
  have current : t'.regionCurrent = 0 := by
    obtain ⟨-, m, regionTag, found, rfl⟩ := ipmRegion_eq_ok h
    rcases RegionState.lookupRegion_cases found with ⟨i, rfl, below, same, rfl⟩ |
      ⟨-, -, unknown, -⟩ | ⟨-, -, unknown, -⟩
    · have zero : i = 0 := by
        by_contra positive
        have apart := rooted.distinct 0 i (Nat.pos_of_ne_zero positive) below
        have same : sameLabel noregion (t.label i) = true := same
        rw [Bool.eq_false_iff, Ne, sameLabel_iff] at apart
        exact apart ((sameLabel_iff.mp rooted.root).symm.trans (sameLabel_iff.mp same))
      subst zero
      change RegionState.nextRegion _ 1 0 = 0
      unfold RegionState.nextRegion
      split_ifs <;> rfl
    · exact absurd labelled unknown
    · exact absurd labelled unknown
  have regions : t'.nregion = t.nregion ∧ t'.label = t.label := by
    rcases ipmRegion_regions h with ⟨nregion, label, -⟩ | ⟨-, -, -, unknown, -⟩
    · exact ⟨nregion, label⟩
    · exact absurd labelled unknown
  refine ⟨current, regions.1, regions.2, ?_⟩
  rw [ipmRegion_regionalized h, current]
  rfl

/-- A checkpoint does to the regions what entering `ipm_noregion` does. -/
theorem takeCheckpoint_called {b : Build} {t t' : TaskState} {now : CheckpointReading}
    (rooted : Rooted t.region) (h : takeCheckpoint b t now = .ok t') :
    ipmRegion t.region ⟨1, noregion, now.enter, now.leave⟩ = .ok t'.region := by
  obtain ⟨region, entered, rest⟩ := Runs.bind_eq_ok h
  obtain ⟨left, exited, done⟩ := Runs.bind_eq_ok rest
  obtain ⟨current, -, -, flat⟩ := enter_noregion rooted (Runs.mapError_eq_ok entered)
  rw [leaveRegionalized, flat] at exited
  cases exited
  cases done
  rw [ipmSync_region, Runs.mapError_eq_ok entered, ← current]

/-- A checkpoint leaves region 0 current and no region made or renamed. -/
theorem takeCheckpoint_region {b : Build} {t t' : TaskState} {now : CheckpointReading}
    (rooted : Rooted t.region) (h : takeCheckpoint b t now = .ok t') :
    t'.region.regionCurrent = 0 ∧ t'.region.nregion = t.region.nregion ∧
      t'.region.label = t.region.label := by
  obtain ⟨current, nregion, label, -⟩ := enter_noregion rooted (takeCheckpoint_called rooted h)
  exact ⟨current, nregion, label⟩

/-- The hook either takes a checkpoint or leaves the regions and the table alone. -/
theorem ipmMpiCheckpoint_cases {b : Build} {env : CheckpointEnv} {t t' : TaskState}
    {now : CheckpointReading} {ret : Int} (h : ipmMpiCheckpoint b env t now = .ok (t', ret)) :
    (takesCheckpoint env t now.stamp = true ∧ ret = 1 ∧
      takeCheckpoint b
        { stampCheckpoint t now.stamp with prevCpStamp := now.stamp } now = .ok t') ∨
    (takesCheckpoint env t now.stamp = false ∧ ret ≠ 1 ∧ t'.region = t.region) := by
  unfold ipmMpiCheckpoint at h
  by_cases off : env.ipmCheckpoint = false
  · rw [if_pos off] at h
    cases h
    exact Or.inr ⟨by rw [takesCheckpoint, off]; rfl, by decide, rfl⟩
  rw [if_neg off] at h
  have on : env.ipmCheckpoint = true := by simpa using off
  dsimp only at h
  split at h
  · rename_i invalid
    cases h
    exact Or.inr ⟨by simp [takesCheckpoint, invalid], by decide, rfl⟩
  rename_i valid
  split at h
  · rename_i early
    cases h
    rw [prevStamp_stampCheckpoint] at early
    exact Or.inr ⟨by simp [takesCheckpoint, early], by decide, rfl⟩
  · rename_i due
    obtain ⟨u, taken, done⟩ := Runs.bind_eq_ok h
    cases done
    rw [prevStamp_stampCheckpoint] at due
    exact Or.inl ⟨by simp [takesCheckpoint, on, valid, due], rfl, taken⟩

/-! ## One step with and without the hook -/

theorem SameRegions.lookupRegion {t t' m m' : RegionState} {io regionTag regionTag' : Int}
    {tag : Label} (same : SameRegions t t')
    (found : t.lookupRegion io tag = .ok (m, regionTag))
    (found' : t'.lookupRegion io tag = .ok (m', regionTag')) :
    regionTag = regionTag' ∧ SameRegions m m' := by
  have find : t.findRegion tag = t'.findRegion tag := by
    simp only [RegionState.findRegion, RegionState.findUpTo, same.nregion, same.label]
  unfold RegionState.lookupRegion at found found'
  rw [find, same.nregion] at found
  by_cases unknown : t'.findRegion tag < 0 ∧ io = 1
  · rw [if_pos unknown] at found found'
    by_cases room : t'.nregion < maxsizeRegion
    · rw [if_pos room] at found found'
      cases found
      cases found'
      refine ⟨rfl, same.regionCurrent, congrArg (· + 1) same.nregion, ?_⟩
      simp only [RegionState.addRegion, same.nregion, same.label]
    · rw [if_neg room] at found
      cases found
  · rw [if_neg unknown] at found found'
    cases found
    cases found'
    exact ⟨rfl, same⟩

/-- `ipm_region` chooses the same region from the same regions. -/
theorem SameRegions.ipmRegion {t t' u u' : RegionState} {c : RegionCall}
    (same : SameRegions t t') (h : ipmRegion t c = .ok u) (h' : Ipm.ipmRegion t' c = .ok u') :
    SameRegions u u' := by
  obtain ⟨-, m, regionTag, found, rfl⟩ := ipmRegion_eq_ok h
  obtain ⟨-, m', regionTag', found', rfl⟩ := ipmRegion_eq_ok h'
  have captured : SameRegions (t.capture c.enter) (t'.capture c.enter) :=
    ⟨same.regionCurrent, same.nregion, same.label⟩
  obtain ⟨rfl, looked⟩ := captured.lookupRegion found found'
  have moved := fun v : RegionState => v.moveTo_regions c.io regionTag c.enter
  constructor
  · change m.nextRegion c.io regionTag = m'.nextRegion c.io regionTag
    simp only [RegionState.nextRegion, looked.regionCurrent]
  · exact (moved m).1.trans (looked.nregion.trans (moved m').1.symm)
  · exact (moved m).2.trans (looked.label.trans (moved m').2.symm)

/-- What a wrapper did to the regions, and the key it built. -/
theorem mpiWrapper_eq_ok {b : Build} {fuel : Nat} {env : CheckpointEnv} {t t' : TaskState}
    {e : MpiEvent} {now : CheckpointReading} {ret : Int} {key : Nat} (rooted : Rooted t.region)
    (h : mpiWrapper b fuel env t e now = .ok (t', ret, key)) :
    (ret = 1 ↔ takesCheckpoint env t now.stamp = true) ∧
      (if takesCheckpoint env t now.stamp = true then
        ipmRegion t.region ⟨1, noregion, now.enter, now.leave⟩ = .ok t'.region
      else t'.region = t.region) ∧
      ∃ callMask, key = ipmMpiKey callMask t'.region.regionCurrent e.call e.rank e.bytes := by
  obtain ⟨⟨v, ret'⟩, hooked, rest⟩ := Runs.bind_eq_ok h
  obtain ⟨table, -, done⟩ := Runs.bind_eq_ok rest
  cases done
  rcases ipmMpiCheckpoint_cases hooked with ⟨takes, rfl, taken⟩ | ⟨quiet, other, region⟩
  · refine ⟨⟨fun _ => takes, fun _ => rfl⟩, ?_, v.table.callMask, rfl⟩
    have entered := takeCheckpoint_called
      (t := { stampCheckpoint t now.stamp with prevCpStamp := now.stamp }) rooted taken
    rw [if_pos takes]
    exact entered
  · refine ⟨⟨fun one => absurd one other, fun takes => ?_⟩, ?_, v.table.callMask, rfl⟩
    · rw [quiet] at takes
      cases takes
    · rw [quiet, if_neg (by decide)]
      exact region

/-- A checkpoint taken at this step is taken in region 0. -/
def TakenInRoot (env : CheckpointEnv) (o : Observed) : AppStep → Prop
  | .region _ => True
  | .mpi _ now => takesCheckpoint env o.task now.stamp = true → o.current = 0

/-! ## What the intervals are attributed to -/

/-- When the interval before a step is over. -/
def AppStep.enter : AppStep → Reading
  | .region c => c.enter
  | .mpi _ now => now.enter

/-- After the interval before a step has passed it is the current region's. -/
theorem attributed_elapse (o : Observed) (now : Reading) :
    (o.elapse now).attributed = o.attributed ++ [(o.current, now.wall - o.last)] := by
  change o.credited ++ (o.waiting ++ [now.wall - o.last]).map _ = _
  rw [List.map_append, ← List.append_assoc]
  rfl

/-- Crediting what waits attributes nothing else, whatever region is current then. -/
theorem attributed_credit (o : Observed) (now : Reading) (task : TaskState) (keys : List Nat) :
    ({ o.credit now with task := task, keys := keys } : Observed).attributed = o.attributed :=
  List.append_nil _

/-- Each step attributes the interval before it to the region current there. -/
theorem appStep_attributed {b : Build} {fuel : Nat} {env : CheckpointEnv} {o o' : Observed}
    {a : AppStep} (rooted : Rooted o.task.region) (h : appStep b fuel env o a = .ok o') :
    o'.attributed = o.attributed ++ [(o.current, a.enter.wall - o.last)] := by
  cases a with
  | region c =>
      obtain ⟨region, -, done⟩ := Runs.bind_eq_ok h
      cases done
      rw [attributed_credit]
      exact attributed_elapse o c.enter
  | mpi e reading =>
      obtain ⟨⟨task, ret, key⟩, wrapped, done⟩ := Runs.bind_eq_ok h
      obtain ⟨taken, region, -⟩ := mpiWrapper_eq_ok rooted wrapped
      cases done
      by_cases one : ret = 1
      · simp only [if_pos one]
        rw [attributed_credit]
        exact attributed_elapse o reading.enter
      · rw [if_neg (fun takes => one (taken.mpr takes))] at region
        simp only [if_neg one]
        have same : ({ o.elapse reading.enter with task := task, keys := o.keys ++ [key] } :
            Observed).current = (o.elapse reading.enter).current :=
          congrArg RegionState.regionCurrent region
        unfold Observed.attributed
        rw [same]
        exact attributed_elapse o reading.enter

/-- One interval more for the current region. -/
theorem seconds_snoc {o o' : Observed} {seconds : Rat}
    (attributed : o'.attributed = o.attributed ++ [(o.current, seconds)]) (r : Nat) :
    o'.seconds r = o.seconds r + if o.current = r then seconds else 0 := by
  rw [Observed.seconds, attributed, List.filter_append, List.map_append, List.sum_append,
    List.filter_singleton]
  by_cases here : o.current = r
  · simp [here, Observed.seconds]
  · simp [here, Observed.seconds]

/-- `ipm_region` charges the current region up to its entry, and opens an interval at its
exit. -/
theorem charged_ipmRegion {start o o' : Observed} {c : RegionCall}
    (called : ipmRegion o.task.region c = .ok o'.task.region) (ended : o'.last = c.leave.wall)
    (r : Nat) :
    start.charged o' r =
      start.charged o r + if o.current = r then c.enter.wall - o.last else 0 := by
  obtain ⟨wtimeInit, wtime⟩ := ipmRegion_credit called
  have opened : o'.last - o'.task.region.wtimeInit = 0 := by
    rw [ended, wtimeInit, sub_self]
  have charged : o'.task.region.wtime r = o.task.region.wtime r +
      if o.current = r then c.enter.wall - o.task.region.wtimeInit else 0 := by
    by_cases nonneg : 0 ≤ o.task.region.regionCurrent
    · rw [if_pos nonneg] at wtime
      rw [wtime.1, Function.update_apply]
      unfold Observed.current
      by_cases here : o.task.region.regionCurrent = r
      · rw [if_pos here.symm, if_pos here, here]
      · rw [if_neg (fun same => here same.symm), if_neg here, add_zero]
    · rw [if_neg nonneg] at wtime
      have away : o.current ≠ r := by
        intro here
        have current : o.task.region.regionCurrent = r := here
        omega
      rw [wtime.1, if_neg away, add_zero]
  unfold Observed.charged
  rw [opened, ite_self, charged]
  split_ifs <;> ring

/-- A step charges the region it finds current with the interval before it. -/
theorem appStep_charged {b : Build} {fuel : Nat} {env : CheckpointEnv} {start o o' : Observed}
    {a : AppStep} (rooted : Rooted o.task.region) (h : appStep b fuel env o a = .ok o')
    (r : Nat) :
    start.charged o' r =
      start.charged o r + if o.current = r then a.enter.wall - o.last else 0 := by
  cases a with
  | region c =>
      obtain ⟨region, called, done⟩ := Runs.bind_eq_ok h
      cases done
      have moved : ipmRegion o.task.region c = .ok region := Runs.mapError_eq_ok called
      exact charged_ipmRegion moved rfl r
  | mpi e now =>
      obtain ⟨⟨task, ret, key⟩, wrapped, done⟩ := Runs.bind_eq_ok h
      obtain ⟨taken, region, -⟩ := mpiWrapper_eq_ok rooted wrapped
      cases done
      by_cases one : ret = 1
      · rw [if_pos (taken.mp one)] at region
        simp only [if_pos one]
        exact charged_ipmRegion (c := ⟨1, noregion, now.enter, now.leave⟩) region rfl r
      · rw [if_neg (fun takes => one (taken.mpr takes))] at region
        simp only [if_neg one]
        unfold Observed.charged Observed.current Observed.elapse
        rw [region]
        change _ + (if o.task.region.regionCurrent = r then
          now.enter.wall - o.task.region.wtimeInit else 0) = _ + _ +
            if o.task.region.regionCurrent = r then now.enter.wall - o.last else 0
        split_ifs <;> ring

/-- `region_wtime` accounts for the intervals as they are attributed. -/
def Charges (start o : Observed) : Prop := ∀ r : Nat, start.charged o r = o.seconds r

theorem Charges.step {b : Build} {fuel : Nat} {env : CheckpointEnv} {start o o' : Observed}
    {a : AppStep} (charges : Charges start o) (rooted : Rooted o.task.region)
    (h : appStep b fuel env o a = .ok o') : Charges start o' := by
  intro r
  rw [appStep_charged rooted h, seconds_snoc (appStep_attributed rooted h), charges r]

theorem charges_start (task : TaskState) : Charges (.start task) (.start task) := by
  intro r
  unfold Observed.charged Observed.start
  rw [sub_self, sub_self, ite_self, add_zero]
  rfl

/-- The two runs attribute alike: the same region is current, the events have their keys in the
same regions, and the intervals are the same regions' in `region_wtime`. -/
structure SameAttribution (start o o' : Observed) : Prop where
  current : o.current = o'.current
  keyRegions : o.keys.map keyRegion = o'.keys.map keyRegion
  intervals : o.attributed.map Prod.fst = o'.attributed.map Prod.fst
  charges : Charges start o
  charges' : Charges start o'

/-- The relation between the run with checkpoints and the run without. -/
structure Alike (start : Observed) (p : Observed × Observed) : Prop
    extends SameAttribution start p.1 p.2 where
  regions : SameRegions p.1.task.region p.2.task.region
  rooted : Rooted p.1.task.region
  rooted' : Rooted p.2.task.region

theorem takesCheckpoint_off (t : TaskState) (stamp : Rat) :
    takesCheckpoint .off t stamp = false := rfl

section Step

variable {b : Build} {fuel : Nat} {env : CheckpointEnv} {start : Observed}
  {p q : Observed × Observed} {a : AppStep}

theorem Alike.step (alike : Alike start p) (root : TakenInRoot env p.1 a)
    (h : Runs.both (appStep b fuel env) (appStep b fuel .off) p a = .ok q) :
    Alike start q := by
  obtain ⟨stepped, stepped'⟩ := Runs.both_eq_ok.mp h
  have intervals : q.1.attributed.map Prod.fst = q.2.attributed.map Prod.fst := by
    rw [appStep_attributed alike.rooted stepped, appStep_attributed alike.rooted' stepped',
      List.map_append, List.map_append, alike.intervals, alike.current]
    rfl
  have charges := alike.charges.step alike.rooted stepped
  have charges' := alike.charges'.step alike.rooted' stepped'
  cases a with
  | region c =>
      obtain ⟨region, called, done⟩ := Runs.bind_eq_ok stepped
      obtain ⟨region', called', done'⟩ := Runs.bind_eq_ok stepped'
      have same := alike.regions.ipmRegion (Runs.mapError_eq_ok called)
        (Runs.mapError_eq_ok called')
      have rooted := ipmRegion_rooted alike.rooted (Runs.mapError_eq_ok called)
      have rooted' := ipmRegion_rooted alike.rooted' (Runs.mapError_eq_ok called')
      obtain ⟨q₁, q₂⟩ := q
      cases done
      cases done'
      exact ⟨⟨same.regionCurrent, alike.keyRegions, intervals, charges, charges'⟩, same, rooted,
        rooted'⟩
  | mpi e now =>
      obtain ⟨⟨task, ret, key⟩, wrapped, done⟩ := Runs.bind_eq_ok stepped
      obtain ⟨⟨task', ret', key'⟩, wrapped', done'⟩ := Runs.bind_eq_ok stepped'
      obtain ⟨-, region, callMask, rfl⟩ := mpiWrapper_eq_ok alike.rooted wrapped
      obtain ⟨-, region', callMask', rfl⟩ := mpiWrapper_eq_ok alike.rooted' wrapped'
      rw [takesCheckpoint_off, if_neg (by decide)] at region'
      -- a checkpoint taken in region 0 leaves the regions as they were
      have kept : SameRegions task.region p.1.task.region := by
        by_cases takes : takesCheckpoint env p.1.task now.stamp = true
        · rw [if_pos takes] at region
          obtain ⟨current, nregion, label, -⟩ := enter_noregion alike.rooted region
          exact ⟨current.trans (root takes).symm, nregion, label⟩
        · rw [if_neg takes] at region
          rw [region]
          exact ⟨rfl, rfl, rfl⟩
      have same : SameRegions task.region task'.region := by
        rw [region']
        exact ⟨kept.regionCurrent.trans alike.regions.regionCurrent,
          kept.nregion.trans alike.regions.nregion, kept.label.trans alike.regions.label⟩
      have rooted : Rooted task.region := by
        obtain ⟨⟨le, distinct⟩, pos, zero⟩ := alike.rooted
        rw [← kept.nregion] at le pos distinct
        rw [← kept.label] at distinct zero
        exact ⟨⟨le, distinct⟩, pos, zero⟩
      have keys : (p.1.keys ++ [ipmMpiKey callMask task.region.regionCurrent e.call e.rank
            e.bytes]).map keyRegion =
          (p.2.keys ++ [ipmMpiKey callMask' task'.region.regionCurrent e.call e.rank
            e.bytes]).map keyRegion := by
        rw [List.map_append, List.map_append, alike.keyRegions, same.regionCurrent]
        simp only [List.map_cons, List.map_nil]
        rw [keyRegion_callMask callMask callMask']
      obtain ⟨q₁, q₂⟩ := q
      cases done
      cases done'
      exact ⟨⟨same.regionCurrent, keys, intervals, charges, charges'⟩, same, rooted,
        region' ▸ alike.rooted'⟩

/-- A checkpoint taken elsewhere leaves another region current. -/
theorem Alike.not_sameAttribution (alike : Alike start p) (elsewhere : ¬ TakenInRoot env p.1 a)
    (h : Runs.both (appStep b fuel env) (appStep b fuel .off) p a = .ok q) :
    ¬ SameAttribution start q.1 q.2 := by
  obtain ⟨stepped, stepped'⟩ := Runs.both_eq_ok.mp h
  cases a with
  | region c => exact absurd trivial elsewhere
  | mpi e now =>
      obtain ⟨takes, away⟩ := Classical.not_imp.mp elsewhere
      obtain ⟨⟨task, ret, key⟩, wrapped, done⟩ := Runs.bind_eq_ok stepped
      obtain ⟨⟨task', ret', key'⟩, wrapped', done'⟩ := Runs.bind_eq_ok stepped'
      obtain ⟨-, region, -⟩ := mpiWrapper_eq_ok alike.rooted wrapped
      obtain ⟨-, region', -⟩ := mpiWrapper_eq_ok alike.rooted' wrapped'
      rw [if_pos takes] at region
      rw [takesCheckpoint_off, if_neg (by decide)] at region'
      obtain ⟨root, -⟩ := enter_noregion alike.rooted region
      obtain ⟨q₁, q₂⟩ := q
      cases done
      cases done'
      intro same
      have current : task.region.regionCurrent = task'.region.regionCurrent := same.current
      rw [root, region'] at current
      exact away (alike.current.trans current.symm)

end Step

/-! ## Runs -/

/-- After every step of the application the runs with and without checkpoints
attribute alike. -/
def Transparent (b : Build) (fuel : Nat) (env : CheckpointEnv) (start : Observed)
    (steps : List AppStep) : Prop :=
  ∀ pre o o', pre <+: steps → Runs.run (appStep b fuel env) start pre = .ok o →
    Runs.run (appStep b fuel .off) start pre = .ok o' → SameAttribution start o o'

/-- Checkpoint transparency.  A run with checkpoints attributes like the run
without them exactly when it takes every checkpoint in region 0. -/
theorem checkpoint_transparent_iff (b : Build) (fuel : Nat) (env : CheckpointEnv)
    (settings : RegionSettings) (stamp : Rat) (enter leave : Reading) (steps : List AppStep)
    (region : RegionState) (o o' : Observed)
    (start : ipmRegion (ipmInit settings stamp) ⟨1, noregion, enter, leave⟩ = .ok region)
    (ran : Runs.run (appStep b fuel env) (.start (.start region stamp)) steps = .ok o)
    (ran' : Runs.run (appStep b fuel .off) (.start (.start region stamp)) steps = .ok o') :
    Transparent b fuel env (.start (.start region stamp)) steps ↔
      ∀ v e now, Runs.Visit (appStep b fuel env) (.start (.start region stamp)) steps v
        (.mpi e now) → takesCheckpoint env v.task now.stamp = true → v.current = 0 := by
  obtain ⟨rooted, -⟩ := firstCall_rooted start
  let o₀ : Observed := .start (.start region stamp)
  let p₀ : Observed × Observed := (o₀, o₀)
  have init : Alike o₀ p₀ :=
    ⟨⟨rfl, rfl, rfl, charges_start _, charges_start _⟩, ⟨rfl, rfl, rfl⟩, rooted, rooted⟩
  have ranBoth : Runs.run (Runs.both (appStep b fuel env) (appStep b fuel .off)) p₀ steps =
      .ok (o, o') := Runs.run_both_eq_ok.mpr ⟨ran, ran'⟩
  have rule := Runs.forall_reached_iff_forall_visit (I := Alike o₀)
    (P := fun p => SameAttribution o₀ p.1 p.2) (G := fun p a => TakenInRoot env p.1 a) init
    (fun alike root h => alike.step root h) (fun alike => alike.toSameAttribution)
    (fun alike elsewhere h => alike.not_sameAttribution elsewhere h) ranBoth
  constructor
  · intro transparent v e now visit takes
    obtain ⟨v', visitBoth⟩ := visit.both ranBoth
    refine rule.mp ?_ (v, v') (.mpi e now) visitBoth takes
    rintro ⟨w, w'⟩ ⟨pre, isPre, ranPre⟩
    obtain ⟨ranW, ranW'⟩ := Runs.run_both_eq_ok.mp ranPre
    exact transparent pre w w' isPre ranW ranW'
  · intro root pre w w' isPre ranW ranW'
    refine rule.mpr ?_ (w, w') ⟨pre, isPre, Runs.run_both_eq_ok.mpr ⟨ranW, ranW'⟩⟩
    rintro v (c | ⟨e, now⟩) visit
    · exact trivial
    · exact fun takes => root v.1 e now visit.of_both takes

/-- All clocks of the hook at one time. -/
def CheckpointReading.at (wall : Rat) : CheckpointReading :=
  ⟨wall, .at wall, .at wall, .at wall, .at wall, ⟨0, 0, 0, 0⟩⟩

/-- A checkpoint every ten seconds. -/
def everyTen : CheckpointEnv := ⟨true, 10⟩

/-- An event before, within and after a region. -/
def threeEvents (within after : Rat) : List AppStep :=
  [.mpi (sizeEvent 1 5) (.at 12), .region ⟨1, ['a'], .at 13, .at 14⟩,
    .mpi (sizeEvent 2 7) (.at within), .region ⟨-1, ['a'], .at 30, .at 31⟩,
    .mpi (sizeEvent 1 5) (.at after)]

/-- Checkpoints at 12 and 40 seconds, both in region 0. -/
theorem checkpoint_transparent_in_root :
    ∃ region o o', ipmRegion (ipmInit .plain 0) firstCall = .ok region ∧
      Runs.run (appStep .five 20 everyTen) (.start (.start region 0)) (threeEvents 16 40) =
        .ok o ∧
      o.task.prevCpStamp = 40 ∧
      (Transparent .five 20 everyTen (.start (.start region 0)) (threeEvents 16 40) ↔
        ∀ v e now, Runs.Visit (appStep .five 20 everyTen) (.start (.start region 0))
          (threeEvents 16 40) v (.mpi e now) →
          takesCheckpoint everyTen v.task now.stamp = true → v.current = 0) ∧
      Runs.run (appStep .five 20 .off) (.start (.start region 0)) (threeEvents 16 40) =
        .ok o' := by
  have started : Runs.okWith (ipmRegion (ipmInit .plain 0) firstCall) (fun region =>
      Runs.okWith (Runs.run (appStep .five 20 everyTen) (.start (.start region 0))
          (threeEvents 16 40)) (fun o => o.task.prevCpStamp == 40) &&
        Runs.okWith (Runs.run (appStep .five 20 .off) (.start (.start region 0))
          (threeEvents 16 40)) (fun _ => true)) = true := by decide +kernel
  obtain ⟨region, start, both⟩ := Runs.okWith_eq_true started
  rw [Bool.and_eq_true] at both
  obtain ⟨o, ran, stamp⟩ := Runs.okWith_eq_true both.1
  obtain ⟨o', ran', -⟩ := Runs.okWith_eq_true both.2
  exact ⟨region, o, o', start, ran, beq_iff_eq.mp stamp,
    checkpoint_transparent_iff .five 20 everyTen .plain 0 (.at 1) (.at 2) (threeEvents 16 40)
      region o o' start ran ran', ran'⟩

/-- A checkpoint at 26 seconds, within the region: the event and the time up to the
exit go to region 0 instead of region 1, which has 12 seconds instead of 16. -/
theorem checkpoint_in_region_visible :
    ∃ region o o', ipmRegion (ipmInit .plain 0) firstCall = .ok region ∧
      Runs.run (appStep .five 20 everyTen) (.start (.start region 0)) (threeEvents 26 27) =
        .ok o ∧
      Runs.run (appStep .five 20 .off) (.start (.start region 0)) (threeEvents 26 27) = .ok o' ∧
      o.keys.map keyRegion = [0, 0, 0] ∧ o'.keys.map keyRegion = [0, 1, 0] ∧
      o.attributed.map Prod.fst = [0, 0, 1, 0, 0] ∧ o'.attributed.map Prod.fst = [0, 0, 1, 1, 0] ∧
      o.task.region.wtime 1 = 12 ∧ o'.task.region.wtime 1 = 16 ∧
      ¬ Transparent .five 20 everyTen (.start (.start region 0)) (threeEvents 26 27) := by
  have started : Runs.okWith (ipmRegion (ipmInit .plain 0) firstCall) (fun region =>
      Runs.okWith (Runs.run (appStep .five 20 everyTen) (.start (.start region 0))
          (threeEvents 26 27)) (fun o => o.keys.map keyRegion == [0, 0, 0] &&
            (o.attributed.map Prod.fst == [0, 0, 1, 0, 0] && o.task.region.wtime 1 == 12)) &&
        Runs.okWith (Runs.run (appStep .five 20 .off) (.start (.start region 0))
          (threeEvents 26 27)) (fun o => o.keys.map keyRegion == [0, 1, 0] &&
            (o.attributed.map Prod.fst == [0, 0, 1, 1, 0] && o.task.region.wtime 1 == 16))) =
          true := by decide +kernel
  obtain ⟨region, start, both⟩ := Runs.okWith_eq_true started
  rw [Bool.and_eq_true] at both
  obtain ⟨o, ran, here⟩ := Runs.okWith_eq_true both.1
  obtain ⟨o', ran', there⟩ := Runs.okWith_eq_true both.2
  rw [Bool.and_eq_true, Bool.and_eq_true, beq_iff_eq, beq_iff_eq, beq_iff_eq] at here there
  refine ⟨region, o, o', start, ran, ran', here.1, there.1, here.2.1, there.2.1, here.2.2,
    there.2.2, ?_⟩
  intro transparent
  have same := (transparent _ o o' (List.prefix_refl _) ran ran').keyRegions
  rw [here.1, there.1] at same
  exact absurd same (by decide)

end Ipm
