import Mathlib.Algebra.BigOperators.Group.List.Basic
import Ipm.Checkpoint

/-!
# The totals of `ipm_sync`

Every checkpoint calls `ipm_sync` and the finaliser calls it once more.  It clears the
summaries by call before it adds the table up, but not those by region nor the total.

* `syncSums_mtime`, `syncSums_regionMtime`, `syncSums_callMcount`, `syncSums_callMtime`: what
  one call leaves in each summary.
* `sumsMatch_iff`: the total and the summaries by region are those of the table exactly
  when they were zero before the call.
* `run_totalled`: before a call they are the totals of the tables of the checkpoints so far.
* `sync_sums_iff`: the same of every call of a run; a run that takes no checkpoint leaves
  them zero for the finaliser.
-/

namespace Ipm

/-! ## Sums over the table -/

section Sums

variable {M : Type} [AddCommMonoid M] (b : Build)

/-- What slot `i` contributes to a sum over the entries in use. -/
def slotTerm (hash : Nat → HashEnt) (term : HashEnt → M) (i : Nat) : M :=
  if (hash i).key = 0 then 0 else term (hash i)

/-- The sum over the entries in use. -/
def entrySum (hash : Nat → HashEnt) (term : HashEnt → M) : M :=
  ((List.range (b.maxsizeHash + 1)).map (slotTerm hash term)).sum

end Sums

/-- The time of all entries. -/
def tableTime (b : Build) (hash : Nat → HashEnt) : Rat := entrySum b hash HashEnt.tTot

/-- The time of the entries of a region. -/
def regionTime (b : Build) (hash : Nat → HashEnt) (r : Nat) : Rat :=
  entrySum b hash fun ent => if keyRegion ent.key = r then ent.tTot else 0

/-- The time of the entries of a region and a call. -/
def callTime (b : Build) (hash : Nat → HashEnt) (r c : Nat) : Rat :=
  entrySum b hash fun ent => if keyRegion ent.key = r ∧ keyCall ent.key = c then ent.tTot else 0

/-- The events of the entries of a region and a call. -/
def callCount (b : Build) (hash : Nat → HashEnt) (r c : Nat) : Nat :=
  entrySum b hash fun ent => if keyRegion ent.key = r ∧ keyCall ent.key = c then ent.count else 0

/-! ## What `ipm_sync` adds up -/

/-- `ipm_sync` up to the wall time: the summaries before `mtime` is clamped. -/
def syncSums (b : Build) (t : TaskState) (now : SyncReading) : TaskState :=
  (List.range (b.maxsizeHash + 1)).foldl syncEnt
    { t with utime := now.user, stime := now.sys, table := clearCalls b t.table }

theorem ipmSync_eq (b : Build) (t : TaskState) (now : SyncReading) :
    ipmSync b t now =
      let u := syncSums b t now
      let wtime := syncWtime u now
      { u with wtime := wtime, mtime := if u.mtime > wtime then wtime else u.mtime } := rfl

theorem syncEnt_hash (t : TaskState) (i : Nat) : (syncEnt t i).table.hash = t.table.hash := by
  unfold syncEnt
  split <;> rfl

theorem foldl_syncEnt_hash (slots : List Nat) (t : TaskState) :
    (slots.foldl syncEnt t).table.hash = t.table.hash := by
  induction slots generalizing t with
  | nil => rfl
  | cons i slots ih => exact (ih _).trans (syncEnt_hash t i)

/-- A summary to which each entry adds its term has the sum of the terms added. -/
theorem foldl_syncEnt {M : Type} [AddCommMonoid M] (field : TaskState → M) {term : HashEnt → M}
    (adds : ∀ t ent, field (addEnt t ent) = field t + term ent) (slots : List Nat)
    (t : TaskState) :
    field (slots.foldl syncEnt t) = field t + (slots.map (slotTerm t.table.hash term)).sum := by
  induction slots generalizing t with
  | nil => exact (add_zero _).symm
  | cons i slots ih =>
      rw [List.foldl_cons, ih, syncEnt_hash, List.map_cons, List.sum_cons, ← add_assoc]
      congr 1
      rw [syncEnt, slotTerm]
      split
      · exact (add_zero _).symm
      · exact adds t _

section SyncSums

variable (b : Build) (t : TaskState) (now : SyncReading)

theorem syncSums_hash : (syncSums b t now).table.hash = t.table.hash :=
  foldl_syncEnt_hash _ _

theorem ipmSync_hash : (ipmSync b t now).table.hash = t.table.hash :=
  syncSums_hash b t now

theorem syncSums_mtime : (syncSums b t now).mtime = t.mtime + tableTime b t.table.hash :=
  foldl_syncEnt TaskState.mtime (fun _ _ => rfl) _ _

theorem syncSums_regionMtime (r : Nat) :
    (syncSums b t now).regionMtime r = t.regionMtime r + regionTime b t.table.hash r := by
  refine foldl_syncEnt (fun t => t.regionMtime r) ?_ _ _
  intro u ent
  change Function.update u.regionMtime _ _ r = _
  rcases eq_or_ne r (keyRegion ent.key) with rfl | other
  · rw [Function.update_self, if_pos rfl]
  · rw [Function.update_of_ne other, if_neg other.symm, add_zero]

/-- The update of one place of a table of summaries. -/
theorem update_update {M : Type} [AddCommMonoid M] (f : Nat → Nat → M) (r c r' c' : Nat) (x : M) :
    Function.update f r' (Function.update (f r') c' (f r' c' + x)) r c =
      f r c + if r' = r ∧ c' = c then x else 0 := by
  rcases eq_or_ne r r' with rfl | otherRegion
  · rw [Function.update_self]
    rcases eq_or_ne c c' with rfl | otherCall
    · rw [Function.update_self, if_pos ⟨rfl, rfl⟩]
    · rw [Function.update_of_ne otherCall, if_neg fun same => otherCall same.2.symm, add_zero]
  · rw [Function.update_of_ne otherRegion, if_neg fun same => otherRegion same.1.symm, add_zero]

theorem syncSums_callMcount (r c : Nat) :
    (syncSums b t now).table.callMcount r c =
      (clearCalls b t.table).callMcount r c + callCount b t.table.hash r c :=
  foldl_syncEnt (fun t => t.table.callMcount r c)
    (fun u _ => update_update u.table.callMcount r c _ _ _) _ _

theorem syncSums_callMtime (r c : Nat) :
    (syncSums b t now).table.callMtime r c =
      (clearCalls b t.table).callMtime r c + callTime b t.table.hash r c :=
  foldl_syncEnt (fun t => t.table.callMtime r c)
    (fun u _ => update_update u.table.callMtime r c _ _ _) _ _

end SyncSums

/-! ## The totals of a run -/

/-- The total and the summaries by region are those of the table. -/
structure SumsMatch (b : Build) (u : TaskState) : Prop where
  mtime : u.mtime = tableTime b u.table.hash
  regionMtime : ∀ r < maxsizeRegion, u.regionMtime r = regionTime b u.table.hash r

/-- The total and the summaries by region are zero. -/
structure Unsummed (t : TaskState) : Prop where
  mtime : t.mtime = 0
  regionMtime : ∀ r < maxsizeRegion, t.regionMtime r = 0

/-- `ipm_sync` adds to what it finds. -/
theorem sumsMatch_iff (b : Build) (t : TaskState) (now : SyncReading) :
    SumsMatch b (syncSums b t now) ↔ Unsummed t := by
  constructor
  · intro matched
    refine ⟨?_, fun r below => ?_⟩
    · have total := matched.mtime
      rwa [syncSums_hash, syncSums_mtime, add_eq_right] at total
    · have region := matched.regionMtime r below
      rwa [syncSums_hash, syncSums_regionMtime, add_eq_right] at region
  · intro zero
    refine ⟨?_, fun r below => ?_⟩
    · rw [syncSums_hash, syncSums_mtime, zero.mtime, zero_add]
    · rw [syncSums_hash, syncSums_regionMtime, zero.regionMtime r below, zero_add]

/-- The sync of a checkpoint adds up the table and the totals the checkpoint found. -/
theorem takeCheckpoint_sums {b : Build} {t t' : TaskState} {now : CheckpointReading}
    (h : takeCheckpoint b t now = .ok t') :
    t'.table.hash = t.table.hash ∧
      (∀ r, t'.regionMtime r = (syncSums b t now.sync).regionMtime r) ∧
      t'.mtime = if (syncSums b t now.sync).mtime > t'.wtime then t'.wtime
        else (syncSums b t now.sync).mtime := by
  obtain ⟨region, -, rest⟩ := Runs.bind_eq_ok h
  obtain ⟨left, -, done⟩ := Runs.bind_eq_ok rest
  cases done
  refine ⟨ipmSync_hash b _ now.sync, fun r => ?_, ?_⟩
  · rw [syncSums_regionMtime]
    exact syncSums_regionMtime b _ now.sync r
  · rw [syncSums_mtime, ipmSync_eq]
    simp only [syncSums_mtime]

/-- Without a checkpoint the hook leaves the table and the totals alone. -/
theorem ipmMpiCheckpoint_quiet {b : Build} {env : CheckpointEnv} {t t' : TaskState}
    {now : CheckpointReading} {ret : Int} (quiet : takesCheckpoint env t now.stamp = false)
    (h : ipmMpiCheckpoint b env t now = .ok (t', ret)) :
    t'.table = t.table ∧ t'.mtime = t.mtime ∧ t'.regionMtime = t.regionMtime := by
  unfold ipmMpiCheckpoint at h
  by_cases off : env.ipmCheckpoint = false
  · rw [if_pos off] at h
    cases h
    exact ⟨rfl, rfl, rfl⟩
  rw [if_neg off] at h
  dsimp only at h
  split at h
  · cases h
    exact ⟨rfl, rfl, rfl⟩
  rename_i valid
  split at h
  · cases h
    exact ⟨rfl, rfl, rfl⟩
  · rename_i due
    rw [prevStamp_stampCheckpoint] at due
    exact absurd quiet (by simp [takesCheckpoint, off, valid, due])

/-- The table that the sync of a step adds up, if the step takes a checkpoint, with the wall
time of the task after it. -/
def AppStep.synced (env : CheckpointEnv) (o o' : Observed) :
    AppStep → List ((Nat → HashEnt) × Rat)
  | .mpi _ now =>
      if takesCheckpoint env o.task now.stamp then [(o.task.table.hash, o'.task.wtime)] else []
  | .region _ => []

/-- The tables of the checkpoints of a run. -/
def synced (b : Build) (fuel : Nat) (env : CheckpointEnv) :
    Observed → List AppStep → List ((Nat → HashEnt) × Rat)
  | _, [] => []
  | o, a :: steps =>
      match appStep b fuel env o a with
      | .error _ => []
      | .ok o' => a.synced env o o' ++ synced b fuel env o' steps

/-- The total after the syncs of these tables, each of which clamps it to the wall time. -/
def syncedTotal (b : Build) (total : Rat) (tables : List ((Nat → HashEnt) × Rat)) : Rat :=
  tables.foldl (fun total x =>
    if total + tableTime b x.1 > x.2 then x.2 else total + tableTime b x.1) total

/-- The total and the summaries by region have grown by these tables. -/
structure Totalled (b : Build) (t t' : TaskState) (tables : List ((Nat → HashEnt) × Rat)) :
    Prop where
  mtime : t'.mtime = syncedTotal b t.mtime tables
  regionMtime : ∀ r,
    t'.regionMtime r = t.regionMtime r + (tables.map fun x => regionTime b x.1 r).sum

theorem Totalled.of_eq {b : Build} {t t' : TaskState} (mtime : t'.mtime = t.mtime)
    (regionMtime : t'.regionMtime = t.regionMtime) : Totalled b t t' [] :=
  ⟨mtime, fun r => by rw [regionMtime, List.map_nil, List.sum_nil, add_zero]⟩

theorem Totalled.trans {b : Build} {t u v : TaskState} {l l' : List ((Nat → HashEnt) × Rat)}
    (first : Totalled b t u l) (second : Totalled b u v l') : Totalled b t v (l ++ l') where
  mtime := by rw [second.mtime, first.mtime, syncedTotal, syncedTotal, syncedTotal,
    List.foldl_append]
  regionMtime r := by rw [second.regionMtime, first.regionMtime, List.map_append,
    List.sum_append, add_assoc]

/-- A step adds the table of its checkpoint to the totals, or leaves them. -/
theorem appStep_totalled {b : Build} {fuel : Nat} {env : CheckpointEnv} {o o' : Observed}
    {a : AppStep} (h : appStep b fuel env o a = .ok o') :
    Totalled b o.task o'.task (a.synced env o o') := by
  cases a with
  | region c =>
      obtain ⟨region, -, done⟩ := Runs.bind_eq_ok h
      cases done
      exact .of_eq rfl rfl
  | mpi e now =>
      obtain ⟨⟨task, ret, key⟩, wrapped, done⟩ := Runs.bind_eq_ok h
      obtain ⟨⟨v, ret'⟩, hooked, rest⟩ := Runs.bind_eq_ok wrapped
      obtain ⟨table, -, logged⟩ := Runs.bind_eq_ok rest
      cases done
      cases logged
      rcases ipmMpiCheckpoint_cases hooked with ⟨takes, -, taken⟩ | ⟨quiet, -, -⟩
      · obtain ⟨-, regions, total⟩ := takeCheckpoint_sums taken
        rw [AppStep.synced, if_pos takes]
        refine ⟨?_, fun r => ?_⟩
        · rw [syncSums_mtime] at total
          exact total
        · rw [List.map_singleton, List.sum_singleton]
          exact (regions r).trans (syncSums_regionMtime b _ now.sync r)
      · obtain ⟨-, total, regions⟩ := ipmMpiCheckpoint_quiet quiet hooked
        have early : ¬ takesCheckpoint env o.task now.stamp = true := by
          rw [quiet]
          exact Bool.false_ne_true
        rw [AppStep.synced, if_neg early]
        exact .of_eq total regions

/-- The totals of a run are those of the tables of its checkpoints. -/
theorem run_totalled {b : Build} {fuel : Nat} {env : CheckpointEnv} {o o' : Observed}
    {steps : List AppStep} (ran : Runs.run (appStep b fuel env) o steps = .ok o') :
    Totalled b o.task o'.task (synced b fuel env o steps) := by
  induction steps generalizing o with
  | nil =>
      cases ran
      exact .of_eq rfl rfl
  | cons a steps ih =>
      obtain ⟨v, stepped, rest⟩ := Runs.run_cons_eq_ok ran
      rw [synced, stepped]
      exact (appStep_totalled stepped).trans (ih rest)

section Run

variable (b : Build) (fuel : Nat) (env : CheckpointEnv) (start : Observed) (steps : List AppStep)

/-- `P` at every call of `ipm_sync`: those of the checkpoints and that of the finaliser. -/
def EverySync (P : TaskState → SyncReading → Prop) : Prop :=
  (∀ v e now, Runs.Visit (appStep b fuel env) start steps v (.mpi e now) →
    takesCheckpoint env v.task now.stamp = true → P v.task now.sync) ∧
  ∀ o now, Runs.run (appStep b fuel env) start steps = .ok o → P o.task now

/-- The run takes no checkpoint. -/
def NoCheckpoint : Prop :=
  ∀ v e now, Runs.Visit (appStep b fuel env) start steps v (.mpi e now) →
    takesCheckpoint env v.task now.stamp = false

variable {b fuel env start steps} in
/-- A run that takes no checkpoint has no table to its totals. -/
theorem NoCheckpoint.synced_eq_nil (quiet : NoCheckpoint b fuel env start steps) :
    synced b fuel env start steps = [] := by
  induction steps generalizing start with
  | nil => rfl
  | cons a steps ih =>
      rw [synced]
      split
      · rfl
      · rename_i o stepped
        have here : a.synced env start o = [] := by
          cases a with
          | region c => rfl
          | mpi e now =>
              have early := quiet _ _ _ (.head start (.mpi e now) steps)
              rw [AppStep.synced, early]
              rfl
        rw [here, ih fun v e now visit => quiet v e now (visit.tail stepped)]
        rfl

/-- The totals of `ipm_sync` over a run are those of the table at every call exactly when
they are zero before every call.  Before a call they are those of the tables of the checkpoints
so far, and so zero when the finaliser's call is the only one. -/
theorem sync_sums_iff (region : RegionState) (stamp : Rat) :
    (EverySync b fuel env (.start (.start region stamp)) steps
        (fun t now => SumsMatch b (syncSums b t now)) ↔
      EverySync b fuel env (.start (.start region stamp)) steps fun t _ => Unsummed t) ∧
    (∀ pre o, pre <+: steps →
      Runs.run (appStep b fuel env) (.start (.start region stamp)) pre = .ok o →
        let tables := synced b fuel env (.start (.start region stamp)) pre
        o.task.mtime = syncedTotal b 0 tables ∧
          ∀ r, o.task.regionMtime r = (tables.map fun x => regionTime b x.1 r).sum) ∧
    (NoCheckpoint b fuel env (.start (.start region stamp)) steps →
      EverySync b fuel env (.start (.start region stamp)) steps fun t _ => Unsummed t) := by
  refine ⟨?_, fun pre o _ ran => ?_, fun quiet => ?_⟩
  · simp only [EverySync, sumsMatch_iff]
  · have totalled := run_totalled ran
    exact ⟨totalled.mtime, fun r => (totalled.regionMtime r).trans (zero_add _)⟩
  · refine ⟨fun v e now visit takes => ?_, fun o now ran => ?_⟩
    · rw [quiet v e now visit] at takes
      cases takes
    · have totalled := run_totalled ran
      rw [quiet.synced_eq_nil] at totalled
      exact ⟨totalled.mtime, fun r _ => (totalled.regionMtime r).trans (zero_add _)⟩

end Run

/-- Two events of one second, before which checkpoints are taken at 12 and 40 seconds: the
finaliser adds the two seconds of the table to the one it finds. -/
theorem sync_sums_twice :
    ¬ EverySync .five 20 everyTen (.start (.start (ipmInit .plain 0) 0))
      [.mpi (sizeEvent 1 5 1) (.at 12), .mpi (sizeEvent 1 5 1) (.at 40)]
      (fun t now => SumsMatch .five (syncSums .five t now)) := by
  intro every
  have ran : Runs.okWith (Runs.run (appStep .five 20 everyTen)
      (.start (.start (ipmInit .plain 0) 0))
      [.mpi (sizeEvent 1 5 1) (.at 12), .mpi (sizeEvent 1 5 1) (.at 40)])
      (fun o => o.task.regionMtime 0 == 1 && regionTime .five o.task.table.hash 0 == 2) = true := by
    decide +kernel
  obtain ⟨o, ended, sums⟩ := Runs.okWith_eq_true ran
  rw [Bool.and_eq_true, beq_iff_eq, beq_iff_eq] at sums
  have region := (every.2 o ⟨0, 0, 0, 0⟩ ended).regionMtime 0 (by decide)
  rw [syncSums_hash, syncSums_regionMtime, sums.1, sums.2] at region
  exact absurd region (by decide +kernel)

end Ipm
