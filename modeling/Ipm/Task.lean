import Ipm.Hash.Table
import Ipm.Region.Safety

/-!
# The task

`task` as far as the event table, the regions and the summaries of `ipm_sync`
(`src/ipm_api.c`) go.  `ipm_sync` fills the summaries in from the table; it reads
the regions and the keys and changes neither.
-/

namespace Ipm

/-- The fields of `task`, with `prev_cp_stamp` of the checkpoint hook. -/
structure TaskState where
  region : RegionState
  table : HashState
  mtime : Rat
  wtime : Rat
  utime : Rat
  stime : Rat
  regionMtime : Nat → Rat
  stampInit : Rat
  stampFinal : Rat
  stampFinalMpi : Rat
  prevCpStamp : Rat

/-- A task whose regions are started and whose table is empty. -/
def TaskState.start (region : RegionState) (stampInit : Rat) : TaskState where
  region := region
  table := .init
  mtime := 0
  wtime := 0
  utime := 0
  stime := 0
  regionMtime := fun _ => 0
  stampInit := stampInit
  stampFinal := 0
  stampFinalMpi := 0
  prevCpStamp := 0

/-- What `ipm_sync` reads: the resource usage and the result of `duration_adjust`. -/
structure SyncReading where
  user : Rat
  sys : Rat
  ret : Int := 0
  srDur : Rat := 0

/-- Add an entry to the summaries of its call and its region. -/
def addEnt (t : TaskState) (ent : HashEnt) : TaskState :=
  let ireg := keyRegion ent.key
  let icall := keyCall ent.key
  { t with
    table := { t.table with
      callMtime := Function.update t.table.callMtime ireg
        (Function.update (t.table.callMtime ireg) icall
          (t.table.callMtime ireg icall + ent.tTot))
      callMcount := Function.update t.table.callMcount ireg
        (Function.update (t.table.callMcount ireg) icall
          (t.table.callMcount ireg icall + ent.count)) }
    regionMtime := Function.update t.regionMtime ireg (t.regionMtime ireg + ent.tTot)
    mtime := t.mtime + ent.tTot }

/-- Add one slot of the table. -/
def syncEnt (t : TaskState) (i : Nat) : TaskState :=
  if (t.table.hash i).key = 0 then t else addEnt t (t.table.hash i)

/-- The wall time of the task: without what `duration_adjust` found suspended, and
not below the processor time. -/
def syncWtime (t : TaskState) (now : SyncReading) : Rat :=
  let wtime :=
    if now.ret = 0 then t.stampFinal - t.stampInit
    else t.stampFinal - t.stampInit - now.srDur
  if wtime < now.user + now.sys then now.user + now.sys else wtime

/-- The key has a row and a place in the summaries.  An event that is logged while no region is
current has region 255 in its key, behind the last row. -/
def KeyInRows (b : Build) (key : Nat) : Prop :=
  keyRegion key < maxsizeRegion ∧ keyCall key ≤ b.maxsizeCalls

instance (b : Build) (key : Nat) : Decidable (KeyInRows b key) :=
  inferInstanceAs (Decidable (_ ∧ _))

/-- `ipm_sync` adds inside of the summaries. -/
def SyncsInRows (b : Build) (t : HashState) : Prop :=
  ∀ i ∈ List.range (b.maxsizeHash + 1), (t.hash i).key ≠ 0 → KeyInRows b (t.hash i).key

/-- `ipm_sync`.  What it adds behind the last row of the summaries is kept apart here; where
`SyncsInRows` holds there is no such entry. -/
def ipmSync (b : Build) (t : TaskState) (now : SyncReading) : TaskState :=
  let t := { t with utime := now.user, stime := now.sys, table := clearCalls b t.table }
  let t := (List.range (b.maxsizeHash + 1)).foldl syncEnt t
  let wtime := syncWtime t now
  { t with wtime := wtime, mtime := if t.mtime > wtime then wtime else t.mtime }

theorem syncEnt_region (t : TaskState) (i : Nat) : (syncEnt t i).region = t.region := by
  unfold syncEnt
  split <;> rfl

/-- `ipm_sync` leaves the regions alone. -/
theorem ipmSync_region (b : Build) (t : TaskState) (now : SyncReading) :
    (ipmSync b t now).region = t.region := by
  have slots : ∀ (l : List Nat) (v : TaskState), (l.foldl syncEnt v).region = v.region := by
    intro l
    induction l with
    | nil => exact fun v => rfl
    | cons i l ih => exact fun v => (ih _).trans (syncEnt_region v i)
  exact slots _ _

end Ipm
