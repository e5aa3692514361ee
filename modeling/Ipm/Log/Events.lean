import Ipm.Finalize
import Ipm.Hash.Profile
import Ipm.Log.Calls
import Ipm.Log.Ranks

/-!
# What a log says of a run

The MPI calls of an application against the lines `ipm_log_write` prints when it is done.
Between the two lie the checkpoints, which leave the region of a call and add up summaries
of their own, the culls, which rebuild the table and use the summaries for their counts,
and the `ipm_sync` of the finaliser.

* `Accounted.step`: what a step of the application adds to the table.
* `entrySum_count`, `entrySum_time`: sums over the table are sums over the events.
* `logAccounts`: the lines of the log add up to the events of the run.
-/

namespace Ipm

/-! ## The events of a run -/

/-- The event a step has logged, in the region the hook has left. -/
def AppStep.logged (o' : Observed) : AppStep → List MpiEvent
  | .region _ => []
  | .mpi e _ => [{ e with region := o'.current }]

/-- The events an application logs, in order. -/
def appEvents (b : Build) (fuel : Nat) (env : CheckpointEnv) : Observed → List AppStep →
    List MpiEvent
  | _, [] => []
  | o, a :: steps =>
      match appStep b fuel env o a with
      | .error _ => []
      | .ok o' => a.logged o' ++ appEvents b fuel env o' steps

/-- The events of a call in a region. -/
def callEvents (events : List MpiEvent) (ireg icall : Nat) : List MpiEvent :=
  events.filter fun e => e.region.toNat = ireg ∧ e.call = icall

/-- The lines of a call in a region. -/
def callLines (lines : List HentLine) (ireg icall : Nat) : List HentLine :=
  lines.filter fun line => line.region = ireg ∧ line.icall = icall

/-- The log of a task accounts for the events of its run.  The summary of call 0, which is no
call, is left out. -/
structure LogAccounts (b : Build) (mpiSize : Int) (u : TaskState) (events : List MpiEvent) :
    Prop where
  func : ∀ line ∈ funcLines b u, 1 ≤ line.icall →
    line.count = (callEvents events line.ireg line.icall).length ∧
      line.time = ((callEvents events line.ireg line.icall).map MpiEvent.wall).sum
  listed : ∀ e ∈ events, ∃ line ∈ funcLines b u, (line.ireg : Int) = e.region ∧
    line.icall = e.call
  hentCount : ∀ ireg icall,
    ((callLines (hentLines b mpiSize u.table) ireg icall).map HentLine.count).sum =
      (callEvents events ireg icall).length
  hentTime : ∀ ireg icall,
    ((callLines (hentLines b mpiSize u.table) ireg icall).map HentLine.tTot).sum =
      ((callEvents events ireg icall).map MpiEvent.wall).sum
  nkey : u.table.hashNkey = (hentLines b mpiSize u.table).length
  nlog : u.table.hashNlog = events.length

/-! ## The table after a run -/

section Table

variable {b : Build} {n : Nat} {all : Multiset MpiEvent}

theorem Recorded.init (b : Build) : Recorded b .init 0 0 :=
  ⟨0, Profile.empty rfl rfl, fun _ occupied => absurd rfl occupied, by simp, rfl⟩

/-- Only the slots and the two counters matter. -/
theorem Recorded.of_table {t t' : HashState} (recorded : Recorded b t n all)
    (hash : t'.hash = t.hash) (nkey : t'.hashNkey = t.hashNkey) (nlog : t'.hashNlog = t.hashNlog) :
    Recorded b t' n all := by
  rcases recorded with ⟨A, profile, inhabited, total, counted⟩
  refine ⟨A, profile.of_table hash nkey, fun i occupied => ?_, total, nlog.trans counted⟩
  rw [HashState.keys, hash] at occupied
  exact inhabited i occupied

/-- `ipm_sync` reads the table. -/
theorem ipmSync_table (b : Build) (t : TaskState) (now : SyncReading) :
    (ipmSync b t now).table.hash = t.table.hash ∧
      (ipmSync b t now).table.hashNkey = t.table.hashNkey ∧
      (ipmSync b t now).table.hashNlog = t.table.hashNlog := by
  have entry : ∀ (v : TaskState) (i : Nat),
      (syncEnt v i).table.hashNkey = v.table.hashNkey ∧
        (syncEnt v i).table.hashNlog = v.table.hashNlog := by
    intro v i
    unfold syncEnt
    split <;> exact ⟨rfl, rfl⟩
  refine ⟨ipmSync_hash b t now, ?_, ?_⟩
  · exact Runs.foldl_keeps (fun v : TaskState => v.table.hashNkey) (fun v i => (entry v i).1) _ _
  · exact Runs.foldl_keeps (fun v : TaskState => v.table.hashNlog) (fun v i => (entry v i).2) _ _

/-- What a checkpoint does, and the finaliser after it: it comes to region 0 and adds up the
table it finds. -/
theorem takeCheckpoint_eq_ok {t t' : TaskState} {now : CheckpointReading}
    (rooted : Rooted t.region) (h : takeCheckpoint b t now = .ok t') :
    ∃ region : RegionState, t' = ipmSync b { t with region := region } now.sync ∧
      region.regionCurrent = 0 ∧ region.nregion = t.region.nregion ∧
        region.label = t.region.label := by
  rcases Runs.bind_eq_ok h with ⟨region, entered, rest⟩
  rcases Runs.bind_eq_ok rest with ⟨left, exited, done⟩
  rcases enter_noregion rooted (Runs.mapError_eq_ok entered) with ⟨_, nregion, label, flat⟩
  rw [leaveRegionalized, flat] at exited
  cases exited
  cases done
  exact ⟨_, rfl, rfl, nregion, label⟩

theorem takeCheckpoint_recorded {t t' : TaskState} {now : CheckpointReading}
    (rooted : Rooted t.region) (recorded : Recorded b t.table n all)
    (h : takeCheckpoint b t now = .ok t') : Recorded b t'.table n all := by
  rcases takeCheckpoint_eq_ok rooted h with ⟨region, rfl, _⟩
  rcases ipmSync_table b { t with region := region } now.sync with ⟨hash, nkey, nlog⟩
  exact recorded.of_table hash nkey nlog

end Table

/-- A task in the middle of a run: the table holds the events logged so far, each in a region
that has been made. -/
structure Accounted (b : Build) (o : Observed) (events : List MpiEvent) : Prop where
  recorded : Recorded b o.task.table events.length events
  rooted : Rooted o.task.region
  current : o.current < o.task.region.nregion
  made : ∀ e ∈ events, e.region < o.task.region.nregion

section Steps

variable {b : Build} {fuel : Nat} {env : CheckpointEnv} {o o' : Observed}
  {events : List MpiEvent}

/-- The hook keeps the table, and may lead to region 0. -/
theorem ipmMpiCheckpoint_accounted {now : CheckpointReading} {v : TaskState} {ret : Int}
    (accounted : Accounted b o events)
    (hooked : ipmMpiCheckpoint b env o.task now = .ok (v, ret)) :
    Recorded b v.table events.length events ∧ v.region.nregion = o.task.region.nregion ∧
      v.region.regionCurrent < v.region.nregion := by
  rcases ipmMpiCheckpoint_cases hooked with ⟨_, _, taken⟩ | ⟨quiet, _, region⟩
  · have rooted :
        Rooted { stampCheckpoint o.task now.stamp with prevCpStamp := now.stamp }.region :=
      accounted.rooted
    have recorded := takeCheckpoint_recorded rooted accounted.recorded taken
    rcases takeCheckpoint_region rooted taken with ⟨current, nregion, _⟩
    have nregion : v.region.nregion = o.task.region.nregion := nregion
    refine ⟨recorded, nregion, ?_⟩
    have some_ := accounted.rooted.nregion_pos
    rw [current, nregion]
    exact_mod_cast some_
  · have table := (ipmMpiCheckpoint_quiet quiet hooked).1
    rw [table, region]
    exact ⟨accounted.recorded, rfl, accounted.current⟩

/-- A step of the application adds its event to the table, whatever checkpoints and culls
it takes. -/
theorem Accounted.step {a : AppStep} (accounted : Accounted b o events)
    (inBounds : ∀ e ∈ a.logged o', e.InBounds) (h : appStep b fuel env o a = .ok o') :
    Accounted b o' (events ++ a.logged o') := by
  have rooted := appStep_rooted accounted.rooted h
  cases a with
  | region c =>
      rcases Runs.bind_eq_ok h with ⟨region, entered, done⟩
      cases done
      have entered := Runs.mapError_eq_ok entered
      have grown := ipmRegion_nregion_le entered
      have some_ := accounted.rooted.nregion_pos
      simp only [AppStep.logged, List.append_nil]
      refine ⟨accounted.recorded, rooted, ?_, fun e mem => ?_⟩
      · change region.regionCurrent < region.nregion
        rcases ipmRegion_regionCurrent entered with ⟨i, below, _, _, at_ | zero⟩ | ⟨none, _⟩
        · rw [at_]
          exact_mod_cast below
        · omega
        · omega
      · have below := accounted.made e mem
        change e.region < (region.nregion : Int)
        omega
  | mpi e now =>
      rcases Runs.bind_eq_ok h with ⟨⟨task, ret, key⟩, wrapped, done⟩
      rcases Runs.bind_eq_ok wrapped with ⟨⟨v, ret'⟩, hooked, rest⟩
      rcases Runs.bind_eq_ok rest with ⟨table, logged, made⟩
      cases done
      cases made
      rcases ipmMpiCheckpoint_accounted accounted hooked with ⟨recorded, nregion, current⟩
      have ok : MpiEvent.InBounds { e with region := v.region.regionCurrent } :=
        inBounds _ List.mem_cons_self
      have added := wrapperLog_recorded ok recorded (Runs.mapError_eq_ok logged)
      refine ⟨?_, rooted, current, fun e' mem => ?_⟩
      · rw [List.length_append]
        exact added
      · change e'.region < (v.region.nregion : Int)
        rcases List.mem_append.mp mem with old | new
        · rw [nregion]
          exact accounted.made e' old
        · rw [List.mem_singleton.mp new]
          exact current

/-- A run of the application adds its events. -/
theorem Accounted.run {steps : List AppStep} (accounted : Accounted b o events)
    (inBounds : ∀ e ∈ appEvents b fuel env o steps, e.InBounds)
    (ran : Runs.run (appStep b fuel env) o steps = .ok o') :
    Accounted b o' (events ++ appEvents b fuel env o steps) := by
  induction steps generalizing o events with
  | nil =>
      cases ran
      rwa [appEvents, List.append_nil]
  | cons a steps ih =>
      rcases Runs.run_cons_eq_ok ran with ⟨v, stepped, rest⟩
      rw [appEvents, stepped] at inBounds ⊢
      dsimp only at inBounds ⊢
      rw [List.forall_mem_append] at inBounds
      rw [← List.append_assoc]
      exact ih (accounted.step inBounds.1 stepped) inBounds.2 rest

/-- A task after a run from its start on. -/
theorem Accounted.of_run {settings : RegionSettings} {stamp : Rat} {enter leave : Reading}
    {region : RegionState} {steps : List AppStep}
    (started : ipmRegion (ipmInit settings stamp) ⟨1, noregion, enter, leave⟩ = .ok region)
    (ran : Runs.run (appStep b fuel env) (.start (.start region stamp)) steps = .ok o)
    (inBounds : ∀ e ∈ appEvents b fuel env (.start (.start region stamp)) steps, e.InBounds) :
    Accounted b o (appEvents b fuel env (.start (.start region stamp)) steps) := by
  rcases firstCall_rooted started with ⟨rooted, root⟩
  have start : Accounted b (.start (.start region stamp)) [] := by
    refine ⟨Recorded.init b, rooted, ?_, nofun⟩
    change region.regionCurrent < (region.nregion : Int)
    have some_ := rooted.nregion_pos
    omega
  have accounted := start.run inBounds ran
  rwa [List.nil_append] at accounted

end Steps

/-! ## Sums over the table -/

section Sums

variable {b : Build} {t : HashState} {n : Nat} {events : List MpiEvent}

theorem entrySum_eq_sum {M : Type} [AddCommMonoid M] (b : Build) (hash : Nat → HashEnt)
    (term : HashEnt → M) : entrySum b hash term = ∑ i ∈ b.slots, slotTerm hash term i := by
  rw [entrySum, Build.slots, Finset.sum, Finset.range_val, Multiset.range, Multiset.map_coe,
    Multiset.sum_coe]

/-- A sum over the entries of some targets is one over the events of these targets. -/
theorem Recorded.entrySum {M : Type} [AddCommMonoid M] (recorded : Recorded b t n events)
    {q : Nat × Nat × Int → Prop} [DecidablePred q] {term : HashEnt → M} {f : MpiEvent → M}
    (adds : ∀ ent s, HashEnt.Summarizes ent s → term ent = (s.map f).sum) :
    Ipm.entrySum b t.hash (fun ent => if q (keyTarget ent.key) then term ent else 0) =
      ((events.filter fun e => q e.target).map f).sum := by
  rcases recorded with ⟨A, profile, _, total, _⟩
  have sorted : ∀ i ∈ b.slots, ∀ e ∈ A i,
      q e.target ↔ t.keys i ≠ 0 ∧ q (keyTarget (t.keys i)) := by
    intro i _ e mem
    have occupied : t.keys i ≠ 0 := by
      intro vacant
      rw [(profile.vacant i vacant).2] at mem
      exact Multiset.notMem_zero e mem
    rw [profile.target i e mem, and_iff_right occupied]
  have share : ∀ i ∈ b.slots, slotTerm t.hash
      (fun ent => if q (keyTarget ent.key) then term ent else 0) i =
        if t.keys i ≠ 0 ∧ q (keyTarget (t.keys i)) then ((A i).map f).sum else 0 := by
    intro i _
    change (if t.keys i = 0 then 0 else if q (keyTarget (t.keys i)) then term (t.hash i) else 0) = _
    by_cases vacant : t.keys i = 0
    · rw [if_pos vacant, if_neg fun both => both.1 vacant]
    · rw [if_neg vacant]
      refine if_congr (and_iff_right vacant).symm ?_ rfl
      exact adds _ _ (profile.summary i vacant)
  have filtered : ((events.filter fun e => q e.target : List MpiEvent) : Multiset MpiEvent) =
      ∑ i ∈ b.slots with t.keys i ≠ 0 ∧ q (keyTarget (t.keys i)), A i := by
    rw [← Shares.filter_sum sorted, total, Multiset.filter_coe]
  rw [entrySum_eq_sum, Finset.sum_congr rfl share, ← Finset.sum_filter, ← Shares.sum_map_sum,
    ← filtered, Multiset.map_coe, Multiset.sum_coe]

theorem Recorded.entrySum_count (recorded : Recorded b t n events)
    (q : Nat × Nat × Int → Prop) [DecidablePred q] :
    Ipm.entrySum b t.hash (fun ent => if q (keyTarget ent.key) then ent.count else 0) =
      (events.filter fun e => q e.target).length := by
  rw [recorded.entrySum (f := fun _ => 1) fun ent s summary => ?_]
  · rw [List.map_const', List.sum_replicate, smul_eq_mul, mul_one]
  · rw [summary.count, Multiset.map_const', Multiset.sum_replicate, smul_eq_mul, mul_one]

theorem Recorded.entrySum_time (recorded : Recorded b t n events)
    (q : Nat × Nat × Int → Prop) [DecidablePred q] :
    Ipm.entrySum b t.hash (fun ent => if q (keyTarget ent.key) then ent.tTot else 0) =
      ((events.filter fun e => q e.target).map MpiEvent.wall).sum :=
  recorded.entrySum fun _ _ summary => summary.tTot

/-- The summaries by call are those of the events. -/
theorem Recorded.callCount (recorded : Recorded b t n events) (ireg icall : Nat) :
    Ipm.callCount b t.hash ireg icall = (callEvents events ireg icall).length :=
  recorded.entrySum_count fun x => x.1 = ireg ∧ x.2.1 = icall

theorem Recorded.callTime (recorded : Recorded b t n events) (ireg icall : Nat) :
    Ipm.callTime b t.hash ireg icall = ((callEvents events ireg icall).map MpiEvent.wall).sum :=
  recorded.entrySum_time fun x => x.1 = ireg ∧ x.2.1 = icall

/-! ## The lines -/

/-- The line of an entry. -/
def HashEnt.line (ent : HashEnt) (callMask : Nat → Nat) (mpiSize : Int) : HentLine where
  key := ent.key
  icall := keyCall ent.key
  ibytes := keyByte ent.key
  orank := orankOf callMask mpiSize ent.key
  region := keyRegion ent.key
  count := ent.count
  tTot := ent.tTot
  tMin := ent.tMin
  tMax := ent.tMax

theorem hentLines_eq (b : Build) (mpiSize : Int) (t : HashState) : hentLines b mpiSize t =
    (List.range (b.maxsizeHash + 1)).filterMap fun i =>
      if (t.hash i).key ≠ 0 then some ((t.hash i).line t.callMask mpiSize) else none := rfl

/-- A sum over the lines of the entries with a property. -/
theorem hentLines_sum {M : Type} [AddCommMonoid M] (b : Build) (mpiSize : Int) (t : HashState)
    (p : HentLine → Prop) [DecidablePred p] (f : HentLine → M) :
    (((hentLines b mpiSize t).filter fun line => p line).map f).sum = entrySum b t.hash fun ent =>
      if p (ent.line t.callMask mpiSize) then f (ent.line t.callMask mpiSize) else 0 := by
  rw [hentLines_eq]
  unfold entrySum
  induction List.range (b.maxsizeHash + 1) with
  | nil => rfl
  | cons i slots ih =>
      rw [List.map_cons, List.sum_cons, ← ih, List.filterMap_cons]
      unfold slotTerm
      by_cases vacant : (t.hash i).key = 0
      · rw [if_pos vacant, if_neg (not_not_intro vacant), zero_add]
      · rw [if_neg vacant, if_pos vacant, List.filter_cons]
        dsimp only
        by_cases has : p ((t.hash i).line t.callMask mpiSize)
        · rw [if_pos has, if_pos (decide_eq_true has), List.map_cons, List.sum_cons]
        · rw [if_neg has, zero_add, if_neg]
          rwa [decide_eq_true_iff]

theorem Recorded.hentLines_length (recorded : Recorded b t n events) (mpiSize : Int) :
    t.hashNkey = (hentLines b mpiSize t).length := by
  rcases recorded with ⟨A, profile, _⟩
  have lines := hentLines_sum b mpiSize t (fun _ => True) fun _ => 1
  simp only [decide_true, List.filter_true, List.map_const', List.sum_replicate, smul_eq_mul,
    mul_one, if_true] at lines
  rw [lines, profile.nkey, entrySum_eq_sum, Finset.card_filter]
  refine Finset.sum_congr rfl fun i _ => ?_
  unfold slotTerm HashState.keys
  split <;> simp_all

/-- A line stands for some events of its call in its region. -/
theorem Recorded.share_of_line (recorded : Recorded b t n events) {mpiSize : Int}
    {line : HentLine} (mem : line ∈ hentLines b mpiSize t) :
    ∃ share : Multiset MpiEvent, share ≠ 0 ∧
      (∀ e ∈ share, e ∈ events ∧ e.region.toNat = line.region ∧ e.call = line.icall) ∧
      line.tTot = (share.map MpiEvent.wall).sum := by
  rcases recorded with ⟨A, profile, inhabited, total, _⟩
  rw [hentLines_eq, List.mem_filterMap] at mem
  rcases mem with ⟨i, slot, found⟩
  split at found
  · rename_i occupied
    cases found
    refine ⟨A i, inhabited i occupied, fun e share => ?_, (profile.summary i occupied).tTot⟩
    have logged : e ∈ (events : Multiset MpiEvent) := by
      rw [← total]
      exact Multiset.mem_sum.mpr ⟨i, Finset.mem_range.mpr (List.mem_range.mp slot), share⟩
    have target := profile.target i e share
    exact ⟨logged, congrArg Prod.fst target, congrArg (fun x => x.2.1) target⟩
  · cases found

end Sums

/-! ## The log -/

theorem clearCalls_cleared (b : Build) (t : HashState) {ireg icall : Nat}
    (region : ireg < maxsizeRegion) (named : 1 ≤ icall) (call : icall ≤ b.maxsizeCalls) :
    (clearCalls b t).callMcount ireg icall = 0 ∧ (clearCalls b t).callMtime ireg icall = 0 :=
  ⟨if_pos ⟨region, named, call⟩, if_pos ⟨region, named, call⟩⟩

/-- The finaliser keeps the table and fills in the summaries of the calls. -/
theorem closeTask_summaries {b : Build} {t u : TaskState} {now : FinalReading}
    (rooted : Rooted t.region) (closed : closeTask b t now = .ok u) {ireg icall : Nat}
    (region : ireg < maxsizeRegion) (named : 1 ≤ icall) (call : icall ≤ b.maxsizeCalls) :
    u.table.callMcount ireg icall = callCount b u.table.hash ireg icall ∧
      u.table.callMtime ireg icall = callTime b u.table.hash ireg icall := by
  rcases takeCheckpoint_eq_ok (t := stampCheckpoint t now.stamp) rooted closed with
    ⟨r, rfl, _⟩
  rw [ipmSync_hash]
  refine ⟨(syncSums_callMcount b _ now.sync ireg icall).trans ?_,
    (syncSums_callMtime b _ now.sync ireg icall).trans ?_⟩
  · rw [(clearCalls_cleared b _ region named call).1, zero_add]
  · rw [(clearCalls_cleared b _ region named call).2, zero_add]

theorem Accounted.closed {b : Build} {o : Observed} {events : List MpiEvent} {u : TaskState}
    {now : FinalReading} (accounted : Accounted b o events)
    (closed : closeTask b o.task now = .ok u) :
    Recorded b u.table events.length events ∧ u.region.nregion = o.task.region.nregion ∧
      u.region.label = o.task.region.label := by
  have rooted : Rooted (stampCheckpoint o.task now.stamp).region := accounted.rooted
  have region := takeCheckpoint_region rooted closed
  exact ⟨takeCheckpoint_recorded rooted accounted.recorded closed, region.2.1, region.2.2⟩

/-- The log of a task that is closed. -/
theorem Accounted.accounts {b : Build} {o : Observed} {events : List MpiEvent} {u : TaskState}
    {now : FinalReading} (accounted : Accounted b o events) (inBounds : ∀ e ∈ events, e.InBounds)
    (calls : ∀ e ∈ events, e.call ≤ b.maxsizeCalls) (closed : closeTask b o.task now = .ok u)
    (mpiSize : Int) : LogAccounts b mpiSize u events := by
  rcases accounted.closed closed with ⟨recorded, nregion, _⟩
  have room : ∀ ireg, ireg < o.task.region.nregion → ireg < maxsizeRegion :=
    fun _ below => Nat.lt_of_lt_of_le below accounted.rooted.nregion_le
  refine ⟨fun line printed named => ?_, fun e logged => ?_, fun ireg icall => ?_,
    fun ireg icall => ?_, recorded.hentLines_length mpiSize, ?_⟩
  · rcases mem_funcLines.mp printed with ⟨below, call, _, count, time⟩
    rw [nregion] at below
    rcases closeTask_summaries accounted.rooted closed (room _ below) named call with
      ⟨mcount, mtime⟩
    rw [count, time, mcount, mtime]
    exact ⟨recorded.callCount _ _, recorded.callTime _ _⟩
  · have ok := inBounds e logged
    have nonneg := ok.region_nonneg
    have below : e.region.toNat < o.task.region.nregion := by
      have made := accounted.made e logged
      omega
    rcases closeTask_summaries accounted.rooted closed (room _ below) ok.named
      (calls e logged) with ⟨mcount, _⟩
    rw [recorded.callCount] at mcount
    have some_ : e ∈ callEvents events e.region.toNat e.call :=
      List.mem_filter.mpr ⟨logged, decide_eq_true ⟨rfl, rfl⟩⟩
    refine ⟨⟨e.region.toNat, e.call, u.table.callMcount e.region.toNat e.call,
      u.table.callMtime e.region.toNat e.call⟩, ?_, Int.toNat_of_nonneg nonneg, rfl⟩
    refine mem_funcLines.mpr ⟨by rwa [nregion], calls e logged, ?_, rfl, rfl⟩
    change 0 < u.table.callMcount e.region.toNat e.call
    rw [mcount]
    exact List.length_pos_of_mem some_
  · rw [callLines, hentLines_sum]
    exact recorded.callCount ireg icall
  · rw [callLines, hentLines_sum]
    exact recorded.callTime ireg icall
  · rcases recorded with ⟨A, _, _, _, counted⟩
    exact counted

/-- **The log of a task accounts for every MPI call of its run**: after any application, with
whatever regions, checkpoints and culls, a `<func>` line has the number and the time of the
events of its call in its region, every event has its line, and the `<hent>` lines of a call
in a region add up to the same. -/
theorem logAccounts {b : Build} {fuel : Nat} {env : CheckpointEnv} {settings : RegionSettings}
    {stamp : Rat} {enter leave : Reading} {region : RegionState} {steps : List AppStep}
    {o : Observed} {now : FinalReading} {u : TaskState}
    (started : ipmRegion (ipmInit settings stamp) ⟨1, noregion, enter, leave⟩ = .ok region)
    (ran : Runs.run (appStep b fuel env) (.start (.start region stamp)) steps = .ok o)
    (inBounds : ∀ e ∈ appEvents b fuel env (.start (.start region stamp)) steps,
      e.InBounds ∧ e.call ≤ b.maxsizeCalls)
    (closed : closeTask b o.task now = .ok u) (mpiSize : Int) :
    LogAccounts b mpiSize u (appEvents b fuel env (.start (.start region stamp)) steps) := by
  have accounted := Accounted.of_run started ran fun e mem => (inBounds e mem).1
  exact accounted.accounts (fun e mem => (inBounds e mem).1) (fun e mem => (inBounds e mem).2)
    closed mpiSize

/-- Three events, with a checkpoint before the last. -/
theorem logAccounts_three :
    ∃ o u, Runs.run (appStep .five 20 everyTen) (.start (.start startedRegion 0))
        (threeEvents 16 40) = .ok o ∧
      closeTask .five o.task finalReading = .ok u ∧
      LogAccounts .five 1 u
        (appEvents .five 20 everyTen (.start (.start startedRegion 0)) (threeEvents 16 40)) := by
  have started : ipmRegion (ipmInit .plain 0) ⟨1, noregion, .at 1, .at 2⟩ = .ok startedRegion := rfl
  have ran : Runs.okWith (Runs.run (appStep .five 20 everyTen) (.start (.start startedRegion 0))
      (threeEvents 16 40)) (fun o => Runs.okWith (closeTask .five o.task finalReading)
        fun _ => true) = true := by
    decide +kernel
  rcases Runs.okWith_eq_true ran with ⟨o, ended, rest⟩
  rcases Runs.okWith_eq_true rest with ⟨u, closed, _⟩
  exact ⟨o, u, ended, closed, logAccounts started ended (by decide +kernel) closed 1⟩

end Ipm
