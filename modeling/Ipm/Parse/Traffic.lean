import Ipm.Log.Sizes
import Ipm.Parse.Accounts

/-!
# The messages of a job

Who has sent how much to whom: `ipm_parse` adds the hash entries of a job up by the rank of the
task and the rank of its partner, for the calls that send and for those that receive.

* `parse_tx`, `parse_rx`: the messages of two ranks are those of their lines.
* `parsedHents_traffic`: the lines of a task and a partner stand for its MPI calls with it.
* `jobTraffic_account`: the messages `ipm_parse` finds are those the tasks have sent and received.
-/

namespace Ipm

open Tallies

/-! ## The lines of two ranks -/

/-- The number of the messages and the amount of data are those of some lines. -/
structure Traffic.Of (x : Traffic) (ls : List ParsedHent) : Prop where
  nmsg : x.nmsg = (ls.map ParsedHent.icount).sum
  data : x.data = (ls.map fun h => (h.icount : Int) * h.ibyte).sum

/-- The messages of some lines. -/
def trafficOf (ls : List ParsedHent) : Traffic where
  nmsg := (ls.map ParsedHent.icount).sum
  data := (ls.map fun h => (h.icount : Int) * h.ibyte).sum
  time := (ls.map ParsedHent.ittot).sum

theorem trafficOf_of (ls : List ParsedHent) : (trafficOf ls).Of ls := ⟨rfl, rfl⟩

section Parse

variable {dat : Label → Option DataClass}

/-- A line of some calls adds its messages to those of its two ranks. -/
def AddsMsgs (side : MpiStats → Nat × Int → Traffic) (C : ParsedHent → Prop) [DecidablePred C]
    (step : MpiStats → ParsedHent → MpiStats) : Prop :=
  ∀ s h p,
    (side (step s h) p).nmsg = (side s p).nmsg + (if h.pair = p ∧ C h then h.icount else 0) ∧
      (side (step s h) p).data =
        (side s p).data + if h.pair = p ∧ C h then (h.icount : Int) * h.ibyte else 0

/-- What a line adds to the messages of its two ranks, if its call is one of some. -/
theorem msgs_update (x : Nat × Int → Traffic) (h : ParsedHent) (time : Rat) (C : Prop)
    [Decidable C] (p : Nat × Int) :
    let added : Traffic := ⟨(x h.pair).nmsg + h.icount, (x h.pair).data + h.icount * h.ibyte, time⟩
    let x' := if C then Function.update x h.pair added else x
    (x' p).nmsg = (x p).nmsg + (if h.pair = p ∧ C then h.icount else 0) ∧
      (x' p).data = (x p).data + if h.pair = p ∧ C then (h.icount : Int) * h.ibyte else 0 := by
  intro added x'
  by_cases counts : h.pair = p ∧ C
  · rcases counts with ⟨rfl, holds⟩
    have stored : x' h.pair = added := by
      dsimp only [x']
      rw [if_pos holds, Function.update_self]
    rw [stored, if_pos ⟨rfl, holds⟩, if_pos ⟨rfl, holds⟩]
    exact ⟨rfl, rfl⟩
  · have kept : x' p = x p := by
      dsimp only [x']
      split
      · next holds => exact Function.update_of_ne (fun same => counts ⟨same.symm, holds⟩) _ _
      · rfl
    rw [kept, if_neg counts, if_neg counts]
    exact ⟨rfl, (add_zero _).symm⟩

theorem addsMsgs_tx (named : ParsedHent → Rat) :
    AddsMsgs MpiStats.tx (ParsedHent.IsTx dat) fun s h => s.addTx dat h (named h) :=
  fun s h p => msgs_update s.tx h _ (h.IsTx dat) p

theorem addsMsgs_rx (named : ParsedHent → Rat) :
    AddsMsgs MpiStats.rx (ParsedHent.IsRx dat) fun s h => s.addRx dat h (named h) :=
  fun s h p => msgs_update s.rx h _ (h.IsRx dat) p

section Sides

variable {side : MpiStats → Nat × Int → Traffic} {C : ParsedHent → Prop} [DecidablePred C]

/-- The messages of two ranks are those of their lines. -/
theorem AddsMsgs.foldl {step : MpiStats → ParsedHent → MpiStats} (adds : AddsMsgs side C step)
    (empty : ∀ p, side .empty p = ⟨0, 0, 0⟩) (ls : List ParsedHent) (p : Nat × Int) :
    (side (ls.foldl step .empty) p).Of (ls.filter fun h => h.pair = p ∧ C h) := by
  refine ⟨?_, ?_⟩
  · rw [foldl_sum (fun s => (side s p).nmsg) (fun s h => (adds s h p).1), empty, zero_add]
  · rw [foldl_sum (fun s => (side s p).data) (fun s h => (adds s h p).2), empty, zero_add]

/-- The messages of one side in a job, in its regions and in the regions of its tasks. -/
structure TrafficOf (lines : List ParsedHent) (st : HentState)
    (side : MpiStats → Nat × Int → Traffic) (C : ParsedHent → Prop) [DecidablePred C] : Prop where
  whole : ∀ p, (side st.J p).Of (lines.filter fun h => h.pair = p ∧ C h)
  region : ∀ label p, (side (st.JR label) p).Of
    ((lines.filter fun h => h.ireg = label).filter fun h => h.pair = p ∧ C h)
  taskRegion : ∀ place p, (side (st.TR place) p).Of
    ((lines.filter fun h => (h.irank, h.ireg) = place).filter fun h => h.pair = p ∧ C h)

theorem trafficOf_adds (job : AddsMsgs side C (MpiStats.addJob dat))
    (region : AddsMsgs side C (MpiStats.addRegion dat))
    (taskRegion : AddsMsgs side C (MpiStats.addTaskRegion dat))
    (empty : ∀ p, side .empty p = ⟨0, 0, 0⟩) (lines : List ParsedHent) :
    TrafficOf lines (parseHents dat lines) side C := by
  refine ⟨fun p => ?_, fun label p => ?_, fun place p => ?_⟩
  · rw [parse_J]
    exact job.foldl empty lines p
  · rw [parse_JR]
    exact region.foldl empty _ p
  · rw [parse_TR]
    exact taskRegion.foldl empty _ p

end Sides

/-- The messages sent are those of the lines of sending calls. -/
theorem parse_tx (lines : List ParsedHent) :
    TrafficOf lines (parseHents dat lines) MpiStats.tx (ParsedHent.IsTx dat) :=
  trafficOf_adds (addsMsgs_tx ParsedHent.ittot) (addsMsgs_tx ParsedHent.ittot)
    (addsMsgs_tx fun _ => undef) (fun _ => rfl) lines

/-- The messages received are those of the lines of receiving calls. -/
theorem parse_rx (lines : List ParsedHent) :
    TrafficOf lines (parseHents dat lines) MpiStats.rx (ParsedHent.IsRx dat) :=
  trafficOf_adds (addsMsgs_rx fun _ => undef) (addsMsgs_rx ParsedHent.ittot)
    (addsMsgs_rx ParsedHent.ittot) (fun _ => rfl) lines

end Parse

/-! ## The calls behind them -/

/-- The call's messages are sent. -/
def SendsData (dat : Label → Option DataClass) (names : LogNames) (icall : Nat) : Prop :=
  dat (names.callLabel icall) = some .tx ∨ dat (names.callLabel icall) = some .txrx

/-- The call's messages are received. -/
def ReceivesData (dat : Label → Option DataClass) (names : LogNames) (icall : Nat) : Prop :=
  dat (names.callLabel icall) = some .rx ∨ dat (names.callLabel icall) = some .txrx

instance (dat : Label → Option DataClass) (names : LogNames) :
    DecidablePred (SendsData dat names) := fun _ => inferInstanceAs (Decidable (_ ∨ _))

instance (dat : Label → Option DataClass) (names : LogNames) :
    DecidablePred (ReceivesData dat names) := fun _ => inferInstanceAs (Decidable (_ ∨ _))

section Job

variable {b : Build} {fuel : Nat} {env : CheckpointEnv} {names : LogNames}

/-- The MPI calls of some kinds at some places with a partner. -/
def FinishedTask.messages (t : FinishedTask b fuel env) (names : LogNames) (P : Place → Prop)
    [DecidablePred P] (iorank : Int) (C : Nat → Prop) [DecidablePred C] : List MpiEvent :=
  t.events.filter fun e => P (t.placeOf e) ∧ shownRank names.mpiSize e.rank = iorank ∧ C e.call

/-- What the masks of a task leave of a size in the end, and the size. -/
def FinishedTask.sizes (t : FinishedTask b fuel env) (e : MpiEvent) : Int × Int :=
  (maskedSize t.state.table.callMask e.call e.bytes, e.bytes)

/-- The sizes of these calls in all tasks. -/
def FinishedJob.messages (job : FinishedJob b fuel env) (names : LogNames) (P : Place → Prop)
    [DecidablePred P] (iorank : Int) (C : Nat → Prop) [DecidablePred C] : List (Int × Int) :=
  job.tasks.flatMap fun t => (t.messages names P iorank C).map t.sizes

/-- As many messages, and as much data but for what the masks have taken. -/
structure Traffic.Accounts (x : Traffic) (sizes : List (Int × Int)) : Prop where
  nmsg : x.nmsg = sizes.length
  least : (sizes.map Prod.fst).sum ≤ x.data
  most : x.data ≤ (sizes.map Prod.snd).sum

/-- The messages of one side are those of the calls of some kinds. -/
structure TrafficAccounts (job : FinishedJob b fuel env) (names : LogNames) (st : HentState)
    (side : MpiStats → Nat × Int → Traffic) (C : Nat → Prop) [DecidablePred C] : Prop where
  whole : ∀ p, (side st.J p).Accounts (job.messages names (fun place => place.1 = p.1) p.2 C)
  region : ∀ label p, (side (st.JR label) p).Accounts
    (job.messages names (fun place => place.2 = label ∧ place.1 = p.1) p.2 C)
  taskRegion : ∀ place p, (side (st.TR place) p).Accounts
    (job.messages names (fun place' => place' = place ∧ place'.1 = p.1) p.2 C)

/-- The table of a task that is done has a key for each of its events. -/
theorem FinishedTask.sized (t : FinishedTask b fuel env) : Sized b t.state.table t.events := by
  have ran := (Sized.init b).run (o := .start (.start t.region t.stamp))
    (fun e mem => (t.inBounds e mem).1) t.ran
  rw [List.nil_append] at ran
  have stamped : Sized b (stampCheckpoint t.o.task t.now.stamp).table t.events := ran
  exact takeCheckpoint_sized stamped t.closed

/-- The lines of a task at some places, with a partner and of some calls. -/
theorem filter_parsedHents_rank (t : FinishedTask b fuel env) (full : names.logFull = true)
    {P : Place → Prop} [DecidablePred P] {iorank : Int} {C : Nat → Prop} [DecidablePred C]
    {D : ParsedHent → Prop} [DecidablePred D]
    (kind : ∀ line : HentLine, D (t.parsedLine names line) ↔ C line.icall) :
    (t.parsedHents names).filter (fun h => P (h.irank, h.ireg) ∧ h.iorank = iorank ∧ D h) =
      ((hentLines b names.mpiSize t.state.table).filter fun line =>
        P (t.rank, t.state.region.label line.region) ∧ line.orank = iorank ∧ C line.icall).map
          (t.parsedLine names) := by
  rw [t.parsedHents_eq full, List.filter_map]
  congr 1
  refine List.filter_congr fun line _ => ?_
  exact decide_eq_decide.mpr (and_congr_right' (and_congr_right' (kind line)))

/-- The lines of a task and a partner stand for its MPI calls with it. -/
theorem parsedHents_traffic (t : FinishedTask b fuel env) (full : names.logFull = true)
    (P : Place → Prop) [DecidablePred P] (iorank : Int) {C : Nat → Prop} [DecidablePred C]
    {D : ParsedHent → Prop} [DecidablePred D]
    (kind : ∀ line : HentLine, D (t.parsedLine names line) ↔ C line.icall) {x : Traffic}
    (right : x.Of ((t.parsedHents names).filter fun h =>
      P (h.irank, h.ireg) ∧ h.iorank = iorank ∧ D h)) :
    x.Accounts ((t.messages names P iorank C).map t.sizes) := by
  let q : Nat × Nat × Int → Prop := fun target =>
    P (t.rank, t.state.region.label target.1) ∧
      shownRank names.mpiSize target.2.2 = iorank ∧ C target.2.1
  let p : HentLine → Prop := fun line =>
    P (t.rank, t.state.region.label line.region) ∧ line.orank = iorank ∧ C line.icall
  have agree : ∀ ent : HashEnt,
      p (ent.line t.state.table.callMask names.mpiSize) ↔ q (keyTarget ent.key) := by
    intro ent
    have orank := t.sized.orankOf names.mpiSize ent.key
    change P _ ∧ orankOf _ _ _ = iorank ∧ C _ ↔ _
    rw [orank]
    rfl
  have recorded := (t.accounted.closed t.closed).1
  have bounds := t.sized.lines_bounds (fun e mem => (t.inBounds e mem).1) (p := p) (q := q) agree
  rcases right with ⟨nmsg, data⟩
  rw [filter_parsedHents_rank t full kind, List.map_map] at nmsg data
  refine ⟨?_, ?_, ?_⟩
  · have counts : x.nmsg = (((hentLines b names.mpiSize t.state.table).filter fun line =>
        p line).map HentLine.count).sum := nmsg
    rw [counts, hentLines_sum, List.length_map]
    simp only [agree]
    exact recorded.entrySum_count q
  · rw [List.map_map, data]
    exact bounds.1
  · rw [List.map_map, data]
    exact bounds.2

theorem Traffic.Accounts.append {x y : Traffic} {sizes sizes' : List (Int × Int)}
    (first : x.Accounts sizes) (second : y.Accounts sizes') (time : Rat) :
    Traffic.Accounts ⟨x.nmsg + y.nmsg, x.data + y.data, time⟩ (sizes ++ sizes') := by
  refine ⟨?_, ?_, ?_⟩
  · rw [List.length_append, first.nmsg, second.nmsg]
  · rw [List.map_append, List.sum_append]
    exact add_le_add first.least second.least
  · rw [List.map_append, List.sum_append]
    exact add_le_add first.most second.most

/-- The lines of a job at some places, with a partner and of some calls. -/
theorem traffic_accounts {job : FinishedJob b fuel env} (full : names.logFull = true)
    (P : Place → Prop) [DecidablePred P] (iorank : Int) {C : Nat → Prop} [DecidablePred C]
    {D : ParsedHent → Prop} [DecidablePred D]
    (kind : ∀ (t : FinishedTask b fuel env) line, D (t.parsedLine names line) ↔ C line.icall)
    {x : Traffic} (right : x.Of ((job.parsedHents names).filter fun h =>
      P (h.irank, h.ireg) ∧ h.iorank = iorank ∧ D h)) :
    x.Accounts (job.messages names P iorank C) := by
  unfold FinishedJob.parsedHents at right
  unfold FinishedJob.messages
  generalize job.tasks = ts at right ⊢
  induction ts generalizing x with
  | nil => exact ⟨right.nmsg, right.data.ge, right.data.le⟩
  | cons t ts ih =>
      have sums := (parsedHents_traffic t full P iorank (kind t) (trafficOf_of _)).append
        (ih (trafficOf_of _)) x.time
      rw [List.flatMap_cons, List.filter_append] at right
      rw [List.flatMap_cons]
      rcases right with ⟨nmsg, data⟩
      rw [List.map_append, List.sum_append] at nmsg data
      exact ⟨nmsg.trans sums.nmsg, sums.least.trans data.ge, data.le.trans sums.most⟩

theorem trafficAccounts {job : FinishedJob b fuel env} (full : names.logFull = true)
    {C : Nat → Prop} [DecidablePred C] {D : ParsedHent → Prop} [DecidablePred D]
    (kind : ∀ (t : FinishedTask b fuel env) line, D (t.parsedLine names line) ↔ C line.icall)
    {st : HentState} {side : MpiStats → Nat × Int → Traffic}
    (right : TrafficOf (job.parsedHents names) st side D) :
    TrafficAccounts job names st side C := by
  have pair : ∀ (h : ParsedHent) p, h.pair = p ∧ D h ↔ h.irank = p.1 ∧ h.iorank = p.2 ∧ D h := by
    intro h p
    rw [← and_assoc]
    exact and_congr_left' Prod.ext_iff
  have both : ∀ (Q : ParsedHent → Prop) [DecidablePred Q] p,
      ((job.parsedHents names).filter fun h => Q h).filter (fun h => h.pair = p ∧ D h) =
        (job.parsedHents names).filter fun h =>
          (Q h ∧ h.irank = p.1) ∧ h.iorank = p.2 ∧ D h := by
    intro Q _ p
    rw [List.filter_filter]
    refine List.filter_congr fun h _ => ?_
    rw [← Bool.decide_and, decide_eq_decide, pair, and_comm, and_assoc]
  refine ⟨fun p => ?_, fun label p => ?_, fun place p => ?_⟩
  · have of := right.whole p
    simp only [pair] at of
    exact traffic_accounts full (fun place => place.1 = p.1) p.2 kind of
  · have of := right.region label p
    rw [both] at of
    exact traffic_accounts full (fun place => place.2 = label ∧ place.1 = p.1) p.2 kind of
  · have of := right.taskRegion place p
    rw [both] at of
    exact traffic_accounts full (fun place' => place' = place ∧ place'.1 = p.1) p.2 kind of

/-- **The messages `ipm_parse` finds between two ranks are those the tasks have sent and
received**, in the job, in each of its regions and in each region of a task: as many of them,
and as much data but for the bits that culls have taken from the sizes.  No key of a task has lost
more of the size of its event than the task's masks take in the end. -/
theorem jobTraffic_account {job : FinishedJob b fuel env} {labels : List Label}
    (dat : Label → Option DataClass) {x : Nat → TextRest} {v : Label}
    (version : Version v) (known : knownVersion v = true) (plainNames : PlainNames names)
    (plainRest : ∀ t ∈ job.tasks, PlainRest (x t.rank) ∧ (x t.rank).ipmVersion = v)
    (same : job.SameRegions labels) (full : names.logFull = true) (some_ : job.tasks ≠ []) :
    ∃ s, Runs.run (TextState.parseText dat) textInit (job.text names x) = .ok s ∧
      TrafficAccounts job names s.state.tables.hents MpiStats.tx (SendsData dat names) ∧
      TrafficAccounts job names s.state.tables.hents MpiStats.rx (ReceivesData dat names) ∧
      ∀ t ∈ job.tasks,
        Multiset.Rel (KeptKey t.state.table) (t.state.table.marks b) t.events := by
  rcases run_finishedHents dat version known plainNames plainRest same some_ with ⟨s, ran, hents⟩
  refine ⟨s, ran, ?_⟩
  rw [hents]
  exact ⟨trafficAccounts full (fun _ _ => Iff.rfl) (parse_tx _),
    trafficAccounts full (fun _ _ => Iff.rfl) (parse_rx _),
    fun t _ => t.sized.kept fun e logged => (t.inBounds e logged).1⟩

/-- The messages of both tasks. -/
theorem jobTraffic_account_timed :
    ∃ s, Runs.run (TextState.parseText sendDat) textInit
        (timedJob.text timedNames fun _ => smallRest) = .ok s ∧
      TrafficAccounts timedJob timedNames s.state.tables.hents MpiStats.tx
        (SendsData sendDat timedNames) ∧
      TrafficAccounts timedJob timedNames s.state.tables.hents MpiStats.rx
        (ReceivesData sendDat timedNames) ∧
      ∀ t ∈ timedJob.tasks,
        Multiset.Rel (KeptKey t.state.table) (t.state.table.marks .five) t.events :=
  jobTraffic_account sendDat smallRest_version.1 smallRest_version.2 timedNames_plain
    (fun _ _ => ⟨smallRest_plain, rfl⟩) timedJob_same rfl (List.cons_ne_nil _ _)

end Job

end Ipm
