import Mathlib.Algebra.Group.Nat.Even
import Mathlib.Data.List.Induction
import Ipm.Trace.Select

/-!
# The trace buffer

`ipm_trace` and the alarms of a time slice (`src/ipm_trace.c`), the set-up of the buffer in
`ipm_init`, and the events of the wrappers with IPM_TRC_ACTIVE and CALL_OPT_TRACE.

* `traceRun_stored`: a run stores the records of its traced events, up to
  `ipm_trc_count_max`.
* `trace_safe_iff`: they fit the buffer and are complete pairs exactly when the buffer has
  been allocated, is large enough, and its last pair is not cut.
-/

namespace Ipm

open Scan

/-! ## State -/

/-- `struct ipm_trc_ent` without the hardware counters. -/
structure TrcRecord where
  key : Nat
  t : Rat

/-- The handler of a pending alarm. -/
inductive Alarm
  | none
  | tron
  | troff
deriving DecidableEq

/-- The trace fields of `task` after the selection, with the regions.  The buffer is the
number of entries it has been allocated for, `stored` the entries stored, each with its
index. -/
structure TraceState where
  region : RegionState
  callMask : Nat → Nat
  trcCount : Nat
  trcCountMax : Nat
  trcBuf : Option Nat
  alarm : Alarm
  timeFinal : Double
  stored : List (TrcRecord × Nat)

/-- `alarm(seconds)`; no alarm is pending after zero seconds. -/
def setAlarm (handler : Alarm) (seconds : Double) : Alarm :=
  if seconds.toUInt32 = 0 then .none else handler

/-- `ipm_init`, after `ipm_trc_select` has read IPM_MPI_TRACE while `mpi_rank` is -1. -/
def traceInit (env : TrcEnv) (settings : RegionSettings) (stamp : Rat) (opt : Label) :
    Except TrcStop TraceState := do
  let s ← ipmTrcSelect env (-1) (.init env) opt
  let countMax :=
    if s.active ∧ s.countMax = 0 then 1024 * 1024 / 2 / env.sizeofEnt else s.countMax
  let sliced := s.timeInit.nonneg
  .ok {
    region := ipmInit { settings with
      trcNregion := s.nregion
      trcMaskRegion := s.maskRegion
      trcMaskRegionIti := s.maskRegionIti
      trcMaskRegionItf := s.maskRegionItf
      trcActive := s.active && !sliced } stamp
    callMask := s.callMask
    trcCount := 0
    trcCountMax := countMax
    trcBuf := if s.active then some (countMax * env.sizeofEnt % 2 ^ 64 / env.sizeofEnt) else none
    alarm := if sliced then setAlarm .tron s.timeInit else .none
    timeFinal := s.timeFinal
    stored := [] }

/-! ## Steps -/

namespace TraceState

/-- Set or clear IPM_TRC_ACTIVE. -/
def setActive (t : TraceState) (active : Bool) : TraceState :=
  { t with region := { t.region with trcActive := active } }

/-- `ipm_trace`. -/
def ipmTrace (t : TraceState) (record : TrcRecord) : TraceState :=
  if t.trcCountMax ≤ t.trcCount then t.setActive false
  else { t with stored := t.stored ++ [(record, t.trcCount)], trcCount := t.trcCount + 1 }

/-- SIGALRM: `ipm_trc_mask_time_tron` or `ipm_trc_mask_time_troff`. -/
def onAlarm (t : TraceState) : TraceState :=
  match t.alarm with
  | .none => t
  | .tron => { t.setActive true with alarm := setAlarm .troff t.timeFinal }
  | .troff => { t.setActive false with alarm := .none }

end TraceState

/-- An event of a wrapper: its call, its key and the two times. -/
structure TraceEvent where
  call : Nat
  key : Nat
  t1 : Rat
  t2 : Rat

/-- The enter and the exit record. -/
def TraceEvent.records (e : TraceEvent) : List TrcRecord := [⟨e.key, e.t1⟩, ⟨e.key, e.t2⟩]

/-- The wrapper traces the event. -/
def TraceState.traces (t : TraceState) (e : TraceEvent) : Bool :=
  t.region.trcActive && t.callMask e.call &&& callOptTrace != 0

/-- The trace section of a wrapper. -/
def traceEvent (t : TraceState) (e : TraceEvent) : TraceState :=
  if t.traces e then (t.ipmTrace ⟨e.key, e.t1⟩).ipmTrace ⟨e.key, e.t2⟩ else t

/-- What happens after `ipm_init`. -/
inductive TraceAction
  | region (c : RegionCall)
  | alarm
  | event (e : TraceEvent)

def traceStep (t : TraceState) : TraceAction → Except RegionStop TraceState
  | .region c => do
      let region ← ipmRegion t.region c
      .ok { t with region := region }
  | .alarm => .ok t.onAlarm
  | .event e => .ok (traceEvent t e)

/-! ## The records of a run -/

/-- The event, if the action is one. -/
def TraceAction.event? : TraceAction → Option TraceEvent
  | .event e => some e
  | _ => none

/-- The event, if the action is one that is traced. -/
def TraceState.traced (t : TraceState) (a : TraceAction) : List TraceEvent :=
  (a.event?.filter t.traces).toList

/-- The events a run traces. -/
def tracedRun : TraceState → List TraceAction → List TraceEvent
  | _, [] => []
  | t, a :: as =>
      t.traced a ++ match traceStep t a with
        | .ok t' => tracedRun t' as
        | .error _ => []

/-- The entries stored are the first `ipm_trc_count_max` of `rs`. -/
structure StoredOf (t : TraceState) (rs : List TrcRecord) : Prop where
  stored : t.stored = (rs.take t.trcCountMax).zipIdx
  count : t.trcCount = (rs.take t.trcCountMax).length

/-- One record more. -/
theorem StoredOf.ipmTrace {t : TraceState} {rs : List TrcRecord} (inv : StoredOf t rs)
    (r : TrcRecord) : StoredOf (t.ipmTrace r) (rs ++ [r]) := by
  have count := inv.count
  rw [List.length_take] at count
  unfold TraceState.ipmTrace
  split
  · rename_i full
    have same : (rs ++ [r]).take t.trcCountMax = rs.take t.trcCountMax :=
      List.take_append_of_le_length (by omega)
    constructor
    · change t.stored = ((rs ++ [r]).take t.trcCountMax).zipIdx
      rw [same, inv.stored]
    · change t.trcCount = ((rs ++ [r]).take t.trcCountMax).length
      rw [same, inv.count]
  · rename_i room
    have before : rs.take t.trcCountMax = rs := List.take_of_length_le (by omega)
    have after : (rs ++ [r]).take t.trcCountMax = rs ++ [r] := by
      refine List.take_of_length_le ?_
      rw [List.length_append, List.length_singleton]
      omega
    have length : t.trcCount = rs.length := by omega
    constructor
    · change t.stored ++ [(r, t.trcCount)] = ((rs ++ [r]).take t.trcCountMax).zipIdx
      rw [after, inv.stored, before, List.zipIdx_append, length, Nat.zero_add]
      rfl
    · change t.trcCount + 1 = ((rs ++ [r]).take t.trcCountMax).length
      rw [after, List.length_append, length]
      rfl

/-- What no step changes. -/
theorem traceStep_frame {t t' : TraceState} {a : TraceAction} (stepped : traceStep t a = .ok t') :
    t'.trcCountMax = t.trcCountMax ∧ t'.trcBuf = t.trcBuf ∧ t'.callMask = t.callMask := by
  have traced : ∀ (t : TraceState) (r : TrcRecord), (t.ipmTrace r).trcCountMax = t.trcCountMax ∧
      (t.ipmTrace r).trcBuf = t.trcBuf ∧ (t.ipmTrace r).callMask = t.callMask := by
    intro t r
    unfold TraceState.ipmTrace
    split <;> exact ⟨rfl, rfl, rfl⟩
  cases a with
  | region c =>
      obtain ⟨region, -, rest⟩ := Runs.bind_eq_ok stepped
      cases rest
      exact ⟨rfl, rfl, rfl⟩
  | alarm =>
      cases stepped
      unfold TraceState.onAlarm
      cases t.alarm <;> exact ⟨rfl, rfl, rfl⟩
  | event e =>
      cases stepped
      unfold traceEvent
      split
      · have first := traced t ⟨e.key, e.t1⟩
        have second := traced (t.ipmTrace ⟨e.key, e.t1⟩) ⟨e.key, e.t2⟩
        exact ⟨second.1.trans first.1, second.2.1.trans first.2.1, second.2.2.trans first.2.2⟩
      · exact ⟨rfl, rfl, rfl⟩

/-- A step stores the records of the event it traces. -/
theorem StoredOf.traceStep {t t' : TraceState} {a : TraceAction} {rs : List TrcRecord}
    (inv : StoredOf t rs) (stepped : traceStep t a = .ok t') :
    StoredOf t' (rs ++ (t.traced a).flatMap TraceEvent.records) := by
  cases a with
  | region c =>
      obtain ⟨region, -, rest⟩ := Runs.bind_eq_ok stepped
      cases rest
      rw [show t.traced (.region c) = [] from rfl, List.flatMap_nil, List.append_nil]
      exact ⟨inv.stored, inv.count⟩
  | alarm =>
      cases stepped
      rw [show t.traced .alarm = [] from rfl, List.flatMap_nil, List.append_nil]
      unfold TraceState.onAlarm
      cases t.alarm <;> exact ⟨inv.stored, inv.count⟩
  | event e =>
      cases stepped
      unfold traceEvent TraceState.traced TraceAction.event?
      cases traces : t.traces e with
      | false =>
          simp only [Option.filter_some, traces, Bool.false_eq_true, if_false, Option.toList_none,
            List.flatMap_nil, List.append_nil]
          exact inv
      | true =>
          simp only [Option.filter_some, traces, if_true, Option.toList_some,
            List.flatMap_cons, List.flatMap_nil, List.append_nil]
          have both := (inv.ipmTrace ⟨e.key, e.t1⟩).ipmTrace ⟨e.key, e.t2⟩
          rwa [List.append_assoc] at both

/-- A run stores the records of the events it traces, up to `ipm_trc_count_max`. -/
theorem traceRun_stored {t t' : TraceState} {as : List TraceAction} {rs : List TrcRecord}
    (inv : StoredOf t rs) (ran : Runs.run traceStep t as = .ok t') :
    StoredOf t' (rs ++ (tracedRun t as).flatMap TraceEvent.records) ∧
      t'.trcCountMax = t.trcCountMax ∧ t'.trcBuf = t.trcBuf := by
  induction as generalizing t rs with
  | nil =>
      cases ran
      rw [tracedRun, List.flatMap_nil, List.append_nil]
      exact ⟨inv, rfl, rfl⟩
  | cons a as ih =>
      obtain ⟨u, stepped, rest⟩ := Runs.run_cons_eq_ok ran
      obtain ⟨stored, max, buf⟩ := ih (inv.traceStep stepped) rest
      obtain ⟨max', buf', -⟩ := traceStep_frame stepped
      rw [tracedRun, stepped, List.flatMap_append, ← List.append_assoc]
      exact ⟨stored, max.trans max', buf.trans buf'⟩

/-- The traced events of a longer run. -/
theorem tracedRun_append {t u : TraceState} {as : List TraceAction}
    (ran : Runs.run traceStep t as = .ok u) (bs : List TraceAction) :
    tracedRun t (as ++ bs) = tracedRun t as ++ tracedRun u bs := by
  induction as generalizing t with
  | nil =>
      cases ran
      rfl
  | cons a as ih =>
      obtain ⟨v, stepped, rest⟩ := Runs.run_cons_eq_ok ran
      rw [List.cons_append, tracedRun, tracedRun, stepped, List.append_assoc]
      exact congrArg _ (ih rest)

/-- The traced events of a run are events of it. -/
theorem tracedRun_sublist (t : TraceState) (as : List TraceAction) :
    (tracedRun t as).Sublist (as.filterMap TraceAction.event?) := by
  induction as generalizing t with
  | nil => exact List.Sublist.refl _
  | cons a as ih =>
      have rest : (match traceStep t a with
          | .ok t' => tracedRun t' as
          | .error _ => []).Sublist (as.filterMap TraceAction.event?) := by
        cases traceStep t a with
        | ok t' => exact ih t'
        | error _ => exact List.nil_sublist _
      rw [tracedRun, List.filterMap_cons]
      unfold TraceState.traced
      cases a.event? with
      | none => exact rest
      | some e =>
          simp only [Option.filter_some]
          split
          · exact rest.cons_cons e
          · exact rest.cons e

/-! ## Safety -/

/-- Every entry has been stored inside of the buffer, and the records are the complete pairs
of some of the events. -/
structure TraceSafe (events : List TraceEvent) (t : TraceState) : Prop where
  inBuffer : ∀ s ∈ t.stored, ∃ capacity, t.trcBuf = some capacity ∧ s.2 < capacity
  paired : ∃ es : List TraceEvent, es.Sublist events ∧
    t.stored.map Prod.fst = es.flatMap TraceEvent.records

/-- `n` traced events fit the buffer with both their records. -/
def TraceState.HasRoom (t : TraceState) (n : Nat) : Prop :=
  n = 0 ∨ t.trcCountMax = 0 ∨ ∃ capacity, t.trcBuf = some capacity ∧
    min (2 * n) t.trcCountMax ≤ capacity ∧ (Even t.trcCountMax ∨ 2 * n ≤ t.trcCountMax)

theorem length_records (es : List TraceEvent) :
    (es.flatMap TraceEvent.records).length = 2 * es.length := by
  induction es with
  | nil => rfl
  | cons e es ih =>
      rw [List.flatMap_cons, List.length_append, ih, List.length_cons]
      change 2 + 2 * es.length = 2 * (es.length + 1)
      omega

/-- An even number of records are those of the first events. -/
theorem take_records (es : List TraceEvent) (k : Nat) :
    (es.flatMap TraceEvent.records).take (2 * k) = (es.take k).flatMap TraceEvent.records := by
  induction es generalizing k with
  | nil => simp
  | cons e es ih =>
      cases k with
      | zero => rfl
      | succ k =>
          rw [List.flatMap_cons, List.take_succ_cons, List.flatMap_cons, ← ih]
          rfl

/-- A state that stores the records of `es` is safe exactly when they fit. -/
theorem traceSafe_iff {t : TraceState} {es events : List TraceEvent}
    (stored : StoredOf t (es.flatMap TraceEvent.records)) (sub : es.Sublist events) :
    TraceSafe events t ↔ t.HasRoom es.length := by
  have records : t.stored.map Prod.fst = (es.flatMap TraceEvent.records).take t.trcCountMax := by
    rw [stored.stored, List.zipIdx_map_fst]
  have length : t.stored.length = min t.trcCountMax (2 * es.length) := by
    rw [stored.stored, List.length_zipIdx, List.length_take, length_records]
  have index : ∀ i, i < t.stored.length → ∃ s ∈ t.stored, s.2 = i := by
    intro i below
    have below' : i < (List.take t.trcCountMax (es.flatMap TraceEvent.records)).length := by
      rwa [← List.length_zipIdx (i := 0), ← stored.stored]
    refine ⟨((List.take t.trcCountMax (es.flatMap TraceEvent.records))[i], i), ?_, rfl⟩
    rw [stored.stored, List.mem_zipIdx_iff_getElem?]
    exact List.getElem?_eq_getElem below'
  have indexLt : ∀ s ∈ t.stored, s.2 < t.stored.length := by
    intro s mem
    rw [stored.stored] at mem ⊢
    have bound := List.snd_lt_of_mem_zipIdx mem
    rw [List.length_zipIdx]
    omega
  constructor
  · intro safe
    by_cases none : es.length = 0
    · exact Or.inl none
    by_cases closed : t.trcCountMax = 0
    · exact Or.inr (Or.inl closed)
    refine Or.inr (Or.inr ?_)
    obtain ⟨s, mem, last⟩ := index (t.stored.length - 1) (by omega)
    obtain ⟨capacity, buf, below⟩ := safe.inBuffer s mem
    refine ⟨capacity, buf, by omega, ?_⟩
    obtain ⟨es', -, paired⟩ := safe.paired
    have even := congrArg List.length paired
    rw [List.length_map, length, length_records] at even
    by_cases fits : 2 * es.length ≤ t.trcCountMax
    · exact Or.inr fits
    · exact Or.inl ⟨es'.length, by omega⟩
  · intro room
    constructor
    · intro s mem
      have bound := indexLt s mem
      rcases room with none | closed | ⟨capacity, buf, fits, -⟩
      · omega
      · omega
      · exact ⟨capacity, buf, by omega⟩
    · rw [records]
      have all : 2 * es.length ≤ t.trcCountMax →
          (es.flatMap TraceEvent.records).take t.trcCountMax = es.flatMap TraceEvent.records :=
        fun fits => List.take_of_length_le (by rw [length_records]; exact fits)
      rcases room with none | closed | ⟨capacity, buf, -, ⟨k, even⟩ | fits⟩
      · exact ⟨es, sub, all (by omega)⟩
      · exact ⟨[], List.nil_sublist _, by rw [closed]; rfl⟩
      · rw [show t.trcCountMax = 2 * k by omega, take_records]
        exact ⟨es.take k, (List.take_sublist k es).trans sub, rfl⟩
      · exact ⟨es, sub, all fits⟩

/-- Fewer events need less room. -/
theorem TraceState.HasRoom.mono {t : TraceState} {n m : Nat} (room : t.HasRoom n)
    (less : m ≤ n) : t.HasRoom m := by
  rcases room with none | closed | ⟨capacity, buf, fits, even | all⟩
  · exact Or.inl (by omega)
  · exact Or.inr (Or.inl closed)
  · exact Or.inr (Or.inr ⟨capacity, buf, by omega, Or.inl even⟩)
  · exact Or.inr (Or.inr ⟨capacity, buf, by omega, Or.inr (by omega)⟩)

/-- `ipm_init` leaves an empty buffer. -/
theorem traceInit_stored {env : TrcEnv} {settings : RegionSettings} {stamp : Rat} {opt : Label}
    {t₀ : TraceState} (start : traceInit env settings stamp opt = .ok t₀) : StoredOf t₀ [] := by
  obtain ⟨s, -, rest⟩ := Runs.bind_eq_ok start
  cases rest
  exact ⟨by rw [List.take_nil]; rfl, by rw [List.take_nil]; rfl⟩

/-- Trace buffer safety over runs.  Every state a run reaches is safe exactly when the
buffer has room for all the events the run traces. -/
theorem trace_safe_iff (env : TrcEnv) (settings : RegionSettings) (stamp : Rat) (opt : Label)
    (actions : List TraceAction) (t₀ t : TraceState)
    (start : traceInit env settings stamp opt = .ok t₀)
    (ran : Runs.run traceStep t₀ actions = .ok t) :
    (∀ pre u, pre <+: actions → Runs.run traceStep t₀ pre = .ok u →
      TraceSafe (pre.filterMap TraceAction.event?) u) ↔
        t₀.HasRoom (tracedRun t₀ actions).length := by
  have safe : ∀ pre u, Runs.run traceStep t₀ pre = .ok u →
      (TraceSafe (pre.filterMap TraceAction.event?) u ↔
        t₀.HasRoom (tracedRun t₀ pre).length) := by
    intro pre u ran
    obtain ⟨stored, max, buf⟩ := traceRun_stored (traceInit_stored start) ran
    rw [List.nil_append] at stored
    rw [traceSafe_iff stored (tracedRun_sublist t₀ pre), TraceState.HasRoom, max, buf]
    rfl
  constructor
  · intro all
    exact (safe actions t ran).1 (all actions t (List.prefix_refl _) ran)
  · intro room pre u sub reached
    refine (safe pre u reached).2 (room.mono ?_)
    obtain ⟨rest, rfl⟩ := sub
    rw [tracedRun_append reached, List.length_append]
    exact Nat.le_add_right _ _

/-! ## Runs -/

/-- One hardware counter, one call, and trace entries of 24 bytes. -/
def TrcEnv.small : TrcEnv where
  build := .five
  hpmCounters := 1
  hpmCounters_lt := by decide
  callLabel := fun _ => []
  callMask := fun _ => callMaskBprec
  xbuf := .finite 0

/-- A barrier. -/
def barrierEvent : TraceEvent := ⟨1, 2 ^ 48, 1, 2⟩

/-- Three events around the region `a`, with an alarm between them. -/
def threeBarriers : List TraceAction :=
  [.event barrierEvent, .region ⟨1, ['a'], .at 3, .at 4⟩, .alarm, .event ⟨1, 2 ^ 48 + 1, 5, 6⟩,
    .region ⟨-1, ['a'], .at 7, .at 8⟩, .event ⟨1, 2 ^ 48, 9, 10⟩]

/-- The buffer has room for the records of two events, and the third is not stored. -/
theorem trace_safe_four :
    ∃ t₀ t, traceInit .small .plain 0 "mem:0.0001,rank:odd".toList = .ok t₀ ∧
      Runs.run traceStep t₀ threeBarriers = .ok t ∧
      t₀.trcBuf = some 4 ∧ (tracedRun t₀ threeBarriers).length = 3 ∧ t.trcCount = 4 ∧
      ∀ pre u, pre <+: threeBarriers → Runs.run traceStep t₀ pre = .ok u →
        TraceSafe (pre.filterMap TraceAction.event?) u := by
  have ran : Runs.okWith (traceInit .small .plain 0 "mem:0.0001,rank:odd".toList) (fun t₀ =>
      t₀.trcBuf == some 4 && t₀.trcCountMax == 4 && (tracedRun t₀ threeBarriers).length == 3 &&
        Runs.okWith (Runs.run traceStep t₀ threeBarriers) fun t => t.trcCount == 4) = true := by
    decide +kernel
  obtain ⟨t₀, start, sizes⟩ := Runs.okWith_eq_true ran
  simp only [Bool.and_eq_true, beq_iff_eq] at sizes
  obtain ⟨⟨⟨buf, max⟩, events⟩, ran⟩ := sizes
  obtain ⟨t, ended, count⟩ := Runs.okWith_eq_true ran
  refine ⟨t₀, t, start, ended, buf, events, beq_iff_eq.mp count, ?_⟩
  refine (trace_safe_iff .small .plain 0 _ _ t₀ t start ended).mpr (Or.inr (Or.inr ⟨4, buf, ?_⟩))
  rw [max, events]
  decide

/-- The clause `rank:0` clears IPM_TRC_ACTIVE, because `mpi_rank` is still -1, so that no
buffer is allocated; the clause `mem:1` sets its size; the region `a` switches the tracing on,
and the event is stored through the null pointer. -/
theorem trace_unallocated :
    ∃ t₀ t, traceInit .small .plain 0 "rank:0,mem:1,region:a".toList = .ok t₀ ∧
      Runs.run traceStep t₀ [.region ⟨1, ['a'], .at 1, .at 2⟩, .event barrierEvent] = .ok t ∧
      t.trcBuf = none ∧ ¬TraceSafe [barrierEvent] t := by
  have ran : Runs.okWith (traceInit .small .plain 0 "rank:0,mem:1,region:a".toList) (fun t₀ =>
      Runs.okWith (Runs.run traceStep t₀ [.region ⟨1, ['a'], .at 1, .at 2⟩, .event barrierEvent])
        fun t => t.trcBuf.isNone && !t.stored.isEmpty) = true := by
    decide +kernel
  obtain ⟨t₀, start, later⟩ := Runs.okWith_eq_true ran
  obtain ⟨t, ok, bad⟩ := Runs.okWith_eq_true later
  obtain ⟨buf, stored⟩ : t.trcBuf = none ∧ t.stored ≠ [] := by simpa using bad
  refine ⟨t₀, t, start, ok, buf, fun safe => ?_⟩
  obtain ⟨s, rest, cons⟩ := List.exists_cons_of_ne_nil stored
  obtain ⟨capacity, some, -⟩ := safe.inBuffer s (by rw [cons]; exact List.mem_cons_self)
  rw [buf] at some
  cases some

/-- A buffer of one record takes the enter record of an event and not its exit record. -/
theorem trace_cut_pair :
    ∃ t₀ t, traceInit .small .plain 0 "mem:0.00003".toList = .ok t₀ ∧
      Runs.run traceStep t₀ [.event barrierEvent] = .ok t ∧ t.stored.length = 1 ∧
      ¬TraceSafe [barrierEvent] t := by
  have ran : Runs.okWith (traceInit .small .plain 0 "mem:0.00003".toList) (fun t₀ =>
      Runs.okWith (Runs.run traceStep t₀ [.event barrierEvent]) fun t => t.stored.length == 1) =
        true := by
    decide +kernel
  obtain ⟨t₀, start, later⟩ := Runs.okWith_eq_true ran
  obtain ⟨t, ok, cut⟩ := Runs.okWith_eq_true later
  have one : t.stored.length = 1 := by simpa using cut
  refine ⟨t₀, t, start, ok, one, fun safe => ?_⟩
  obtain ⟨es, -, paired⟩ := safe.paired
  have length := congrArg List.length paired
  rw [List.length_map, length_records] at length
  omega

end Ipm
