import Ipm.Trace.Regions

/-!
# Tracing by rank

IPM_MPI_TRACE with a `rank:` clause, from `ipm_mpi_init` on (`src/bin/make_wrappers`).  The clause
is read in `ipm_init`, while `mpi_rank` is -1; the rank of the task comes afterwards.

* `mpiInit_trcActive`: tracing starts on the tasks of a list that names -1.
* `quiet_iff`: when no event of a run finds IPM_TRC_ACTIVE.
* `rankTracing_iff`: the list is respected exactly when the task matches it as -1 does, or no
  selected region is entered instead.
-/

namespace Ipm

open Scan

/-! ## The list -/

/-- An item of a `rank:` list. -/
inductive RankItem
  | even
  | odd
  | number (digits : Label) (isDigits : IsDigits digits)

def RankItem.text : RankItem → Label
  | even => "even".toList
  | odd => "odd".toList
  | number digits _ => digits

/-- A rank matches the item. -/
def RankItem.Matches (rank : Int) : RankItem → Prop
  | even => rank % 2 = 0
  | odd => rank % 2 = 1
  | number digits _ => rank = digitsVal digits

/-- A rank matches an item of the list. -/
def Listed (items : List RankItem) (rank : Int) : Prop := ∃ item ∈ items, item.Matches rank

/-- `rank:item+item+...`. -/
def rankList (items : List RankItem) : Label :=
  "rank:".toList ++ ['+'].intercalate (items.map RankItem.text)

theorem RankItem.text_word (item : RankItem) : item.text ≠ [] ∧ '+' ∉ item.text := by
  cases item with
  | even => decide
  | odd => decide
  | number digits isDigits =>
      refine ⟨isDigits.1, fun mem => ?_⟩
      exact (isDigits.digit mem).2.2 rfl

/-- The clause names -1 with the item: `odd` does, and a number that becomes -1 as an int, such
as 4294967295. -/
def RankItem.NamesUnset : RankItem → Prop
  | even => False
  | odd => True
  | number digits _ => longToInt (digitsVal digits) = -1

/-- An item of the list does. -/
def ListsUnset (items : List RankItem) : Prop := ∃ item ∈ items, item.NamesUnset

theorem RankItem.namesRank_unset (item : RankItem) :
    namesRank (-1) item.text = true ↔ item.NamesUnset := by
  cases item with
  | even => exact iff_of_false (by decide) id
  | odd => exact iff_of_true (by decide) trivial
  | number digits isDigits =>
      have notEven : digits ≠ "even".toList := by
        rintro rfl
        exact absurd (isDigits.2 'e' (by decide)) (by decide)
      have notOdd : digits ≠ "odd".toList := by
        rintro rfl
        exact absurd (isDigits.2 'o' (by decide)) (by decide)
      rw [namesRank, text, beq_eq_false_iff_ne.mpr notEven, beq_eq_false_iff_ne.mpr notOdd,
        atoi_digits isDigits, Bool.false_and, Bool.false_and, Bool.false_or, Bool.false_or,
        beq_iff_eq]
      rfl

theorem rankSelected_rankList (items : List RankItem) :
    rankSelected (-1) (rankList items) = true ↔ ListsUnset items := by
  have words : ∀ t ∈ items.map RankItem.text, t ≠ [] ∧ '+' ∉ t := by
    intro t mem
    obtain ⟨item, -, rfl⟩ := List.mem_map.1 mem
    exact item.text_word
  have rest : (rankList items).drop 5 = ['+'].intercalate (items.map RankItem.text) :=
    List.drop_left' rfl
  rw [rankSelected, rest, tokens_intercalate words, List.any_map, List.any_eq_true]
  exact exists_congr fun item => and_congr_right fun _ => item.namesRank_unset

/-! ## MPI_Init -/

/-- A task after MPI_Init. -/
structure MpiTask where
  mpiRank : Int
  trace : TraceState

inductive MpiInitStop
  | trace (stop : TrcStop)
  | region (stop : RegionStop)
deriving DecidableEq

/-- `ipm_mpi_init`: `ipm_init`, the rank in MPI_COMM_WORLD, and the first region. -/
def mpiInit (env : TrcEnv) (settings : RegionSettings) (stamp : Rat) (opt : Label) (rank : Nat)
    (enter leave : Reading) : Except MpiInitStop MpiTask := do
  let t ← (traceInit env settings stamp opt).mapError .trace
  let t ← (traceStep t (.region ⟨1, noregion, enter, leave⟩)).mapError .region
  return ⟨rank, t⟩

/-- A clause other than `time:` leaves the time window. -/
theorem trcClause_timeInit {env : TrcEnv} {rank : Int} {s s' : TrcSettings} {text : Label}
    (other : isClause "time:" text = false) (ok : trcClause env rank s text = .ok s') :
    s'.timeInit = s.timeInit := by
  have notTime : ¬ clauseKind text = some .time := by
    intro kind
    exact Bool.false_ne_true (other.symm.trans (clauseKind_eq_some (k := .time).mp kind))
  have untimed : timeInitBy text = none := if_neg notTime
  rw [(trcClause_effect ok).timeInit, untimed, Option.getD_none]

theorem ipmTrcSelect_timeInit {env : TrcEnv} {rank : Int} {s s' : TrcSettings} {opt : Label}
    (untimed : ∀ c ∈ tokens ',' opt, isClause "time:" c = false)
    (ok : ipmTrcSelect env rank s opt = .ok s') : s'.timeInit = s.timeInit :=
  Runs.run_invariant (I := fun u => u.timeInit = s.timeInit)
    (G := fun _ c => isClause "time:" c = false) rfl
    (fun inv other stepped => (trcClause_timeInit other stepped).trans inv)
    (fun _ c visit => untimed c visit.mem) ok

section

variable {env : TrcEnv} {settings : RegionSettings} {stamp : Rat} {opt : Label} {r : Nat}
  {enter leave : Reading} {task : MpiTask} {items : List RankItem} {before after : List Label}

/-- Tracing starts on the tasks of a list that names -1, or where the first region is
selected. -/
theorem mpiInit_trcActive (clauses : tokens ',' opt = before ++ rankList items :: after)
    (others : ∀ c ∈ before ++ after, isClause "rank:" c = false ∧ isClause "time:" c = false)
    (start : mpiInit env settings stamp opt r enter leave = .ok task) :
    (task.trace.region.trcActive = true ↔
      ListsUnset items ∨ Selects task.trace.region = true) ∧ task.trace.alarm = .none := by
  obtain ⟨t₀, started, rest⟩ := Runs.bind_eq_ok start
  obtain ⟨t₁, entered, rest⟩ := Runs.bind_eq_ok rest
  cases rest
  obtain ⟨s, selected, rest⟩ := Runs.bind_eq_ok (Runs.mapError_eq_ok started)
  cases rest
  obtain ⟨region, moved, rest⟩ := Runs.bind_eq_ok (Runs.mapError_eq_ok entered)
  cases rest
  have isRank : isClause "rank:" (rankList items) = true := by
    rw [isClause, List.isPrefixOf_iff_prefix]
    exact List.prefix_append _ _
  have untimed : ∀ c ∈ tokens ',' opt, isClause "time:" c = false := by
    intro c mem
    rw [clauses, List.mem_append, List.mem_cons] at mem
    rcases mem with mem | rfl | mem
    · exact (others c (List.mem_append_left _ mem)).2
    · rfl
    · exact (others c (List.mem_append_right _ mem)).2
  have unsliced : s.timeInit.nonneg = false := by
    rw [ipmTrcSelect_timeInit untimed selected]
    rfl
  have active : s.active = true ↔ ListsUnset items := by
    have filtered : ∀ l : List Label, (∀ c ∈ l, isClause "rank:" c = false) →
        l.filter (isClause "rank:") = [] := by
      intro l none
      refine List.filter_eq_nil_iff.mpr fun c mem => ?_
      rw [none c mem]
      exact Bool.false_ne_true
    rw [ipmTrcSelect_active selected, clauses, List.filter_append, List.filter_cons_of_pos isRank,
      filtered before fun c mem => (others c (List.mem_append_left _ mem)).1,
      filtered after fun c mem => (others c (List.mem_append_right _ mem)).1]
    exact rankSelected_rankList items
  constructor
  · change region.trcActive = true ↔ _ ∨ Selects region = true
    rw [ipmRegion_trcActive moved, Bool.or_eq_true, ← active]
    change (s.active && !s.timeInit.nonneg) = true ∨ _ ↔ _
    rw [unsliced, Bool.not_false, Bool.and_true]
  · change (if s.timeInit.nonneg = true then _ else _) = Alarm.none
    rw [unsliced, if_neg Bool.false_ne_true]

end

/-! ## The run -/

/-- The action, which ends in this state, has entered a selected region. -/
def TraceAction.selects (t : TraceState) : TraceAction → Bool
  | .region _ => Selects t.region
  | _ => false

/-- A region call of the run enters a selected region. -/
def entersSelected : TraceState → List TraceAction → Bool
  | _, [] => false
  | t, a :: as =>
      match traceStep t a with
      | .ok t' => a.selects t' || entersSelected t' as
      | .error _ => false

/-- No event of the run finds IPM_TRC_ACTIVE. -/
def Quiet (t : TraceState) (as : List TraceAction) : Prop :=
  ∀ u e, Runs.Visit traceStep t as u (.event e) → u.region.trcActive = false

/-- The list is respected: IPM_TRC_ACTIVE is set when MPI_Init returns on a task that matches
it, and at no event of a task that does not. -/
structure RankTracing (items : List RankItem) (task : MpiTask) (as : List TraceAction) : Prop where
  listed : Listed items task.mpiRank → task.trace.region.trcActive = true
  unlisted : ¬ Listed items task.mpiRank → Quiet task.trace as

section

variable {t u : TraceState} {as pre : List TraceAction}

theorem entersSelected_cons {t t' : TraceState} {a : TraceAction}
    (stepped : traceStep t a = .ok t') (as : List TraceAction) :
    entersSelected t (a :: as) = (a.selects t' || entersSelected t' as) := by
  rw [entersSelected, stepped]

/-- Without an alarm only a region call sets IPM_TRC_ACTIVE, and only an event that finds it
clears it. -/
theorem traceStep_trcActive {t t' : TraceState} {a : TraceAction} (noAlarm : t.alarm = .none)
    (stepped : traceStep t a = .ok t') : t'.alarm = .none ∧
      (a.event? = none ∨ t.region.trcActive = false →
        t'.region.trcActive = (t.region.trcActive || a.selects t')) := by
  cases a with
  | region c =>
      obtain ⟨region, moved, rest⟩ := Runs.bind_eq_ok stepped
      cases rest
      exact ⟨noAlarm, fun _ => ipmRegion_trcActive moved⟩
  | alarm =>
      cases stepped
      have same : t.onAlarm = t := by rw [TraceState.onAlarm, noAlarm]
      rw [same]
      exact ⟨noAlarm, fun _ => (Bool.or_false _).symm⟩
  | event e =>
      have traced : ∀ (t : TraceState) (r : TrcRecord), (t.ipmTrace r).alarm = t.alarm := by
        intro t r
        unfold TraceState.ipmTrace
        split <;> rfl
      cases stepped
      constructor
      · unfold traceEvent
        split
        · rw [traced, traced, noAlarm]
        · exact noAlarm
      · intro given
        rcases given with noEvent | inactive
        · cases noEvent
        · rw [traceEvent, TraceState.traces, inactive, Bool.false_and,
            if_neg Bool.false_ne_true, inactive]
          rfl

/-- A run that starts inactive and enters no selected region ends inactive. -/
theorem inactive_of_entersSelected (noAlarm : t.alarm = .none)
    (inactive : t.region.trcActive = false) (none : entersSelected t pre = false)
    (ran : Runs.run traceStep t pre = .ok u) : u.region.trcActive = false := by
  induction pre generalizing t with
  | nil =>
      cases ran
      exact inactive
  | cons a pre ih =>
      obtain ⟨t', stepped, rest⟩ := Runs.run_cons_eq_ok ran
      obtain ⟨noAlarm', step⟩ := traceStep_trcActive noAlarm stepped
      rw [entersSelected_cons stepped, Bool.or_eq_false_iff] at none
      refine ih noAlarm' ?_ none.2 rest
      rw [step (Or.inr inactive), inactive, none.1]
      rfl

/-- A run in which no event clears the flag, and which ends inactive, starts inactive and enters
no selected region. -/
theorem entersSelected_of_inactive (noAlarm : t.alarm = .none) (quiet : Quiet t pre)
    (ran : Runs.run traceStep t pre = .ok u) (inactive : u.region.trcActive = false) :
    t.region.trcActive = false ∧ entersSelected t pre = false := by
  induction pre generalizing t with
  | nil =>
      cases ran
      exact ⟨inactive, rfl⟩
  | cons a pre ih =>
      obtain ⟨t', stepped, rest⟩ := Runs.run_cons_eq_ok ran
      obtain ⟨noAlarm', step⟩ := traceStep_trcActive noAlarm stepped
      obtain ⟨inactive', none⟩ := ih noAlarm' (fun v e visit => quiet v e (visit.tail stepped)) rest
      have passed : a.event? = Option.none ∨ t.region.trcActive = false := by
        cases a with
        | event e => exact Or.inr (quiet t e (.head t _ pre))
        | _ => exact Or.inl rfl
      rw [step passed, Bool.or_eq_false_iff] at inactive'
      rw [entersSelected_cons stepped, inactive'.2, none]
      exact ⟨inactive'.1, rfl⟩

/-- No event of a run finds IPM_TRC_ACTIVE exactly when before each of them the flag was not
set at the start, and no selected region has been entered. -/
theorem quiet_iff (noAlarm : t.alarm = .none) (ran : Runs.run traceStep t as = .ok u) :
    Quiet t as ↔ ∀ pre e, pre ++ [.event e] <+: as →
      t.region.trcActive = false ∧ entersSelected t pre = false := by
  constructor
  · intro quiet pre e isPre
    obtain ⟨post, rfl⟩ := isPre
    rw [List.append_assoc] at ran
    obtain ⟨v, before, -⟩ := Runs.run_append_eq_ok ran
    have visit : Runs.Visit traceStep t (pre ++ [.event e] ++ post) v (.event e) :=
      ⟨pre, List.prefix_append _ _, before⟩
    refine entersSelected_of_inactive noAlarm (fun w e' visit' => quiet w e' ?_) before
      (quiet v e visit)
    exact visit'.of_prefix (by rw [List.append_assoc]; exact List.prefix_append _ _)
  · rintro none v e ⟨pre, isPre, before⟩
    obtain ⟨inactive, unselected⟩ := none pre e isPre
    exact inactive_of_entersSelected noAlarm inactive unselected before

end

/-- The list is respected in a run exactly when a task that matches it is one of those on which
tracing starts, and for a task that does not, tracing does not start and no selected region is
entered before an event. -/
theorem rankTracing_iff {env : TrcEnv} {settings : RegionSettings} {stamp : Rat} {opt : Label}
    {r : Nat} {enter leave : Reading} {task : MpiTask} {items : List RankItem}
    {before after : List Label} {as : List TraceAction} {t : TraceState}
    (clauses : tokens ',' opt = before ++ rankList items :: after)
    (others : ∀ c ∈ before ++ after, isClause "rank:" c = false ∧ isClause "time:" c = false)
    (start : mpiInit env settings stamp opt r enter leave = .ok task)
    (ran : Runs.run traceStep task.trace as = .ok t) :
    RankTracing items task as ↔
      (Listed items task.mpiRank → ListsUnset items ∨ Selects task.trace.region = true) ∧
      (¬ Listed items task.mpiRank → ∀ pre e, pre ++ [.event e] <+: as →
        (¬ ListsUnset items ∧ Selects task.trace.region = false) ∧
          entersSelected task.trace pre = false) := by
  obtain ⟨active, noAlarm⟩ := mpiInit_trcActive clauses others start
  have inactive : task.trace.region.trcActive = false ↔
      ¬ ListsUnset items ∧ Selects task.trace.region = false := by
    rw [← Bool.not_eq_true, active, not_or, Bool.not_eq_true]
  simp only [← active, ← inactive, ← quiet_iff noAlarm ran]
  exact ⟨fun ⟨listed, unlisted⟩ => ⟨listed, unlisted⟩, fun ⟨listed, unlisted⟩ => ⟨listed, unlisted⟩⟩

/-- Task 1 of `rank:odd`, and an event. -/
theorem rankTracing_odd :
    ∃ task t, mpiInit .small .plain 0 "rank:odd".toList 1 (.at 1) (.at 2) = .ok task ∧
      Runs.run traceStep task.trace [.event ⟨1, 7, 3, 4⟩] = .ok t ∧
      RankTracing [.odd] task [.event ⟨1, 7, 3, 4⟩] := by
  have ran : Runs.okWith (mpiInit .small .plain 0 "rank:odd".toList 1 (.at 1) (.at 2))
      (fun task => task.mpiRank == 1 && Runs.okWith
        (Runs.run traceStep task.trace [.event ⟨1, 7, 3, 4⟩]) fun _ => true) = true := by
    decide +kernel
  obtain ⟨task, start, rest⟩ := Runs.okWith_eq_true ran
  rw [Bool.and_eq_true, beq_iff_eq] at rest
  obtain ⟨t, ended, -⟩ := Runs.okWith_eq_true rest.2
  have clauses : tokens ',' "rank:odd".toList = [] ++ rankList [.odd] :: [] := by decide
  have listed : Listed [.odd] task.mpiRank := ⟨.odd, List.mem_singleton_self _, by rw [rest.1]; rfl⟩
  refine ⟨task, t, start, ended, (rankTracing_iff clauses ?_ start ended).mpr ⟨fun _ => ?_, ?_⟩⟩
  · intro c mem
    cases mem
  · exact Or.inl ⟨.odd, List.mem_singleton_self _, trivial⟩
  · exact fun unlisted => absurd listed unlisted

theorem isDigits_zero : IsDigits ['0'] := by
  refine ⟨List.cons_ne_nil _ _, fun c mem => ?_⟩
  rw [List.mem_singleton.mp mem]
  rfl

/-- With `rank:0` tracing is not active on task 0. -/
theorem rankTracing_zero :
    ∃ task, mpiInit .small .plain 0 "rank:0".toList 0 (.at 1) (.at 2) = .ok task ∧
      ¬ RankTracing [.number ['0'] isDigits_zero] task [] := by
  have ran : Runs.okWith (mpiInit .small .plain 0 "rank:0".toList 0 (.at 1) (.at 2))
      (fun task => task.mpiRank == 0 && !task.trace.region.trcActive) = true := by
    decide +kernel
  obtain ⟨task, start, rest⟩ := Runs.okWith_eq_true ran
  rw [Bool.and_eq_true, beq_iff_eq, Bool.not_eq_true'] at rest
  refine ⟨task, start, fun tracing => ?_⟩
  have active := tracing.listed ⟨_, List.mem_singleton_self _, rest.1⟩
  rw [rest.2] at active
  cases active

end Ipm
