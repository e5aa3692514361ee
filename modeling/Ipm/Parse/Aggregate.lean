import Mathlib.Algebra.Order.Ring.Rat
import Ipm.Lib.Tally
import Ipm.Region.State

/-!
# Aggregating a job

`ipm_parse` adds up the counters and calls of the tasks of a job, region by region and over
all regions, and keeps the least and the greatest value with the ranks they are from.  Perl
visits the keys of a hash in their sorted order, a table in the order of its entries: no entry
depends on it.

* `regionCounter_of_first`, `regionCounter_min_of_late`: an entry of a counter in a region.
* `regionFunc_right`, `jobCounter_right`: the entries that are always right.
* `jobFunc_max_eq_min`: the maximum of a call over the job is its minimum.
* `aggregated_iff`: when all entries are right.
-/

namespace Ipm

open Tallies

/-! ## The values of the tasks -/

/-- The count and the time of a call. -/
structure FuncValue where
  count : Nat
  time : NNRat
  deriving DecidableEq

/-- `$TR`: the counters and the calls of a task in a region. -/
structure RegionValues where
  counters : Table Label Nat
  funcs : Table Label FuncValue

/-- `$T`: the regions of a task. -/
structure TaskValues where
  rank : Nat
  regions : Table Label RegionValues

/-! ## The entries of regions -/

/-- A counter of a region.  Each field is undefined until it is set. -/
structure CounterStat where
  count : Option Nat
  countMin : Option Nat
  countMinr : Option Nat
  countMax : Option Nat
  countMaxr : Option Nat
  deriving DecidableEq

namespace CounterStat

def undef : CounterStat := ⟨none, none, none, none, none⟩

/-- The first task with the region. -/
def start (rank : Nat) (_ : Option CounterStat) (v : Nat) : CounterStat where
  count := some v
  countMin := some v
  countMinr := some rank
  countMax := some v
  countMaxr := some rank

/-- The first of three loops for a later task.  What is undefined counts as zero. -/
def addCount (e : Option CounterStat) (v : Nat) : CounterStat :=
  let e := e.getD undef
  { e with count := some (e.count.getD 0 + v) }

def raise (rank : Nat) (e : Option CounterStat) (v : Nat) : CounterStat :=
  let e := e.getD undef
  if v > e.countMax.getD 0 then { e with countMax := some v, countMaxr := some rank } else e

def lower (rank : Nat) (e : Option CounterStat) (v : Nat) : CounterStat :=
  let e := e.getD undef
  if v < e.countMin.getD 0 then { e with countMin := some v, countMinr := some rank } else e

end CounterStat

/-- The count and the time of a call.  All fields are set together. -/
structure FuncStat where
  count : Tally Nat Nat
  time : Tally Nat NNRat

/-- One value more, each of the two by its own rule. -/
def FuncStat.noteWith (count : Nat → Option (Tally Nat Nat) → Nat → Tally Nat Nat)
    (time : Nat → Option (Tally Nat NNRat) → NNRat → Tally Nat NNRat)
    (rank : Nat) (e : Option FuncStat) (v : FuncValue) : FuncStat where
  count := count rank (e.map FuncStat.count) v.count
  time := time rank (e.map FuncStat.time) v.time

/-- A call of a region. -/
def FuncStat.note : Nat → Option FuncStat → FuncValue → FuncStat :=
  FuncStat.noteWith Tally.note Tally.note

/-- `$JR`: a region of the job. -/
structure RegionStat where
  ntasks : Nat
  counters : Table Label CounterStat
  funcs : Table Label FuncStat

open CounterStat in
/-- A region of a task goes to the region of the job. -/
def RegionStat.note (rank : Nat) : Option RegionStat → RegionValues → RegionStat
  | none, TR =>
      { ntasks := 1
        counters := Table.each (start rank) ∅ TR.counters
        funcs := Table.each (FuncStat.note rank) ∅ TR.funcs }
  | some JR, TR =>
      { ntasks := JR.ntasks + 1
        counters :=
          Table.each (lower rank)
            (Table.each (raise rank) (Table.each addCount JR.counters TR.counters) TR.counters)
            TR.counters
        funcs := Table.each (FuncStat.note rank) JR.funcs TR.funcs }

/-- `$J->{region}`, the tasks visited in this order. -/
def jobRegions (tasks : List TaskValues) : Table Label RegionStat :=
  tasks.foldl (fun J T => Table.each (RegionStat.note T.rank) J T.regions) ∅

def regionCounter (tasks : List TaskValues) (region counter : Label) : Option CounterStat :=
  ((jobRegions tasks).lookup region).bind fun JR => JR.counters.lookup counter

def regionFunc (tasks : List TaskValues) (region func : Label) : Option FuncStat :=
  ((jobRegions tasks).lookup region).bind fun JR => JR.funcs.lookup func

/-! ## The entries of the job -/

/-- A sum over the regions of a task. -/
def sumCount : Option Nat → Nat → Nat
  | none, v => v
  | some s, v => s + v

def sumFunc (e : Option FuncValue) (v : FuncValue) : FuncValue :=
  match e with
  | none => v
  | some s => ⟨s.count + v.count, s.time + v.time⟩

/-- `$T->{counter}`. -/
def taskCounters (T : TaskValues) : Table Label Nat :=
  T.regions.entries.foldl (fun table TR => Table.each sumCount table TR.2.counters) ∅

/-- `$T->{func}`. -/
def taskFuncs (T : TaskValues) : Table Label FuncValue :=
  T.regions.entries.foldl (fun table TR => Table.each sumFunc table TR.2.funcs) ∅

/-- `$J->{counter}`. -/
def jobCounters (tasks : List TaskValues) : Table Label (Tally Nat Nat) :=
  tasks.foldl (fun J T => Table.each (Tally.note T.rank) J (taskCounters T)) ∅

/-- One value more for a call of the job.  Both comparisons ask for a smaller value. -/
def jobNote {K : Type} [LinearOrder K] [Add K] (rank : Nat) :
    Option (Tally Nat K) → K → Tally Nat K
  | none, v => Tally.single rank v
  | some t, v =>
      { sum := t.sum + v
        min := if v < t.min then v else t.min
        minAt := if v < t.min then rank else t.minAt
        max := if v < t.max then v else t.max
        maxAt := if v < t.max then rank else t.maxAt }

/-- A call of the job. -/
def FuncStat.jobNote : Nat → Option FuncStat → FuncValue → FuncStat :=
  FuncStat.noteWith Ipm.jobNote Ipm.jobNote

/-- `$J->{func}`. -/
def jobFuncs (tasks : List TaskValues) : Table Label FuncStat :=
  tasks.foldl (fun J T => Table.each (FuncStat.jobNote T.rank) J (taskFuncs T)) ∅

/-! ## What they should be -/

section

variable (tasks : List TaskValues)

/-- The ranks of the tasks with a region, and what they have there. -/
def visits (region : Label) : List (Nat × RegionValues) :=
  tasks.filterMap fun T => (T.regions.lookup region).map (Prod.mk T.rank)

/-- The values of a counter in a region, with the ranks of the tasks that have it. -/
def counterValues (region counter : Label) : List (Nat × Nat) :=
  (visits tasks region).filterMap fun x => (x.2.counters.lookup counter).map (Prod.mk x.1)

def funcValues (region func : Label) : List (Nat × FuncValue) :=
  (visits tasks region).filterMap fun x => (x.2.funcs.lookup func).map (Prod.mk x.1)

end

/-- The values of a counter in the regions of a task. -/
def TaskValues.counter (T : TaskValues) (counter : Label) : List Nat :=
  T.regions.entries.filterMap fun TR => TR.2.counters.lookup counter

def TaskValues.func (T : TaskValues) (func : Label) : List FuncValue :=
  T.regions.entries.filterMap fun TR => TR.2.funcs.lookup func

/-- The sum of the values of a task, if it has any. -/
def countTotal (vs : List Nat) : Option Nat := if vs = [] then none else some vs.sum

def funcTotal (vs : List FuncValue) : Option FuncValue :=
  if vs = [] then none
  else some ⟨(vs.map FuncValue.count).sum, (vs.map FuncValue.time).sum⟩

/-- The values of a counter in the tasks that have it. -/
def jobCounterValues (tasks : List TaskValues) (counter : Label) : List (Nat × Nat) :=
  tasks.filterMap fun T => (countTotal (T.counter counter)).map (Prod.mk T.rank)

def jobFuncValues (tasks : List TaskValues) (func : Label) : List (Nat × FuncValue) :=
  tasks.filterMap fun T => (funcTotal (T.func func)).map (Prod.mk T.rank)

/-- The entry of a counter of a region with the fields of a tally. -/
def CounterStat.ofTally (t : Tally Nat Nat) : CounterStat where
  count := some t.sum
  countMin := some t.min
  countMinr := some t.minAt
  countMax := some t.max
  countMaxr := some t.maxAt

/-- The count and the time are right about these values. -/
structure FuncStat.Of (e : FuncStat) (xs : List (Nat × FuncValue)) : Prop where
  count : e.count.Of (xs.map fun x => (x.1, x.2.count))
  time : e.time.Of (xs.map fun x => (x.1, x.2.time))

/-- Every entry has the sum, the extremes and their ranks of the values in the tasks that have
the counter or the call. -/
structure EntriesRight (tasks : List TaskValues) : Prop where
  regionCounters : ∀ region counter, counterValues tasks region counter ≠ [] →
    ∃ t : Tally Nat Nat, regionCounter tasks region counter = some (.ofTally t) ∧
      t.Of (counterValues tasks region counter)
  regionFuncs : ∀ region func, funcValues tasks region func ≠ [] →
    ∃ e : FuncStat, regionFunc tasks region func = some e ∧ e.Of (funcValues tasks region func)
  jobCounters : ∀ counter, jobCounterValues tasks counter ≠ [] →
    ∃ t : Tally Nat Nat, (jobCounters tasks).lookup counter = some t ∧
      t.Of (jobCounterValues tasks counter)
  jobFuncs : ∀ func, jobFuncValues tasks func ≠ [] →
    ∃ e : FuncStat, (jobFuncs tasks).lookup func = some e ∧ e.Of (jobFuncValues tasks func)

/-! ## Counters of a region -/

theorem lookup_jobRegions (tasks : List TaskValues) (region : Label) :
    (jobRegions tasks).lookup region =
      (visits tasks region).foldl (fun e x => some (RegionStat.note x.1 e x.2)) none :=
  Table.lookup_foldl_each RegionStat.note TaskValues.rank TaskValues.regions ∅ tasks region

namespace CounterStat

/-- What the three loops do to an entry. -/
def later (rank : Nat) (e : Option CounterStat) (v : Nat) : CounterStat :=
  lower rank (some (raise rank (some (addCount e v)) v)) v

theorem later_ofTally (rank : Nat) (t : Tally Nat Nat) (v : Nat) :
    later rank (some (ofTally t)) v = ofTally (t.add rank v) := by
  unfold later lower raise addCount ofTally Tally.add
  by_cases more : t.max < v
  · by_cases less : v < t.min <;> simp [more, less]
  · by_cases less : v < t.min <;> simp [more, less]

theorem foldl_later_ofTally (xs : List (Nat × Nat)) (t : Tally Nat Nat) :
    xs.foldl (fun e x => some (later x.1 e x.2)) (some (ofTally t)) =
      some (ofTally (xs.foldl (fun t x => t.add x.1 x.2) t)) := by
  induction xs generalizing t with
  | nil => rfl
  | cons x xs ih =>
      rw [List.foldl_cons, later_ofTally, ih]
      rfl

/-- Nothing is less than an undefined minimum. -/
theorem later_countMin {e : Option CounterStat} (unset : (e.getD undef).countMin = none)
    (rank v : Nat) : (later rank e v).countMin = none := by
  have add : (addCount e v).countMin = none := unset
  have up : (raise rank (some (addCount e v)) v).countMin = none := by
    unfold raise
    dsimp only
    split <;> exact add
  unfold later lower
  rw [if_neg (by rw [Option.getD_some, up]; exact Nat.not_lt_zero v)]
  exact up

theorem foldl_later_countMin {xs : List (Nat × Nat)} (nonempty : xs ≠ [])
    {e : Option CounterStat} (unset : (e.getD undef).countMin = none) :
    ∃ e', xs.foldl (fun e x => some (later x.1 e x.2)) e = some e' ∧ e'.countMin = none := by
  induction xs generalizing e with
  | nil => exact absurd rfl nonempty
  | cons x xs ih =>
      have unset' := later_countMin unset x.1 x.2
      cases xs with
      | nil => exact ⟨_, rfl, unset'⟩
      | cons y xs => exact ih (List.cons_ne_nil y xs) unset'

end CounterStat

open CounterStat

/-- A later task leads the entry of each of its counters through the three loops. -/
theorem lookup_counters_note (rank : Nat) (JR : RegionStat) (TR : RegionValues)
    (counter : Label) :
    (RegionStat.note rank (some JR) TR).counters.lookup counter =
      match TR.counters.lookup counter with
      | none => JR.counters.lookup counter
      | some v => some (later rank (JR.counters.lookup counter) v) := by
  unfold RegionStat.note
  dsimp only
  rw [Table.lookup_each, Table.lookup_each, Table.lookup_each]
  cases TR.counters.lookup counter <;> rfl

theorem foldl_note_counters (xs : List (Nat × RegionValues)) (JR : RegionStat)
    (counter : Label) :
    (xs.foldl (fun e x => some (RegionStat.note x.1 e x.2)) (some JR)).bind
        (fun JR => JR.counters.lookup counter) =
      (xs.filterMap fun x => (x.2.counters.lookup counter).map (Prod.mk x.1)).foldl
        (fun e x => some (later x.1 e x.2)) (JR.counters.lookup counter) := by
  induction xs generalizing JR with
  | nil => rfl
  | cons x xs ih =>
      rw [List.foldl_cons, ih, lookup_counters_note, List.filterMap_cons]
      cases x.2.counters.lookup counter <;> rfl

/-- The entry of a counter in a region, from the first task that has the region on. -/
theorem regionCounter_eq {tasks : List TaskValues} {region : Label}
    {x : Nat × RegionValues} {rest : List (Nat × RegionValues)}
    (visited : visits tasks region = x :: rest) (counter : Label) :
    regionCounter tasks region counter =
      (rest.filterMap fun x => (x.2.counters.lookup counter).map (Prod.mk x.1)).foldl
        (fun e x => some (later x.1 e x.2))
        ((x.2.counters.lookup counter).map fun v => ofTally (Tally.single x.1 v)) := by
  have first : (RegionStat.note x.1 none x.2).counters.lookup counter =
      (x.2.counters.lookup counter).map fun v => ofTally (Tally.single x.1 v) := by
    unfold RegionStat.note
    dsimp only
    rw [Table.lookup_each]
    cases x.2.counters.lookup counter <;> rfl
  rw [regionCounter, lookup_jobRegions, visited, List.foldl_cons, foldl_note_counters, first]

/-- A counter of the first task with the region is right. -/
theorem regionCounter_of_first {tasks : List TaskValues} {region counter : Label}
    {x : Nat × RegionValues} {rest : List (Nat × RegionValues)}
    (visited : visits tasks region = x :: rest) (first : counter ∈ x.2.counters) :
    ∃ t : Tally Nat Nat, regionCounter tasks region counter = some (.ofTally t) ∧
      t.Of (counterValues tasks region counter) := by
  obtain ⟨v, has⟩ := Option.isSome_iff_exists.1 (AList.lookup_isSome.2 first)
  have entry := regionCounter_eq visited counter
  rw [has, Option.map_some, foldl_later_ofTally] at entry
  refine ⟨_, entry, ?_⟩
  rw [counterValues, visited, List.filterMap_cons, has]
  exact (Tally.of_single x.1 v).foldl _

/-- The minimum of a counter that first comes later is never set. -/
theorem regionCounter_min_of_late {tasks : List TaskValues} {region counter : Label}
    {x : Nat × RegionValues} {rest : List (Nat × RegionValues)}
    (visited : visits tasks region = x :: rest) (late : counter ∉ x.2.counters)
    (nonempty : counterValues tasks region counter ≠ []) :
    ∃ e, regionCounter tasks region counter = some e ∧ e.countMin = none := by
  have absent := AList.lookup_eq_none.2 late
  rw [counterValues, visited, List.filterMap_cons, absent] at nonempty
  rw [regionCounter_eq visited, absent]
  exact foldl_later_countMin nonempty rfl

/-! ## Calls of a region -/

/-- The two parts of an entry see the two parts of the values. -/
theorem foldl_noteWith (count : Nat → Option (Tally Nat Nat) → Nat → Tally Nat Nat)
    (time : Nat → Option (Tally Nat NNRat) → NNRat → Tally Nat NNRat)
    (xs : List (Nat × FuncValue)) (e : Option FuncStat) :
    (xs.foldl (fun e x => some (FuncStat.noteWith count time x.1 e x.2)) e).map FuncStat.count =
        (xs.map fun x => (x.1, x.2.count)).foldl (fun e x => some (count x.1 e x.2))
          (e.map FuncStat.count) ∧
      (xs.foldl (fun e x => some (FuncStat.noteWith count time x.1 e x.2)) e).map FuncStat.time =
        (xs.map fun x => (x.1, x.2.time)).foldl (fun e x => some (time x.1 e x.2))
          (e.map FuncStat.time) := by
  induction xs generalizing e with
  | nil => exact ⟨rfl, rfl⟩
  | cons x xs ih => exact ih (some (FuncStat.noteWith count time x.1 e x.2))

theorem map_eq_some_pair {xs : Option FuncStat} {count : Tally Nat Nat}
    {time : Tally Nat NNRat} (counts : xs.map FuncStat.count = some count)
    (times : xs.map FuncStat.time = some time) : xs = some ⟨count, time⟩ := by
  cases xs with
  | none => cases counts
  | some e =>
      cases counts
      cases times
      rfl

theorem foldl_note_funcs (xs : List (Nat × RegionValues)) (e : Option RegionStat)
    (func : Label) :
    (xs.foldl (fun e x => some (RegionStat.note x.1 e x.2)) e).bind
        (fun JR => JR.funcs.lookup func) =
      (xs.filterMap fun x => (x.2.funcs.lookup func).map (Prod.mk x.1)).foldl
        (fun e x => some (FuncStat.note x.1 e x.2)) (e.bind fun JR => JR.funcs.lookup func) := by
  induction xs generalizing e with
  | nil => rfl
  | cons x xs ih =>
      have noted : (RegionStat.note x.1 e x.2).funcs.lookup func =
          match x.2.funcs.lookup func with
          | none => e.bind fun JR => JR.funcs.lookup func
          | some v => some (FuncStat.note x.1 (e.bind fun JR => JR.funcs.lookup func) v) := by
        cases e <;>
        · unfold RegionStat.note
          dsimp only
          rw [Table.lookup_each]
          cases x.2.funcs.lookup func <;> rfl
      rw [List.foldl_cons, ih, List.filterMap_cons]
      change List.foldl _ ((RegionStat.note x.1 e x.2).funcs.lookup func) _ = _
      rw [noted]
      cases x.2.funcs.lookup func <;> rfl

/-- Both parts of an entry are right about the values it is made from. -/
theorem exists_noted {xs : List (Nat × FuncValue)} (nonempty : xs ≠ []) :
    ∃ (count : Tally Nat Nat) (time : Tally Nat NNRat),
      (xs.map fun x => (x.1, x.2.count)).foldl (fun e x => some (Tally.note x.1 e x.2)) none =
        some count ∧
      (xs.map fun x => (x.1, x.2.time)).foldl (fun e x => some (Tally.note x.1 e x.2)) none =
        some time ∧
      FuncStat.Of ⟨count, time⟩ xs := by
  have counts : (xs.map fun x => (x.1, x.2.count)) ≠ [] := by rwa [Ne, List.map_eq_nil_iff]
  have times : (xs.map fun x => (x.1, x.2.time)) ≠ [] := by rwa [Ne, List.map_eq_nil_iff]
  obtain ⟨count, isCount, countOf⟩ := Tally.of_foldl_note counts
  obtain ⟨time, isTime, timeOf⟩ := Tally.of_foldl_note times
  exact ⟨count, time, isCount, isTime, countOf, timeOf⟩

/-- A call of a region is right. -/
theorem regionFunc_right {tasks : List TaskValues} {region func : Label}
    (nonempty : funcValues tasks region func ≠ []) :
    ∃ e : FuncStat, regionFunc tasks region func = some e ∧
      e.Of (funcValues tasks region func) := by
  have entry : regionFunc tasks region func = (funcValues tasks region func).foldl
      (fun e x => some (FuncStat.note x.1 e x.2)) none := by
    rw [regionFunc, lookup_jobRegions, foldl_note_funcs]
    rfl
  obtain ⟨counts, times⟩ := foldl_noteWith Tally.note Tally.note
    (funcValues tasks region func) none
  obtain ⟨count, time, isCount, isTime, right⟩ := exists_noted nonempty
  have both := map_eq_some_pair (counts.trans isCount) (times.trans isTime)
  exact ⟨⟨count, time⟩, entry.trans both, right⟩

/-! ## Counters and calls of the job -/

/-- The sums over the regions of a task. -/
theorem lookup_taskCounters (T : TaskValues) (counter : Label) :
    (taskCounters T).lookup counter = countTotal (T.counter counter) := by
  have sums : ∀ (vs : List Nat) (s : Nat),
      vs.foldl (fun e v => some (sumCount e v)) (some s) = some (s + vs.sum) := by
    intro vs
    induction vs with
    | nil => exact fun s => rfl
    | cons v vs ih =>
        intro s
        rw [List.foldl_cons, List.sum_cons, ← Nat.add_assoc]
        exact ih (s + v)
  rw [taskCounters, Table.lookup_foldl_each_const, TaskValues.counter]
  cases T.regions.entries.filterMap fun TR => TR.2.counters.lookup counter with
  | nil => rfl
  | cons v vs => exact sums vs v

theorem lookup_taskFuncs (T : TaskValues) (func : Label) :
    (taskFuncs T).lookup func = funcTotal (T.func func) := by
  have sums : ∀ (vs : List FuncValue) (s : FuncValue),
      vs.foldl (fun e v => some (sumFunc e v)) (some s) =
        some ⟨s.count + (vs.map FuncValue.count).sum, s.time + (vs.map FuncValue.time).sum⟩ := by
    intro vs
    induction vs with
    | nil =>
        intro s
        simp
    | cons v vs ih =>
        intro s
        rw [List.foldl_cons, List.map_cons, List.map_cons, List.sum_cons, List.sum_cons,
          ← Nat.add_assoc, ← add_assoc]
        exact ih ⟨s.count + v.count, s.time + v.time⟩
  rw [taskFuncs, Table.lookup_foldl_each_const, TaskValues.func]
  cases T.regions.entries.filterMap fun TR => TR.2.funcs.lookup func with
  | nil => rfl
  | cons v vs => exact sums vs v

/-- A counter of the job is right. -/
theorem jobCounter_right {tasks : List TaskValues} {counter : Label}
    (nonempty : jobCounterValues tasks counter ≠ []) :
    ∃ t : Tally Nat Nat, (jobCounters tasks).lookup counter = some t ∧
      t.Of (jobCounterValues tasks counter) := by
  have entry := Table.lookup_foldl_each Tally.note TaskValues.rank taskCounters ∅ tasks counter
  simp only [lookup_taskCounters] at entry
  obtain ⟨t, isTally, right⟩ := Tally.of_foldl_note nonempty
  exact ⟨t, entry.trans isTally, right⟩

/-- A tally whose maximum follows its minimum. -/
def lowTally {K : Type} (t : Tally Nat K) : Tally Nat K :=
  { t with max := t.min, maxAt := t.minAt }

theorem foldl_jobNote {K : Type} [LinearOrder K] [Add K] (xs : List (Nat × K))
    (e : Option (Tally Nat K)) :
    xs.foldl (fun e x => some (jobNote x.1 e x.2)) (e.map lowTally) =
      (xs.foldl (fun e x => some (Tally.note x.1 e x.2)) e).map lowTally := by
  induction xs generalizing e with
  | nil => rfl
  | cons x xs ih =>
      have noted : jobNote x.1 (e.map lowTally) x.2 = lowTally (Tally.note x.1 e x.2) := by
        cases e <;> rfl
      rw [List.foldl_cons, List.foldl_cons, noted]
      exact ih (some (Tally.note x.1 e x.2))

/-- Such a tally is right exactly when all values are the same. -/
theorem of_lowTally_iff {K : Type} [LinearOrder K] [AddMonoid K] {t : Tally Nat K}
    {xs : List (Nat × K)} (right : t.Of xs) :
    (lowTally t).Of xs ↔ ∀ x ∈ xs, ∀ y ∈ xs, x.2 = y.2 := by
  constructor
  · intro right'
    exact right'.max_eq_min_iff.1 rfl
  · intro same
    have max : t.max = t.min := right.max_eq_min_iff.2 same
    refine ⟨right.sum, right.min_le, right.minAt, ?_, right.minAt⟩
    change ∀ x ∈ xs, x.2 ≤ t.min
    rw [← max]
    exact right.le_max

/-- The maximum of a call of the job is its minimum. -/
theorem jobFunc_max_eq_min {tasks : List TaskValues} {func : Label}
    (nonempty : jobFuncValues tasks func ≠ []) :
    ∃ (count : Tally Nat Nat) (time : Tally Nat NNRat),
      (jobFuncs tasks).lookup func = some ⟨lowTally count, lowTally time⟩ ∧
      FuncStat.Of ⟨count, time⟩ (jobFuncValues tasks func) := by
  have entry := Table.lookup_foldl_each FuncStat.jobNote TaskValues.rank taskFuncs ∅ tasks func
  simp only [lookup_taskFuncs] at entry
  obtain ⟨counts, times⟩ := foldl_noteWith jobNote jobNote
    (jobFuncValues tasks func) none
  obtain ⟨count, time, isCount, isTime, right⟩ := exists_noted nonempty
  have low := foldl_jobNote ((jobFuncValues tasks func).map fun x => (x.1, x.2.count)) none
  have low' := foldl_jobNote ((jobFuncValues tasks func).map fun x => (x.1, x.2.time)) none
  rw [isCount] at low
  rw [isTime] at low'
  have both := map_eq_some_pair (counts.trans low) (times.trans low')
  exact ⟨count, time, entry.trans both, right⟩

/-- A call of the job is right exactly when all tasks that have it agree on it. -/
theorem jobFunc_right_iff {tasks : List TaskValues} {func : Label}
    (nonempty : jobFuncValues tasks func ≠ []) :
    (∃ e : FuncStat, (jobFuncs tasks).lookup func = some e ∧
        e.Of (jobFuncValues tasks func)) ↔
      ∀ x ∈ jobFuncValues tasks func, ∀ y ∈ jobFuncValues tasks func, x.2 = y.2 := by
  obtain ⟨count, time, entry, right⟩ := jobFunc_max_eq_min nonempty
  constructor
  · rintro ⟨e, isEntry, right'⟩ x memX y memY
    rw [entry] at isEntry
    cases isEntry
    have counts := (of_lowTally_iff right.count).1 right'.count _
      (List.mem_map_of_mem memX) _ (List.mem_map_of_mem memY)
    have times := (of_lowTally_iff right.time).1 right'.time _
      (List.mem_map_of_mem memX) _ (List.mem_map_of_mem memY)
    cases hx : x.2
    cases hy : y.2
    rw [hx, hy] at counts times
    cases counts
    cases times
    rfl
  · intro same
    refine ⟨_, entry, (of_lowTally_iff right.count).2 ?_, (of_lowTally_iff right.time).2 ?_⟩
    · intro x memX y memY
      obtain ⟨x', memX', rfl⟩ := List.mem_map.1 memX
      obtain ⟨y', memY', rfl⟩ := List.mem_map.1 memY
      exact congrArg FuncValue.count (same x' memX' y' memY')
    · intro x memX y memY
      obtain ⟨x', memX', rfl⟩ := List.mem_map.1 memX
      obtain ⟨y', memY', rfl⟩ := List.mem_map.1 memY
      exact congrArg FuncValue.time (same x' memX' y' memY')

/-! ## The whole job -/

/-- A counter that some task has in a region, the first task with that region has there, and
the tasks that have a call all have the same count and time of it. -/
structure Aligned (tasks : List TaskValues) : Prop where
  first : ∀ region counter x rest, visits tasks region = x :: rest →
    counterValues tasks region counter ≠ [] → counter ∈ x.2.counters
  same : ∀ func, ∀ x ∈ jobFuncValues tasks func, ∀ y ∈ jobFuncValues tasks func, x.2 = y.2

theorem entriesRight_iff (tasks : List TaskValues) : EntriesRight tasks ↔ Aligned tasks := by
  constructor
  · intro right
    refine ⟨fun region counter x rest visited nonempty => ?_, fun func x memX => ?_⟩
    · by_contra late
      obtain ⟨e, isEntry, unset⟩ := regionCounter_min_of_late visited late nonempty
      obtain ⟨t, isTally, -⟩ := right.regionCounters region counter nonempty
      rw [isEntry, Option.some.injEq] at isTally
      rw [isTally] at unset
      cases unset
    · have nonempty := List.ne_nil_of_mem memX
      exact (jobFunc_right_iff nonempty).1 (right.jobFuncs func nonempty) x memX
  · intro aligned
    refine ⟨fun region counter nonempty => ?_, fun region func => regionFunc_right,
      fun counter => jobCounter_right,
      fun func nonempty => (jobFunc_right_iff nonempty).2 (aligned.same func)⟩
    cases visited : visits tasks region with
    | nil =>
        rw [counterValues, visited] at nonempty
        exact absurd rfl nonempty
    | cons x rest =>
        exact regionCounter_of_first visited
          (aligned.first region counter x rest visited nonempty)

def CounterStat.stats (e : CounterStat) : Option Nat × Option Nat × Option Nat :=
  (e.count, e.countMin, e.countMax)

def FuncStat.stats (e : FuncStat) : (Nat × Nat × Nat) × (NNRat × NNRat × NNRat) :=
  (e.count.stats, e.time.stats)

theorem FuncStat.Of.stats_eq {e e' : FuncStat} {xs ys : List (Nat × FuncValue)}
    (right : e.Of xs) (right' : e'.Of ys) (perm : xs.Perm ys) : e.stats = e'.stats := by
  rw [FuncStat.stats, FuncStat.stats, right.count.stats_eq_of_perm right'.count (perm.map _),
    right.time.stats_eq_of_perm right'.time (perm.map _)]

/-- The entries of every counter and call have the same sums and extremes. -/
structure SameStats (tasks tasks' : List TaskValues) : Prop where
  regionCounters : ∀ region counter, counterValues tasks region counter ≠ [] →
    (regionCounter tasks region counter).map CounterStat.stats =
      (regionCounter tasks' region counter).map CounterStat.stats
  regionFuncs : ∀ region func, funcValues tasks region func ≠ [] →
    (regionFunc tasks region func).map FuncStat.stats =
      (regionFunc tasks' region func).map FuncStat.stats
  jobCounters : ∀ counter, jobCounterValues tasks counter ≠ [] →
    ((jobCounters tasks).lookup counter).map Tally.stats =
      ((jobCounters tasks').lookup counter).map Tally.stats
  jobFuncs : ∀ func, jobFuncValues tasks func ≠ [] →
    ((jobFuncs tasks).lookup func).map FuncStat.stats =
      ((jobFuncs tasks').lookup func).map FuncStat.stats

theorem ne_nil_of_perm {α : Type} {xs ys : List α} (perm : xs.Perm ys) (nonempty : xs ≠ []) :
    ys ≠ [] := by
  rintro rfl
  exact nonempty perm.eq_nil

/-- Right entries of one job do not depend on the order of its tasks. -/
theorem sameStats_of_right {tasks tasks' : List TaskValues} (perm : tasks.Perm tasks')
    (right : EntriesRight tasks) (right' : EntriesRight tasks') : SameStats tasks tasks' := by
  refine ⟨fun region counter nonempty => ?_, fun region func nonempty => ?_,
    fun counter nonempty => ?_, fun func nonempty => ?_⟩
  · have same : (counterValues tasks region counter).Perm (counterValues tasks' region counter) :=
      (perm.filterMap _).filterMap _
    obtain ⟨t, entry, of⟩ := right.regionCounters region counter nonempty
    obtain ⟨t', entry', of'⟩ := right'.regionCounters region counter
      (ne_nil_of_perm same nonempty)
    have stats := of.stats_eq_of_perm of' same
    simp only [Tally.stats, Prod.mk.injEq] at stats
    rw [entry, entry', Option.map_some, Option.map_some]
    simp only [CounterStat.stats, CounterStat.ofTally, stats]
  · have same : (funcValues tasks region func).Perm (funcValues tasks' region func) :=
      (perm.filterMap _).filterMap _
    obtain ⟨e, entry, of⟩ := right.regionFuncs region func nonempty
    obtain ⟨e', entry', of'⟩ := right'.regionFuncs region func
      (ne_nil_of_perm same nonempty)
    rw [entry, entry', Option.map_some, Option.map_some, of.stats_eq of' same]
  · have same : (jobCounterValues tasks counter).Perm (jobCounterValues tasks' counter) :=
      perm.filterMap _
    obtain ⟨t, entry, of⟩ := right.jobCounters counter nonempty
    obtain ⟨t', entry', of'⟩ := right'.jobCounters counter
      (ne_nil_of_perm same nonempty)
    rw [entry, entry', Option.map_some, Option.map_some, of.stats_eq_of_perm of' same]
  · have same : (jobFuncValues tasks func).Perm (jobFuncValues tasks' func) :=
      perm.filterMap _
    obtain ⟨e, entry, of⟩ := right.jobFuncs func nonempty
    obtain ⟨e', entry', of'⟩ := right'.jobFuncs func
      (ne_nil_of_perm same nonempty)
    rw [entry, entry', Option.map_some, Option.map_some, of.stats_eq of' same]

/-- In every order of the tasks every entry is right, and the order does not matter for the
sums and the extremes. -/
def JobAggregated (tasks : List TaskValues) : Prop :=
  ∀ order, order.Perm tasks →
    EntriesRight order ∧ ∀ order', order'.Perm tasks → SameStats order order'

/-- `ipm_parse` aggregates the tasks of a job right, in the order they are visited, exactly
when the first task with a region has every counter there and the tasks that have a call agree
on it, and in all orders exactly when this holds in all orders. -/
theorem aggregated_iff (tasks : List TaskValues) :
    (EntriesRight tasks ↔ Aligned tasks) ∧
      (JobAggregated tasks ↔ ∀ order, order.Perm tasks → Aligned order) := by
  refine ⟨entriesRight_iff tasks, ?_, ?_⟩
  · intro all order perm
    exact (entriesRight_iff order).1 (all order perm).1
  · intro all order perm
    have right := (entriesRight_iff order).2 (all order perm)
    refine ⟨right, fun order' perm' => ?_⟩
    exact sameStats_of_right (perm.trans perm'.symm) right
      ((entriesRight_iff order').2 (all order' perm'))

/-! ## Two tasks -/

def sendName : Label := "MPI_Send".toList

/-- A task with calls of MPI_Send in one region. -/
def sendTask (rank count : Nat) : TaskValues where
  rank := rank
  regions := AList.singleton "ipm_noregion".toList
    { counters := ∅
      funcs := AList.singleton sendName ⟨count, 0⟩ }

/-- Rank 0 calls MPI_Send once and rank 1 twice: the greatest count of the job is 1. -/
theorem smaller_count_kept :
    ((jobFuncs [sendTask 0 1, sendTask 1 2]).lookup sendName).map (fun e => e.count.max) =
      some 1 := by
  rfl

/-- Not every job is aggregated right. -/
theorem maximum_not_greatest : ¬ ∀ tasks : List TaskValues, JobAggregated tasks := by
  intro all
  have values : (jobFuncValues [sendTask 0 1, sendTask 1 2] sendName).map
      (fun x => (x.1, x.2.count)) = [(0, 1), (1, 2)] := rfl
  have nonempty : jobFuncValues [sendTask 0 1, sendTask 1 2] sendName ≠ [] := nofun
  have right := (all [sendTask 0 1, sendTask 1 2] _ (List.Perm.refl _)).1
  obtain ⟨e, entry, of⟩ := right.jobFuncs sendName nonempty
  have kept := smaller_count_kept
  rw [entry] at kept
  have max : e.count.max = 1 := Option.some.inj kept
  have greatest : 2 ≤ e.count.max := of.count.le_max (1, 2) (by rw [values]; decide)
  omega

end Ipm
