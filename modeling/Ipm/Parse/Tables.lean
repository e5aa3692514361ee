import Ipm.Lib.Scientific
import Ipm.Parse.Aggregate
import Ipm.Parse.Hents
import Ipm.Parse.Regions

/-!
# The tables of a job

While `ipm_parse` reads a log it fills the tables it aggregates behind it: the counters and
the calls of the regions of each task, where a line goes to the region `$R` refers to, and the
statistics of the hash entries.

* `Filing`: what a line does to the tables, and `run_fill`: a log fills them line by line.
* `runFilings_job`: tasks that make the same legible regions file what they have printed.
* `region_of_job`: the table of a region has what its task has printed of it.
* `lookup_func`, `funcValues_visit`: the entry of a call, and what is aggregated of it.
-/

namespace Ipm

open Scan Tallies

/-! ## Filling them -/

/-- A text as a number, as far as it is one. -/
def numify (s : Label) : Rat := ((scanDecimal s).map Prod.fst).getD 0

/-- A region with nothing in it. -/
def RegionValues.empty : RegionValues := ⟨∅, ∅⟩

/-- A record of a region; a later one of the same name is kept. -/
def RegionValues.file (R : RegionValues) : LogRecord → RegionValues
  | .counter name count => { R with counters := R.counters.insert name count.toNat }
  | .func f => { R with funcs := R.funcs.insert f.name ⟨f.count, (numify f.time).toNNRat⟩ }
  | .hent _ => R

/-- A hash entry with the rank and the region it is read for. -/
def HashEntry.parsed (h : HashEntry) (place : Place) : ParsedHent where
  irank := place.1
  icall := h.call
  ibyte := h.bytes
  iorank := h.orank
  ireg := place.2
  icount := h.count
  ittot := numify h.times.1
  itmin := numify h.times.2.1
  itmax := numify h.times.2.2

/-- A region of a task that a line refers to, and its record. -/
abbrev Filing := Place × Option LogRecord

namespace Filing

/-- The table of a region, made when it is not there. -/
def fill (R : Option RegionValues) (f : Filing) : RegionValues :=
  match f.2 with
  | none => R.getD .empty
  | some r => (R.getD .empty).file r

def hent (f : Filing) : Option ParsedHent :=
  match f.2 with
  | some (.hent h) => some (h.parsed f.1)
  | _ => none

end Filing

/-- What a line of the log files. -/
def ParseState.filings (s : ParseState) : LogLine → List Filing
  | .region text => (regionTag text).toList.map fun tag => ((s.mpiRank, tag), none)
  | .record r => (s.placeOf r).toList.map fun place => (place, some r)
  | _ => []

/-- `$J->{task}{$irank}{region}`, and what is added up of the hash entries. -/
structure JobTables where
  task : Table Nat (Table Label RegionValues)
  hents : HentState

section Fill

-- `$mpi_call{$icall}{dat}`
variable (dat : Label → Option DataClass)

def JobTables.file (J : JobTables) (f : Filing) : JobTables where
  task :=
    let T := (J.task.lookup f.1.1).getD ∅
    J.task.insert f.1.1 (T.insert f.1.2 (f.fill (T.lookup f.1.2)))
  hents :=
    match f.hent with
    | none => J.hents
    | some h => parseHent dat J.hents h

/-- The parser with its tables. -/
structure TableState where
  parse : ParseState
  tables : JobTables

/-- A pass of the loop of `ipm_parse` over the lines, with what it does to the tables. -/
def TableState.parseLine (s : TableState) (line : LogLine) : Except ParseStop TableState := do
  let parse ← s.parse.parseLine line
  .ok ⟨parse, (s.parse.filings line).foldl (JobTables.file dat) s.tables⟩

def TableState.init : TableState := ⟨parseInit, ⟨∅, .empty⟩⟩

/-- What the lines of a run file. -/
def runFilings : ParseState → List LogLine → List Filing
  | _, [] => []
  | s, line :: lines =>
      s.filings line ++
        match s.parseLine line with
        | .error _ => []
        | .ok s' => runFilings s' lines

theorem runFilings_append {s s' : ParseState} {lines : List LogLine} (lines' : List LogLine)
    (ran : Runs.run ParseState.parseLine s lines = .ok s') :
    runFilings s (lines ++ lines') = runFilings s lines ++ runFilings s' lines' := by
  induction lines generalizing s with
  | nil =>
      cases ran
      rfl
  | cons line lines ih =>
      rcases Runs.run_cons_eq_ok ran with ⟨s₁, parsed, rest⟩
      rw [List.cons_append, runFilings, runFilings, parsed]
      dsimp only
      rw [ih rest, List.append_assoc]

/-- A log fills the tables line by line. -/
theorem run_fill {s : TableState} {lines : List LogLine} {p : ParseState}
    (ran : Runs.run ParseState.parseLine s.parse lines = .ok p) :
    Runs.run (TableState.parseLine dat) s lines =
      .ok ⟨p, (runFilings s.parse lines).foldl (JobTables.file dat) s.tables⟩ := by
  induction lines generalizing s with
  | nil =>
      cases ran
      rfl
  | cons line lines ih =>
      rcases Runs.run_cons_eq_ok ran with ⟨p₁, parsed, rest⟩
      have step : s.parseLine dat line =
          .ok ⟨p₁, (s.parse.filings line).foldl (JobTables.file dat) s.tables⟩ := by
        unfold TableState.parseLine
        rw [parsed]
        rfl
      rw [Runs.run_cons, step, runFilings, parsed, List.foldl_append]
      exact ih rest

end Fill

/-! ## What a job files -/

/-- What the elements of some regions of a task file. -/
def TaskLog.regionFilings (t : TaskLog) (rs : List RegionEntry) : List Filing :=
  rs.flatMap fun r => ((t.mpiRank, r.label), none) ::
    (t.records r).map fun x => ((t.mpiRank, r.label), some x)

/-- What a task files when its regions are read as it has made them. -/
def TaskLog.filings (t : TaskLog) : List Filing :=
  t.regionFilings t.regions ++
    t.entries.map fun h => ((t.mpiRank, t.labelAt h.region), some (.hent h))

/-- The tasks make the same regions in the same order, with labels the pattern reads. -/
structure Uniform (job : JobLog) (labels : List Label) : Prop where
  same : ∀ t ∈ job.tasks, t.regions.map RegionEntry.label = labels
  legible : ∀ label ∈ labels, Legible label ∧ label.length < maxsizeLabel

theorem runFilings_records (s : ParseState) (xs : List LogRecord) :
    runFilings s (xs.map .record) =
      xs.flatMap fun x => (s.placeOf x).toList.map fun place => (place, some x) := by
  induction xs generalizing s with
  | nil => rfl
  | cons x xs ih =>
      have next : runFilings s ((x :: xs).map .record) =
          (s.placeOf x).toList.map (fun place => (place, some x)) ++
            runFilings { s with filed := s.filed ++ [(x, s.placeOf x)] } (xs.map .record) := rfl
      rw [next, ih, List.flatMap_cons]
      rfl

theorem runFilings_regions {t : TaskLog} {s : ParseState} {new : Bool} {m : List Label}
    (between : Between t s new m) {rs : List RegionEntry}
    (legible : ∀ r ∈ rs, Legible r.label ∧ r.label.length < maxsizeLabel) :
    runFilings s (t.writeRegions rs) = t.regionFilings rs := by
  induction rs generalizing s m with
  | nil => rfl
  | cons r rs ih =>
      rw [List.forall_mem_cons] at legible
      rcases legible with ⟨⟨read, short⟩, others⟩
      have tagged : tagOf (r :: rs) = some r.label :=
        (tagOf_eq_label r rs).mpr ⟨read, (printRegions_cons r rs).2 short⟩
      rcases parseLine_region between r rs with ⟨s₁, opened, rank, maps, place, _⟩
      have here : s₁.place = some (t.mpiRank, r.label) := by
        rw [place, TaskLog.placeAfter, tagged]
        rfl
      have opening : s.filings (.region (printRegions (r :: rs) ++ '"' :: ' ' :: r.attrs)) =
          [((t.mpiRank, r.label), none)] := by
        unfold ParseState.filings
        dsimp only
        rw [regionTag_region, tagged, between.rank]
        rfl
      have records : runFilings s₁ ((t.records r).map .record) =
          (t.records r).map fun x => ((t.mpiRank, r.label), some x) := by
        rw [runFilings_records, List.map_eq_flatMap]
        refine List.flatMap_congr fun x mem => ?_
        rw [placeOf_records mem, here]
        rfl
      have rest := ih (s := { s₁ with
        filed := s₁.filed ++ (t.records r).map fun x => (x, s₁.placeOf x)
        regionCurrent := parseNone }) ⟨rfl, rank, maps.labelOf, maps.regionIndex, maps.old⟩ others
      rw [TaskLog.writeRegions, runFilings, opened, opening]
      dsimp only
      rw [runFilings_append _ (run_records s₁ (t.records r)), records]
      change _ ++ (_ ++ runFilings _ (t.writeRegions rs)) = _
      rw [rest]
      rfl

section Uniform

variable {labels : List Label}

/-- The labels read in a task are those of its regions. -/
theorem tags_of_same {t : TaskLog} (same : t.regions.map RegionEntry.label = labels)
    (legible : ∀ label ∈ labels, Legible label ∧ label.length < maxsizeLabel) :
    (∀ r ∈ t.regions, Legible r.label ∧ r.label.length < maxsizeLabel) ∧
      tags t.regions = labels := by
  have each : ∀ r ∈ t.regions, Legible r.label ∧ r.label.length < maxsizeLabel :=
    fun r mem => legible _ (same ▸ List.mem_map_of_mem mem)
  exact ⟨each, (tags_eq_labels each).trans same⟩

theorem runFilings_task {t : TaskLog} {s : ParseState} {m : List Label}
    (same : t.regions.map RegionEntry.label = labels)
    (legible : ∀ label ∈ labels, Legible label ∧ label.length < maxsizeLabel)
    (closed : s.regionCurrent = parseNone) (labelOf : s.labelOf = fun n => m[n]?)
    (read : m = [] ∨ m = labels) : runFilings s t.write = t.filings := by
  rcases tags_of_same same legible with ⟨each, tagged⟩
  have between : Between t { s with regionIndex := 0, mpiRank := t.mpiRank } (m = []) m := by
    refine ⟨closed, rfl, labelOf, ?_, fun old => of_decide_eq_false old⟩
    by_cases empty : m = []
    · rw [empty]
      rfl
    · rw [decide_eq_false empty]
      rfl
  rcases run_regions between t.regions with ⟨s₁, ran, between', _, _⟩
  have map : (if decide (m = []) = true then m ++ tags t.regions else m) = labels := by
    rw [tagged]
    rcases read with rfl | rfl
    · rfl
    · by_cases empty : m = []
      · rw [empty]
        rfl
      · rw [decide_eq_false empty]
        rfl
  rw [map] at between'
  have hents : runFilings s₁ (t.entries.map fun h => .record (.hent h)) =
      t.entries.map fun h => ((t.mpiRank, t.labelAt h.region), some (.hent h)) := by
    have lines : (t.entries.map fun h => LogLine.record (.hent h)) =
        (t.entries.map LogRecord.hent).map .record := by
      rw [List.map_map]
      rfl
    rw [lines, runFilings_records, List.flatMap_map, List.map_eq_flatMap]
    refine List.flatMap_congr fun h _ => ?_
    change [((s₁.mpiRank, (s₁.labelOf h.region).getD []), _)] = _
    rw [between'.rank, between'.maps.labelOf, TaskLog.labelAt, same]
  have start : runFilings s t.write =
      runFilings { s with regionIndex := 0, mpiRank := t.mpiRank }
        (t.writeRegions t.regions ++ t.entries.map fun h => .record (.hent h)) := rfl
  rw [start, runFilings_append _ ran, runFilings_regions between each, hents]
  rfl

theorem runFilings_tasks {ts : List TaskLog} {s : ParseState} {m : List Label}
    (same : ∀ t ∈ ts, t.regions.map RegionEntry.label = labels)
    (legible : ∀ label ∈ labels, Legible label ∧ label.length < maxsizeLabel)
    (closed : s.regionCurrent = parseNone) (labelOf : s.labelOf = fun n => m[n]?)
    (read : m = [] ∨ m = labels) :
    runFilings s (ts.flatMap TaskLog.write) = ts.flatMap TaskLog.filings := by
  induction ts generalizing s m with
  | nil => rfl
  | cons t ts ih =>
      rw [List.forall_mem_cons] at same
      rcases run_task closed labelOf t with ⟨s₁, ran, closed₁, labelOf₁, _, _⟩
      have map : (if m = [] then tags t.regions else m) = labels := by
        rw [(tags_of_same same.1 legible).2]
        rcases read with rfl | rfl
        · exact if_pos rfl
        · exact ite_self _
      rw [map] at labelOf₁
      rw [List.flatMap_cons, List.flatMap_cons, runFilings_append _ ran,
        runFilings_task same.1 legible closed labelOf read,
        ih same.2 closed₁ labelOf₁ (Or.inr rfl)]

/-- Tasks that make the same legible regions file what they have printed. -/
theorem runFilings_job {job : JobLog} (uniform : Uniform job labels) :
    runFilings parseInit job.write = job.tasks.flatMap TaskLog.filings :=
  runFilings_tasks (m := []) uniform.same uniform.legible rfl rfl (Or.inl rfl)

end Uniform

/-! ## The entries -/

/-- The table of a region of a task. -/
def JobTables.region (J : JobTables) (place : Place) : Option RegionValues :=
  (J.task.lookup place.1).bind fun T => T.lookup place.2

section Entries

variable (dat : Label → Option DataClass)

theorem region_file (J : JobTables) (f : Filing) : (J.file dat f).region =
    Function.update J.region f.1 (some (f.fill (J.region f.1))) := by
  funext place
  have made : f.fill (((J.task.lookup f.1.1).getD ∅).lookup f.1.2) = f.fill (J.region f.1) := by
    unfold JobTables.region
    cases J.task.lookup f.1.1 <;> rfl
  unfold JobTables.file
  dsimp only
  rw [made]
  change ((J.task.insert _ _).lookup place.1).bind _ = _
  by_cases task : place.1 = f.1.1
  · rw [task, AList.lookup_insert, Option.bind_some]
    by_cases label : place.2 = f.1.2
    · rw [label, AList.lookup_insert, Prod.ext task label, Function.update_self]
    · have other : place ≠ f.1 := fun same => label (congrArg Prod.snd same)
      rw [AList.lookup_insert_ne label, Function.update_of_ne other]
      unfold JobTables.region
      rw [task]
      cases J.task.lookup f.1.1 <;> rfl
  · have other : place ≠ f.1 := fun same => task (congrArg Prod.fst same)
    rw [AList.lookup_insert_ne task, Function.update_of_ne other]
    rfl

theorem region_foldl (fs : List Filing) (J : JobTables) (place : Place) :
    (fs.foldl (JobTables.file dat) J).region place =
      (fs.filter fun f => f.1 = place).foldl (fun R f => some (f.fill R)) (J.region place) :=
  foldl_entry JobTables.region (fun J f => region_file dat J f) fs J place

theorem hents_foldl (fs : List Filing) (J : JobTables) :
    (fs.foldl (JobTables.file dat) J).hents =
      (fs.filterMap Filing.hent).foldl (parseHent dat) J.hents := by
  induction fs generalizing J with
  | nil => rfl
  | cons f fs ih =>
      rw [List.foldl_cons, ih, List.filterMap_cons]
      unfold JobTables.file
      cases f.hent <;> rfl

end Entries

/-- The counters and the calls of some records. -/
def RegionValues.of (xs : List LogRecord) : RegionValues := xs.foldl RegionValues.file .empty

theorem foldl_fill (place : Place) (xs : List LogRecord) (R : Option RegionValues) :
    (xs.map fun x => (place, some x)).foldl (fun R f => some (Filing.fill R f))
      (some (R.getD .empty)) = some (xs.foldl RegionValues.file (R.getD .empty)) := by
  induction xs generalizing R with
  | nil => rfl
  | cons x xs ih => exact ih (some ((R.getD .empty).file x))

/-- The only element of a list that has anything. -/
theorem flatMap_of_key {α β κ : Type} {key : α → κ} {g : α → List β} {l : List α}
    (distinct : (l.map key).Nodup) {a : α} (mem : a ∈ l)
    (others : ∀ b ∈ l, key b ≠ key a → g b = []) : l.flatMap g = g a := by
  induction l with
  | nil => cases mem
  | cons b l ih =>
      rw [List.map_cons, List.nodup_cons] at distinct
      rw [List.forall_mem_cons] at others
      rw [List.flatMap_cons]
      rcases List.mem_cons.mp mem with rfl | later
      · have rest : l.flatMap g = [] := by
          rw [List.flatMap_eq_nil_iff]
          intro c given
          exact others.2 c given fun same => distinct.1 (same ▸ List.mem_map_of_mem given)
        rw [rest, List.append_nil]
      · have differ : key b ≠ key a := fun same => distinct.1 (same ▸ List.mem_map_of_mem later)
        rw [others.1 differ, List.nil_append]
        exact ih distinct.2 later others.2

section Job

variable {job : JobLog}

/-- What the element of a region files. -/
def TaskLog.elementFilings (t : TaskLog) (r : RegionEntry) : List Filing :=
  ((t.mpiRank, r.label), none) :: (t.records r).map fun x => ((t.mpiRank, r.label), some x)

theorem place_elementFilings {t : TaskLog} {r : RegionEntry} {f : Filing}
    (mem : f ∈ t.elementFilings r) : f.1 = (t.mpiRank, r.label) := by
  rcases List.mem_cons.mp mem with rfl | given
  · rfl
  · rcases List.mem_map.mp given with ⟨x, _, rfl⟩
    rfl

theorem rank_filings {t : TaskLog} {f : Filing} (mem : f ∈ t.filings) : f.1.1 = t.mpiRank := by
  rcases List.mem_append.mp mem with given | given
  · rcases List.mem_flatMap.mp given with ⟨r, _, inside⟩
    rw [place_elementFilings inside]
  · rcases List.mem_map.mp given with ⟨h, _, rfl⟩
    rfl

/-- The filings of a region are those of its task and its label. -/
theorem filter_filings {t : TaskLog} {r : RegionEntry} (mem : t ∈ job.tasks)
    (memR : r ∈ t.regions) :
    (job.tasks.flatMap TaskLog.filings).filter (fun f => f.1 = (t.mpiRank, r.label)) =
      t.elementFilings r ++ (t.entries.filter fun h => t.labelAt h.region = r.label).map fun h =>
        ((t.mpiRank, r.label), some (.hent h)) := by
  have ofTask : (job.tasks.flatMap TaskLog.filings).filter (fun f => f.1 = (t.mpiRank, r.label)) =
      t.filings.filter fun f => f.1 = (t.mpiRank, r.label) := by
    rw [List.filter_flatMap]
    refine flatMap_of_key job.ranks mem fun u _ other => ?_
    rw [List.filter_eq_nil_iff]
    intro f given
    rw [decide_eq_true_iff]
    intro same
    exact other ((rank_filings given).symm.trans (congrArg Prod.fst same))
  have ofRegion : (t.regionFilings t.regions).filter (fun f => f.1 = (t.mpiRank, r.label)) =
      t.elementFilings r := by
    change (t.regions.flatMap t.elementFilings).filter _ = _
    rw [List.filter_flatMap, flatMap_of_key t.distinct memR]
    · rw [List.filter_eq_self]
      intro f given
      exact decide_eq_true (place_elementFilings given)
    · intro r' _ other
      rw [List.filter_eq_nil_iff]
      intro f given
      rw [decide_eq_true_iff, place_elementFilings given]
      exact fun same => other (congrArg Prod.snd same)
  have ofHash : (t.entries.map fun h => ((t.mpiRank, t.labelAt h.region), some (.hent h))).filter
      (fun f : Filing => f.1 = (t.mpiRank, r.label)) =
        (t.entries.filter fun h => t.labelAt h.region = r.label).map fun h =>
          ((t.mpiRank, r.label), some (.hent h)) := by
    rw [List.filter_map]
    have same : t.entries.filter ((fun f : Filing => decide (f.1 = (t.mpiRank, r.label))) ∘
        fun h => ((t.mpiRank, t.labelAt h.region), some (.hent h))) =
          t.entries.filter fun h => t.labelAt h.region = r.label := by
      refine List.filter_congr fun h _ => ?_
      refine decide_eq_decide.mpr ?_
      rw [Prod.mk.injEq, and_iff_right rfl]
    rw [same]
    refine List.map_congr_left fun h given => ?_
    have label : t.labelAt h.region = r.label := of_decide_eq_true (List.mem_filter.mp given).2
    rw [label]
  rw [ofTask, TaskLog.filings, List.filter_append, ofRegion, ofHash]

/-- The table of a region has what its task has printed of it. -/
theorem region_of_job (dat : Label → Option DataClass) {t : TaskLog} {r : RegionEntry}
    (mem : t ∈ job.tasks) (memR : r ∈ t.regions) :
    ((job.tasks.flatMap TaskLog.filings).foldl (JobTables.file dat) ⟨∅, .empty⟩).region
      (t.mpiRank, r.label) = some (.of (t.records r)) := by
  have keep : ∀ (hs : List HashEntry) (R : RegionValues),
      (hs.map LogRecord.hent).foldl RegionValues.file R = R := by
    intro hs R
    induction hs with
    | nil => rfl
    | cons h hs ih => exact ih
  have start : (⟨∅, .empty⟩ : JobTables).region (t.mpiRank, r.label) = none := rfl
  have hents := foldl_fill (t.mpiRank, r.label)
    ((t.entries.filter fun h => t.labelAt h.region = r.label).map LogRecord.hent)
    (some (.of (t.records r)))
  rw [List.map_map] at hents
  rw [region_foldl, filter_filings mem memR, List.foldl_append, start]
  have element : (t.elementFilings r).foldl (fun R f => some (Filing.fill R f)) none =
      some (.of (t.records r)) := foldl_fill (t.mpiRank, r.label) (t.records r) none
  rw [element]
  refine hents.trans ?_
  rw [keep]
  rfl

end Job

/-! ## A call -/

/-- The count and the time of a function as numbers. -/
def FuncEntry.value (f : FuncEntry) : FuncValue := ⟨f.count, (numify f.time).toNNRat⟩

/-- A function of this name. -/
def LogRecord.named (name : Label) : LogRecord → Option FuncEntry
  | .func f => if f.name = name then some f else none
  | _ => none

/-- The last function of a name is the entry of the name. -/
theorem lookup_func (name : Label) (xs : List LogRecord) :
    (RegionValues.of xs).funcs.lookup name =
      (xs.filterMap (LogRecord.named name)).getLast?.map FuncEntry.value := by
  induction xs using List.reverseRecOn with
  | nil => rfl
  | append_singleton xs x ih =>
      have step : RegionValues.of (xs ++ [x]) = (RegionValues.of xs).file x := by
        unfold RegionValues.of
        rw [List.foldl_append]
        rfl
      have other : x.named name = none →
          (xs ++ [x]).filterMap (LogRecord.named name) = xs.filterMap (LogRecord.named name) := by
        intro skipped
        rw [List.filterMap_append, List.filterMap_cons_none skipped, List.filterMap_nil,
          List.append_nil]
      rw [step]
      cases x with
      | counter c n => rw [other rfl, ← ih, RegionValues.file]
      | hent h => rw [other rfl, ← ih, RegionValues.file]
      | func f =>
          change (AList.insert f.name f.value (RegionValues.of xs).funcs).lookup name = _
          by_cases same : f.name = name
          · have kept : (LogRecord.func f).named name = some f := if_pos same
            rw [← same, AList.lookup_insert, same, List.filterMap_append,
              List.filterMap_cons_some kept, List.filterMap_nil, List.getLast?_concat]
            rfl
          · rw [AList.lookup_insert_ne (Ne.symm same), other (if_neg same), ih]

/-- The functions printed of a region with a name. -/
theorem named_records (t : TaskLog) (r : RegionEntry) (name : Label) :
    (t.records r).filterMap (LogRecord.named name) =
      (r.funcs.filter fun f => 0 < f.count).filter fun f => f.name = name := by
  have counters : (if t.hpmCanceled then [] else
      r.counters.map fun c => LogRecord.counter c.1 c.2).filterMap (LogRecord.named name) = [] := by
    split
    · rfl
    · rw [List.filterMap_map, List.filterMap_eq_nil_iff]
      exact fun _ _ => rfl
  unfold TaskLog.records
  rw [List.filterMap_append, counters, List.nil_append, List.filterMap_map]
  generalize r.funcs.filter (fun f => 0 < f.count) = fs
  rw [← List.filterMap_eq_filter]
  refine List.filterMap_congr fun f _ => ?_
  rw [Option.guard]
  simp only [decide_eq_true_iff]
  rfl

/-- The hash entries a task files. -/
theorem hents_filings (t : TaskLog) : t.filings.filterMap Filing.hent =
    t.entries.map fun h => h.parsed (t.mpiRank, t.labelAt h.region) := by
  have elements : (t.regionFilings t.regions).filterMap Filing.hent = [] := by
    rw [List.filterMap_eq_nil_iff]
    intro f mem
    rcases List.mem_flatMap.mp mem with ⟨r, _, inside⟩
    rcases List.mem_cons.mp inside with rfl | given
    · rfl
    · rcases List.mem_map.mp given with ⟨x, recorded, rfl⟩
      rcases List.mem_append.mp recorded with counter | func
      · split at counter
        · cases counter
        · rcases List.mem_map.mp counter with ⟨c, _, rfl⟩
          rfl
      · rcases List.mem_map.mp func with ⟨f, _, rfl⟩
        rfl
  rw [TaskLog.filings, List.filterMap_append, elements, List.nil_append, List.filterMap_map,
    ← List.filterMap_eq_map]
  rfl

/-- The tasks of these ranks, in this order. -/
def JobTables.visit (J : JobTables) (ranks : List Nat) : List TaskValues :=
  ranks.filterMap fun rank => (J.task.lookup rank).map (TaskValues.mk rank)

theorem funcValues_visit (J : JobTables) (ranks : List Nat) (label name : Label) :
    funcValues (J.visit ranks) label name = ranks.filterMap fun rank =>
      ((J.region (rank, label)).bind fun R => R.funcs.lookup name).map (Prod.mk rank) := by
  unfold funcValues visits JobTables.visit JobTables.region
  rw [List.filterMap_filterMap, List.filterMap_filterMap]
  refine List.filterMap_congr fun rank _ => ?_
  dsimp only
  cases J.task.lookup rank with
  | none => rfl
  | some T =>
      rw [Option.bind_some]
      change ((T.lookup label).map (Prod.mk rank)).bind _ = _
      cases T.lookup label <;> rfl

end Ipm
