import Mathlib.Data.List.Infix
import Mathlib.Data.List.Nodup
import Ipm.Lib.Scan
import Ipm.Region.Safety

/-!
# Reading the regions of a log

`ipm_log_write` prints the label of every region of a task, and the index of its region
with every hash entry.  `ipm_parse` keeps one map from indices to labels for the whole job.

* `regionTag_print`: what the pattern of `ipm_parse` reads of a printed label.
* `readLog_eq`: the log is read to its end.
* `attributed_iff`: when every record is filed under the region of its task.
* `attributed_of_same_labels`: it is when the tasks make the same regions in one order.
-/

namespace Ipm

open Scan

/-! ## The labels of a task -/

/-- The labels of the regions of a task. -/
def RegionState.rows (t : RegionState) : List Label :=
  (List.range t.nregion).map fun i : Nat => t.label i

/-- The labels of the regions differ. -/
theorem RegionsOk.rows_nodup {t : RegionState} (regions : RegionsOk t) : t.rows.Nodup := by
  have ne : ∀ i j : Nat, i < j → j < t.nregion → t.label i ≠ t.label j := by
    intro i j less below same
    have differ := regions.distinct i j less below
    rw [same, Bool.eq_false_iff] at differ
    exact differ (sameLabel_iff.2 rfl)
  refine List.Nodup.map_on (fun i memI j memJ same => ?_) List.nodup_range
  rcases Nat.lt_trichotomy i j with less | same' | more
  · exact absurd same (ne i j less (List.mem_range.1 memJ))
  · exact same'
  · exact absurd same.symm (ne j i more (List.mem_range.1 memI))

/-! ## The log of a job -/

/-- A `<func>` element: a row of `call_mcount` and `call_mtime`, the time as printed. -/
structure FuncEntry where
  name : Label
  count : Nat
  time : Label
  deriving DecidableEq

/-- A `<hent>` element: the index of its region, and the rest as printed. -/
structure HashEntry where
  key : Int
  call : Label
  bytes : Int
  orank : Int
  region : Nat
  count : Nat
  times : Label × Label × Label
  deriving DecidableEq

/-- A region of a task, with a label that has no quote and no angle bracket.  `attrs` is what
follows the label and its quote in the `<region>` element. -/
structure RegionEntry where
  label : Label
  attrs : Label
  counters : List (Label × Int)
  funcs : List FuncEntry
  plain : '"' ∉ label ∧ '<' ∉ label ∧ '>' ∉ label
  closed : '>' ∈ attrs.takeWhile (· != '\n')

/-- What `ipm_log_write` reads of the regions and the hash table of a task. -/
structure TaskLog where
  mpiRank : Nat
  hpmCanceled : Bool
  logFull : Bool
  regions : List RegionEntry
  hash : List HashEntry
  room : regions.length ≤ maxsizeRegion
  short : ∀ r ∈ regions, r.label.length ≤ maxsizeLabel
  distinct : (regions.map RegionEntry.label).Nodup
  known : ∀ h ∈ hash, h.region < regions.length

/-- The tasks of a job, in the order of their records in the log. -/
structure JobLog where
  tasks : List TaskLog
  ranks : (tasks.map TaskLog.mpiRank).Nodup

/-- A record that belongs to a region. -/
inductive LogRecord
  | counter (name : Label) (count : Int)
  | func (entry : FuncEntry)
  | hent (entry : HashEntry)
  deriving DecidableEq

/-- The lines of a log that have to do with regions.  A region line is given from its label
on. -/
inductive LogLine
  | task (mpiRank : Nat)
  | region (text : Label)
  | record (r : LogRecord)
  | endRegion

/-- `%s` of a row of `region_label`.  A label that fills its row has no terminating zero,
and is followed by the next row.  The last row is followed by a byte of padding. -/
def printLabel : List Label → Label
  | [] => []
  | row :: rows => if row.length < maxsizeLabel then row else row ++ printLabel rows

/-- The label of the first of these regions, printed. -/
def printRegions (rs : List RegionEntry) : Label := printLabel (rs.map RegionEntry.label)

namespace TaskLog

variable (t : TaskLog)

/-- The counters and functions printed of a region. -/
def records (r : RegionEntry) : List LogRecord :=
  (if t.hpmCanceled then [] else r.counters.map fun c => LogRecord.counter c.1 c.2) ++
    (r.funcs.filter fun f => 0 < f.count).map LogRecord.func

/-- The hash entries printed. -/
def entries : List HashEntry := if t.logFull then t.hash else []

def writeRegions : List RegionEntry → List LogLine
  | [] => []
  | r :: rs =>
      .region (printRegions (r :: rs) ++ '"' :: ' ' :: r.attrs) ::
        ((t.records r).map .record ++ .endRegion :: writeRegions rs)

/-- `ipm_log_write`. -/
def write : List LogLine :=
  .task t.mpiRank :: (t.writeRegions t.regions ++ t.entries.map fun h => .record (.hent h))

end TaskLog

def JobLog.write (job : JobLog) : List LogLine := job.tasks.flatMap TaskLog.write

/-! ## Reading it -/

/-- What `/<region label="(\S+)" (.*)>/` reads of a line, from its label on: the blanks end
the characters `\S+` can take, so the quote is the last of them. -/
def regionTag (text : Label) : Option Label :=
  let run := text.takeWhile fun c => !isSpace c
  let rest := text.dropWhile fun c => !isSpace c
  if run.getLast? = some '"' ∧ run.dropLast ≠ [] ∧ rest.head? = some ' ' ∧
      '>' ∈ rest.takeWhile (· != '\n') then
    some run.dropLast
  else none

def parseNone : Label := "parse_none".toList

/-- A region of a task of the job, by rank and label. -/
abbrev Place := Nat × Label

/-- `$region_index`, `$J->{region_index}`, `$region_current`, `$mpi_rank` and the place `$R`
refers to.  `filed` has every record read so far with the place it went to. -/
structure ParseState where
  regionIndex : Nat
  labelOf : Nat → Option Label
  regionCurrent : Label
  mpiRank : Nat
  place : Option Place
  filed : List (LogRecord × Option Place)

def parseInit : ParseState where
  regionIndex := 0
  labelOf := fun _ => none
  regionCurrent := parseNone
  mpiRank := 0
  place := none
  filed := []

/-- ERROR: region started prior to another closing. -/
inductive ParseStop
  | regionOpen
  deriving DecidableEq

namespace ParseState

variable (s : ParseState)

/-- A region line that matches. -/
def openRegion (tag : Label) : ParseState :=
  let s := { s with regionCurrent := tag, place := some (s.mpiRank, tag) }
  if s.labelOf s.regionIndex = none then
    { s with
      labelOf := Function.update s.labelOf s.regionIndex (some tag)
      regionIndex := s.regionIndex + 1 }
  else s

/-- Where a record goes.  The label of an index that is not in the map is the empty string. -/
def placeOf : LogRecord → Option Place
  | .hent h => some (s.mpiRank, (s.labelOf h.region).getD [])
  | _ => s.place

/-- A pass of the loop of `ipm_parse` over the lines. -/
def parseLine : LogLine → Except ParseStop ParseState
  | .task rank => .ok { s with regionIndex := 0, mpiRank := rank }
  | .region text =>
      match regionTag text with
      | none => .ok s
      | some tag =>
          if parseNone <:+: s.regionCurrent then .ok (s.openRegion tag) else .error .regionOpen
  | .record r => .ok { s with filed := s.filed ++ [(r, s.placeOf r)] }
  | .endRegion => .ok { s with regionCurrent := parseNone }

end ParseState

/-- The records of a log with their places. -/
def readLog (lines : List LogLine) : Except ParseStop (List (LogRecord × Option Place)) :=
  (Runs.run ParseState.parseLine parseInit lines).map ParseState.filed

/-- The label of a region of a task. -/
def TaskLog.labelAt (t : TaskLog) (i : Nat) : Label :=
  ((t.regions.map RegionEntry.label)[i]?).getD []

/-- The records of some regions of a task, with their places. -/
def TaskLog.givenRegions (t : TaskLog) (rs : List RegionEntry) :
    List (LogRecord × Option Place) :=
  rs.flatMap fun r => (t.records r).map fun x => (x, some (t.mpiRank, r.label))

/-- The records of a task, with the places the task gave them. -/
def TaskLog.given (t : TaskLog) : List (LogRecord × Option Place) :=
  t.givenRegions t.regions ++
    t.entries.map fun h => (.hent h, some (t.mpiRank, t.labelAt h.region))

/-- Every record is filed under the region its task made it in. -/
def Attributed (job : JobLog) : Prop :=
  readLog job.write = .ok (job.tasks.flatMap TaskLog.given)

/-! ## Labels -/

/-- Labels the pattern can read. -/
def Legible (label : Label) : Prop := label ≠ [] ∧ ∀ c ∈ label, isSpace c = false

instance (label : Label) : Decidable (Legible label) := inferInstanceAs (Decidable (_ ∧ _))

/-- The label the pattern reads of the first of these regions. -/
def tagOf (rs : List RegionEntry) : Option Label :=
  if Legible (printRegions rs) then some (printRegions rs) else none

theorem regionTag_print {p attrs : Label} (plain : '"' ∉ p)
    (closed : '>' ∈ attrs.takeWhile (· != '\n')) :
    regionTag (p ++ '"' :: ' ' :: attrs) = if Legible p then some p else none := by
  by_cases blank : ∀ c ∈ p, isSpace c = false
  · -- The blank after the quote ends the run.
    have all : ∀ c ∈ p, (!isSpace c) = true := fun c mem => by rw [blank c mem]; rfl
    have run : (p ++ '"' :: ' ' :: attrs).takeWhile (fun c => !isSpace c) = p ++ ['"'] := by
      rw [List.takeWhile_append_of_pos all]
      rfl
    have rest : (p ++ '"' :: ' ' :: attrs).dropWhile (fun c => !isSpace c) = ' ' :: attrs := by
      rw [List.dropWhile_append_of_pos all]
      rfl
    have close : '>' ∈ (' ' :: attrs).takeWhile (· != '\n') :=
      List.mem_cons_of_mem ' ' closed
    unfold regionTag
    simp only [run, rest, List.getLast?_concat, List.dropLast_concat, List.head?_cons, close,
      true_and, and_true]
    by_cases nonempty : p = []
    · rw [if_neg (fun ne => ne nonempty), if_neg fun legible => legible.1 nonempty]
    · rw [if_pos nonempty, if_pos ⟨nonempty, blank⟩]
  · -- A blank in the label ends it, and what comes before has no quote.
    have short : ¬ ((p.takeWhile fun c => !isSpace c).length = p.length) := by
      intro full
      have same := (List.takeWhile_prefix fun c => !isSpace c).eq_of_length full
      refine blank fun c mem => ?_
      rw [← same] at mem
      simpa using List.mem_takeWhile_imp mem
    have run : (p ++ '"' :: ' ' :: attrs).takeWhile (fun c => !isSpace c) =
        p.takeWhile fun c => !isSpace c := by
      rw [List.takeWhile_append, if_neg short]
    have unquoted : (p.takeWhile fun c => !isSpace c).getLast? ≠ some '"' := fun quote =>
      plain ((List.takeWhile_prefix _).subset (List.mem_of_getLast? quote))
    have illegible : ¬ Legible p := fun legible => blank legible.2
    unfold regionTag
    simp only [run, unquoted, illegible, false_and, if_false]

theorem printLabel_plain {rows : List Label} {c : Char} (plain : ∀ row ∈ rows, c ∉ row) :
    c ∉ printLabel rows := by
  induction rows with
  | nil => exact List.not_mem_nil
  | cons row rows ih =>
      unfold printLabel
      split
      · exact plain row List.mem_cons_self
      · rw [List.mem_append]
        intro given
        rcases given with mem | mem
        · exact plain row List.mem_cons_self mem
        · exact ih (fun row' mem' => plain row' (List.mem_cons_of_mem _ mem')) mem

/-- The printed label starts with the label, and ends there when the row has room. -/
theorem printRegions_cons (r : RegionEntry) (rs : List RegionEntry) :
    r.label <+: printRegions (r :: rs) ∧
      (r.label.length < maxsizeLabel → printRegions (r :: rs) = r.label) := by
  change r.label <+: printLabel (r.label :: _) ∧ (_ → printLabel (r.label :: _) = _)
  unfold printLabel
  split
  · exact ⟨List.prefix_rfl, fun _ => rfl⟩
  · next full => exact ⟨List.prefix_append _ _, fun room => absurd room full⟩

theorem regionTag_region (r : RegionEntry) (rs : List RegionEntry) :
    regionTag (printRegions (r :: rs) ++ '"' :: ' ' :: r.attrs) = tagOf (r :: rs) := by
  refine regionTag_print (printLabel_plain fun row mem => ?_) r.closed
  obtain ⟨r', -, rfl⟩ := List.mem_map.1 mem
  exact r'.plain.1

/-- The tag of a region is not the label of another. -/
theorem tagOf_ne {r r' : RegionEntry} {rs : List RegionEntry} {tag : Label}
    (tagged : tagOf (r :: rs) = some tag) (short : r.label.length ≤ maxsizeLabel)
    (short' : r'.label.length ≤ maxsizeLabel) (ne : r'.label ≠ r.label) : tag ≠ r'.label := by
  rintro rfl
  obtain ⟨starts, room⟩ := printRegions_cons r rs
  unfold tagOf at tagged
  split at tagged
  · rw [Option.some.injEq] at tagged
    rw [tagged] at starts room
    rcases Nat.lt_or_ge r.label.length maxsizeLabel with less | full
    · exact ne (room less)
    · refine ne (starts.eq_of_length ?_).symm
      have := starts.length_le
      omega
  · cases tagged

/-- A region is read back when its label is legible and printed alone. -/
theorem tagOf_eq_label (r : RegionEntry) (rs : List RegionEntry) :
    tagOf (r :: rs) = some r.label ↔ Legible r.label ∧ printRegions (r :: rs) = r.label := by
  unfold tagOf
  constructor
  · intro tagged
    split at tagged
    · next legible =>
        rw [Option.some.injEq] at tagged
        rw [tagged] at legible
        exact ⟨legible, tagged⟩
    · cases tagged
  · intro given
    rcases given with ⟨legible, alone⟩
    rw [alone, if_pos legible]

/-! ## Where the records go -/

/-- The labels read of some regions of a task. -/
def tags : List RegionEntry → List Label
  | [] => []
  | r :: rs => (tagOf (r :: rs)).toList ++ tags rs

/-- The labels read of the first task that has any. -/
def firstTags (ts : List TaskLog) : List Label :=
  ts.foldl (fun m t => if m = [] then tags t.regions else m) []

theorem firstTags_snoc (ts : List TaskLog) (t : TaskLog) :
    firstTags (ts ++ [t]) = if firstTags ts = [] then tags t.regions else firstTags ts := by
  rw [firstTags, List.foldl_append]
  rfl

namespace TaskLog

variable (t : TaskLog)

/-- The place `$R` refers to after the line of the first of these regions. -/
def placeAfter (place : Option Place) (rs : List RegionEntry) : Option Place :=
  ((tagOf rs).map fun tag => (t.mpiRank, tag)).or place

/-- The records of some regions, with the places they go to. -/
def filedRegions (place : Option Place) : List RegionEntry → List (LogRecord × Option Place)
  | [] => []
  | r :: rs =>
      ((t.records r).map fun x => (x, t.placeAfter place (r :: rs))) ++
        filedRegions (t.placeAfter place (r :: rs)) rs

/-- The records of a task, with the places they go to. -/
def filed (place : Option Place) (m : List Label) : List (LogRecord × Option Place) :=
  t.filedRegions place t.regions ++
    t.entries.map fun h => (.hent h, some (t.mpiRank, (m[h.region]?).getD []))

end TaskLog

open ParseState

/-- The map has the labels `m`, and a task whose labels are new is adding to them. -/
structure Maps (s : ParseState) (new : Bool) (m : List Label) : Prop where
  labelOf : s.labelOf = fun n => m[n]?
  regionIndex : s.regionIndex = if new then m.length else 0
  old : new = false → m ≠ []

theorem update_getElem? (m : List Label) (tag : Label) :
    Function.update (fun n => m[n]?) m.length (some tag) = fun n => (m ++ [tag])[n]? := by
  funext n
  rcases Nat.lt_trichotomy n m.length with less | rfl | more
  · rw [Function.update_of_ne (by omega), List.getElem?_append_left less]
  · rw [Function.update_self, List.getElem?_concat_length]
  · rw [Function.update_of_ne (by omega), List.getElem?_eq_none (by omega),
      List.getElem?_eq_none (by rw [List.length_append]; exact more)]

theorem Maps.openRegion {s : ParseState} {new : Bool} {m : List Label} (maps : Maps s new m)
    (tag : Label) : Maps (s.openRegion tag) new (if new then m ++ [tag] else m) := by
  obtain ⟨labelOf, regionIndex, old⟩ := maps
  cases new with
  | true =>
      have index : s.regionIndex = m.length := regionIndex
      have free : s.labelOf s.regionIndex = none := by
        rw [labelOf, index]
        exact List.getElem?_eq_none (Nat.le_refl _)
      unfold ParseState.openRegion
      refine ⟨?_, ?_, nofun⟩
      · simp only [free, if_true]
        rw [labelOf, index, update_getElem?]
      · simp only [free, if_true]
        rw [index, List.length_append]
        rfl
  | false =>
      have index : s.regionIndex = 0 := regionIndex
      have taken : s.labelOf s.regionIndex ≠ none := by
        rw [labelOf, index]
        intro none
        exact old rfl (List.eq_nil_of_length_eq_zero
          (Nat.le_zero.1 (List.getElem?_eq_none_iff.1 none)))
      unfold ParseState.openRegion
      simp only [taken, if_false]
      exact ⟨labelOf, regionIndex, old⟩

/-- A region line changes neither the rank nor what has been filed. -/
theorem openRegion_frame (s : ParseState) (tag : Label) :
    (s.openRegion tag).mpiRank = s.mpiRank ∧ (s.openRegion tag).filed = s.filed ∧
      (s.openRegion tag).place = some (s.mpiRank, tag) := by
  unfold ParseState.openRegion
  dsimp only
  split <;> exact ⟨rfl, rfl, rfl⟩

/-- Lines of records change nothing but what has been filed. -/
theorem run_records (s : ParseState) (xs : List LogRecord) :
    Runs.run parseLine s (xs.map .record) =
      .ok { s with filed := s.filed ++ xs.map fun x => (x, s.placeOf x) } := by
  induction xs generalizing s with
  | nil =>
      rw [List.map_nil, List.map_nil, List.append_nil]
      rfl
  | cons x xs ih =>
      rw [List.map_cons, Runs.run_cons]
      change Runs.run parseLine { s with filed := s.filed ++ [(x, s.placeOf x)] } _ = _
      rw [ih, List.map_cons, List.append_assoc]
      rfl

/-- Counters and functions go to the current region. -/
theorem placeOf_records {t : TaskLog} {r : RegionEntry} {x : LogRecord} (mem : x ∈ t.records r)
    (s : ParseState) : s.placeOf x = s.place := by
  rcases List.mem_append.1 mem with mem | mem
  · split at mem
    · cases mem
    · obtain ⟨c, -, rfl⟩ := List.mem_map.1 mem
      rfl
  · obtain ⟨f, -, rfl⟩ := List.mem_map.1 mem
    rfl

/-- A state between two regions of a task. -/
structure Between (t : TaskLog) (s : ParseState) (new : Bool) (m : List Label) : Prop where
  closed : s.regionCurrent = parseNone
  rank : s.mpiRank = t.mpiRank
  maps : Maps s new m

/-- Reading the line of a region. -/
theorem parseLine_region {t : TaskLog} {s : ParseState} {new : Bool} {m : List Label}
    (between : Between t s new m) (r : RegionEntry) (rs : List RegionEntry) :
    ∃ s', parseLine s (.region (printRegions (r :: rs) ++ '"' :: ' ' :: r.attrs)) = .ok s' ∧
      s'.mpiRank = t.mpiRank ∧
      Maps s' new (if new then m ++ (tagOf (r :: rs)).toList else m) ∧
      s'.place = t.placeAfter s.place (r :: rs) ∧ s'.filed = s.filed := by
  have line : parseLine s (.region (printRegions (r :: rs) ++ '"' :: ' ' :: r.attrs)) =
      match tagOf (r :: rs) with
      | none => .ok s
      | some tag =>
          if parseNone <:+: s.regionCurrent then .ok (s.openRegion tag)
          else .error .regionOpen := by
    rw [← regionTag_region]
    rfl
  rw [line]
  cases tagged : tagOf (r :: rs) with
  | none =>
      refine ⟨s, rfl, between.rank, ?_, ?_, rfl⟩
      · rw [Option.toList_none, List.append_nil, ite_self]
        exact between.maps
      · rw [TaskLog.placeAfter, tagged]
        rfl
  | some tag =>
      have opens : parseNone <:+: s.regionCurrent := by
        rw [between.closed]
      obtain ⟨rank, filed, place⟩ := openRegion_frame s tag
      refine ⟨s.openRegion tag, if_pos opens, rank.trans between.rank,
        between.maps.openRegion tag, ?_, filed⟩
      rw [place, TaskLog.placeAfter, tagged, between.rank]
      rfl

/-- Reading the elements of some regions. -/
theorem run_regions {t : TaskLog} {s : ParseState} {new : Bool} {m : List Label}
    (between : Between t s new m) (rs : List RegionEntry) :
    ∃ s', Runs.run parseLine s (t.writeRegions rs) = .ok s' ∧
      Between t s' new (if new then m ++ tags rs else m) ∧
      (s'.place = s.place ∨ ∃ tag, s'.place = some (t.mpiRank, tag)) ∧
      s'.filed = s.filed ++ t.filedRegions s.place rs := by
  induction rs generalizing s m with
  | nil =>
      refine ⟨s, rfl, ?_, Or.inl rfl, (List.append_nil _).symm⟩
      rw [tags, List.append_nil, ite_self]
      exact between
  | cons r rs ih =>
      obtain ⟨s₁, opened, rank, maps, place, filed⟩ := parseLine_region between r rs
      have placed : (t.records r).map (fun x => (x, s₁.placeOf x)) =
          (t.records r).map fun x => (x, t.placeAfter s.place (r :: rs)) :=
        List.map_congr_left fun x mem => by rw [placeOf_records mem, place]
      obtain ⟨s', ran, between', place', filed'⟩ := ih (s := { s₁ with
        filed := s₁.filed ++ (t.records r).map fun x => (x, s₁.placeOf x)
        regionCurrent := parseNone }) ⟨rfl, rank, maps.labelOf, maps.regionIndex, maps.old⟩
      refine ⟨s', ?_, ?_, ?_, ?_⟩
      · rw [TaskLog.writeRegions, Runs.run_cons_ok opened, Runs.run_append, run_records]
        exact ran
      · cases new with
        | true =>
            rw [if_pos rfl, if_pos rfl, List.append_assoc] at between'
            exact between'
        | false => exact between'
      · rcases place' with same | here
        · have after : s'.place = t.placeAfter s.place (r :: rs) := same.trans place
          rw [TaskLog.placeAfter] at after
          cases tagged : tagOf (r :: rs) with
          | none =>
              rw [tagged] at after
              exact Or.inl after
          | some tag =>
              rw [tagged] at after
              exact Or.inr ⟨tag, after⟩
        · exact Or.inr here
      · rw [filed', placed, filed, List.append_assoc, TaskLog.filedRegions]
        change _ ++ (_ ++ t.filedRegions s₁.place rs) = _
        rw [place]

/-- Reading the record of a task. -/
theorem run_task {s : ParseState} {m : List Label} (closed : s.regionCurrent = parseNone)
    (labelOf : s.labelOf = fun n => m[n]?) (t : TaskLog) :
    ∃ s', Runs.run parseLine s t.write = .ok s' ∧ s'.regionCurrent = parseNone ∧
      s'.labelOf = (fun n => (if m = [] then tags t.regions else m)[n]?) ∧
      (s'.place = s.place ∨ ∃ tag, s'.place = some (t.mpiRank, tag)) ∧
      s'.filed = s.filed ++ t.filed s.place (if m = [] then tags t.regions else m) := by
  have between : Between t { s with regionIndex := 0, mpiRank := t.mpiRank } (m = []) m := by
    refine ⟨closed, rfl, labelOf, ?_, fun old => of_decide_eq_false old⟩
    by_cases empty : m = []
    · rw [empty]
      rfl
    · rw [decide_eq_false empty]
      rfl
  obtain ⟨s₁, ran, between', place, filed⟩ := run_regions between t.regions
  have labels : (if decide (m = []) = true then m ++ tags t.regions else m) =
      if m = [] then tags t.regions else m := by
    by_cases empty : m = []
    · rw [empty]
      rfl
    · rw [decide_eq_false empty, if_neg empty]
      rfl
  rw [labels] at between'
  have hents : (t.entries.map fun h => LogLine.record (.hent h)) =
      (t.entries.map LogRecord.hent).map .record := by
    rw [List.map_map]
    rfl
  refine ⟨{ s₁ with
    filed := s₁.filed ++ (t.entries.map LogRecord.hent).map fun x => (x, s₁.placeOf x) },
    ?_, between'.closed, between'.maps.labelOf, place, ?_⟩
  · rw [TaskLog.write, Runs.run_cons]
    change Runs.run parseLine _ _ = _
    rw [Runs.run_append, ran, hents]
    exact run_records s₁ _
  · have placed : (t.entries.map LogRecord.hent).map (fun x => (x, s₁.placeOf x)) =
        t.entries.map fun h => (.hent h,
          some (t.mpiRank, ((if m = [] then tags t.regions else m)[h.region]?).getD [])) := by
      rw [List.map_map]
      refine List.map_congr_left fun h _ => ?_
      change (LogRecord.hent h, some (s₁.mpiRank, (s₁.labelOf h.region).getD [])) = _
      rw [between'.rank, between'.maps.labelOf]
    change s₁.filed ++ _ = _
    rw [placed, filed, List.append_assoc]
    rfl

/-! ## When they are right -/

/-- The records of a task that follow those of the tasks `pre` go where they belong: a region
with records has a label the pattern reads, printed alone, and the labels read of the first
task that has any name the regions of the hash entries. -/
structure ReadBack (pre : List TaskLog) (t : TaskLog) : Prop where
  regions : ∀ r rs, r :: rs <:+ t.regions → t.records r ≠ [] →
    Legible r.label ∧ printRegions (r :: rs) = r.label
  entries : ∀ h ∈ t.entries,
    ((firstTags (pre ++ [t]))[h.region]?).getD [] = t.labelAt h.region

theorem map_pair_eq_iff {α β : Type} {xs : List α} {p q : α → β} :
    (xs.map fun x => (x, p x)) = (xs.map fun x => (x, q x)) ↔ ∀ x ∈ xs, p x = q x := by
  rw [List.map_inj_left]
  exact forall₂_congr fun x _ => by rw [Prod.mk.injEq, and_iff_right rfl]

theorem append_eq_append_iff_of_length {α : Type} {as bs as' bs' : List α}
    (length : as.length = as'.length) : as ++ bs = as' ++ bs' ↔ as = as' ∧ bs = bs' :=
  ⟨fun same => List.append_inj same length, fun ⟨left, right⟩ => by rw [left, right]⟩

theorem filedRegions_length (t : TaskLog) (place : Option Place) (rs : List RegionEntry) :
    (t.filedRegions place rs).length = (t.givenRegions rs).length := by
  induction rs generalizing place with
  | nil => rfl
  | cons r rs ih =>
      rw [TaskLog.filedRegions, TaskLog.givenRegions, List.flatMap_cons, List.length_append,
        List.length_append, ih, List.length_map, List.length_map]
      rfl

/-- After its line the place is a region exactly when the region is read back. -/
theorem placeAfter_eq_iff (t : TaskLog) {place : Option Place} {r : RegionEntry}
    {rs : List RegionEntry} (stale : place ≠ some (t.mpiRank, r.label)) :
    t.placeAfter place (r :: rs) = some (t.mpiRank, r.label) ↔
      Legible r.label ∧ printRegions (r :: rs) = r.label := by
  rw [← tagOf_eq_label, TaskLog.placeAfter]
  cases tagOf (r :: rs) with
  | none =>
      rw [Option.map_none, Option.none_or]
      exact iff_of_false stale nofun
  | some tag => simp

/-- It is none of the other regions. -/
theorem placeAfter_ne (t : TaskLog) {place : Option Place} {r r' : RegionEntry}
    {rs : List RegionEntry} (short : r.label.length ≤ maxsizeLabel)
    (short' : r'.label.length ≤ maxsizeLabel) (other : r'.label ≠ r.label)
    (stale : place ≠ some (t.mpiRank, r'.label)) :
    t.placeAfter place (r :: rs) ≠ some (t.mpiRank, r'.label) := by
  rw [TaskLog.placeAfter]
  cases tagged : tagOf (r :: rs) with
  | none =>
      rw [Option.map_none, Option.none_or]
      exact stale
  | some tag =>
      have ne := tagOf_ne tagged short short' other
      simpa using ne

/-- The records of regions are right when those with records are read back.  The place
before them is none of theirs. -/
theorem filedRegions_eq_iff (t : TaskLog) {place : Option Place} {rs : List RegionEntry}
    (short : ∀ r ∈ rs, r.label.length ≤ maxsizeLabel)
    (distinct : (rs.map RegionEntry.label).Nodup)
    (stale : ∀ r ∈ rs, place ≠ some (t.mpiRank, r.label)) :
    t.filedRegions place rs = t.givenRegions rs ↔
      ∀ r rs', r :: rs' <:+ rs → t.records r ≠ [] →
        Legible r.label ∧ printRegions (r :: rs') = r.label := by
  induction rs generalizing place with
  | nil =>
      refine iff_of_true rfl fun r rs' suffix => ?_
      cases List.suffix_nil.1 suffix
  | cons r rs ih =>
      rw [List.map_cons, List.nodup_cons] at distinct
      have stale' : ∀ r' ∈ rs, t.placeAfter place (r :: rs) ≠ some (t.mpiRank, r'.label) := by
        intro r' mem
        have other : r'.label ≠ r.label := fun same =>
          distinct.1 (same ▸ List.mem_map_of_mem mem)
        exact placeAfter_ne t (short r List.mem_cons_self)
          (short r' (List.mem_cons_of_mem _ mem)) other (stale r' (List.mem_cons_of_mem _ mem))
      have head : ((t.records r).map fun x => (x, t.placeAfter place (r :: rs))) =
          ((t.records r).map fun x => (x, some (t.mpiRank, r.label))) ↔
            (t.records r ≠ [] → Legible r.label ∧ printRegions (r :: rs) = r.label) := by
        rw [map_pair_eq_iff, ← placeAfter_eq_iff t (stale r List.mem_cons_self)]
        constructor
        · intro all nonempty
          obtain ⟨x, mem⟩ := List.exists_mem_of_ne_nil _ nonempty
          exact all x mem
        · exact fun all x mem => all (List.ne_nil_of_mem mem)
      have given : t.givenRegions (r :: rs) =
          ((t.records r).map fun x => (x, some (t.mpiRank, r.label))) ++ t.givenRegions rs :=
        List.flatMap_cons
      rw [TaskLog.filedRegions, given, append_eq_append_iff_of_length (by simp), head,
        ih (fun r' mem => short r' (List.mem_cons_of_mem _ mem)) distinct.2 stale']
      constructor
      · rintro ⟨first, others⟩ r' rs' suffix
        rcases List.suffix_cons_iff.1 suffix with same | inner
        · cases same
          exact first
        · exact others r' rs' inner
      · exact fun all => ⟨all r rs List.suffix_rfl, fun r' rs' suffix =>
          all r' rs' (suffix.trans (List.suffix_cons r rs))⟩

theorem filed_eq_iff {pre : List TaskLog} {t : TaskLog} {place : Option Place}
    (stale : ∀ label, place ≠ some (t.mpiRank, label)) :
    t.filed place (firstTags (pre ++ [t])) = t.given ↔ ReadBack pre t := by
  rw [TaskLog.filed, TaskLog.given,
    append_eq_append_iff_of_length (filedRegions_length t place t.regions),
    filedRegions_eq_iff t t.short t.distinct fun r _ => stale r.label]
  have hents : (t.entries.map fun h => (LogRecord.hent h,
      some (t.mpiRank, ((firstTags (pre ++ [t]))[h.region]?).getD []))) =
      (t.entries.map fun h => (LogRecord.hent h, some (t.mpiRank, t.labelAt h.region))) ↔
      ∀ h ∈ t.entries, ((firstTags (pre ++ [t]))[h.region]?).getD [] = t.labelAt h.region := by
    rw [List.map_inj_left]
    exact forall₂_congr fun h _ => by simp
  rw [hents]
  exact ⟨fun ⟨regions, entries⟩ => ⟨regions, entries⟩,
    fun ⟨regions, entries⟩ => ⟨regions, entries⟩⟩

/-- Reading the records of the tasks that follow `pre`. -/
theorem run_tasks (pre ts : List TaskLog) {s : ParseState}
    (ranks : ((pre ++ ts).map TaskLog.mpiRank).Nodup)
    (closed : s.regionCurrent = parseNone) (labelOf : s.labelOf = fun n => (firstTags pre)[n]?)
    (place : ∀ p ∈ s.place, p.1 ∈ pre.map TaskLog.mpiRank) :
    ∃ s' filed, Runs.run parseLine s (ts.flatMap TaskLog.write) = .ok s' ∧
      s'.filed = s.filed ++ filed ∧
      (filed = ts.flatMap TaskLog.given ↔
        ∀ pre' t post, ts = pre' ++ t :: post → ReadBack (pre ++ pre') t) := by
  induction ts generalizing pre s with
  | nil =>
      refine ⟨s, [], rfl, (List.append_nil _).symm, iff_of_true rfl fun pre' t post split => ?_⟩
      cases pre' <;> cases split
  | cons t ts ih =>
      obtain ⟨s₁, ran, closed₁, labelOf₁, place₁, filed₁⟩ := run_task closed labelOf t
      rw [← firstTags_snoc] at labelOf₁ filed₁
      have fresh : t.mpiRank ∉ pre.map TaskLog.mpiRank := by
        rw [List.map_append, List.nodup_append] at ranks
        intro mem
        exact ranks.2.2 _ mem _ List.mem_cons_self rfl
      have stale : ∀ label, s.place ≠ some (t.mpiRank, label) :=
        fun label here => fresh (place _ here)
      obtain ⟨s', rest, ran', filed', right⟩ := ih (pre ++ [t]) (s := s₁)
        (by rwa [List.append_assoc]) closed₁ labelOf₁ (by
          intro p mem
          rw [List.map_append, List.mem_append]
          rcases place₁ with same | ⟨tag, here⟩
          · rw [same] at mem
            exact Or.inl (place p mem)
          · rw [here] at mem
            cases mem
            exact Or.inr List.mem_cons_self)
      refine ⟨s', t.filed s.place (firstTags (pre ++ [t])) ++ rest, ?_, ?_, ?_⟩
      · rw [List.flatMap_cons, Runs.run_append, ran]
        exact ran'
      · rw [filed', filed₁, List.append_assoc]
      · have length : (t.filed s.place (firstTags (pre ++ [t]))).length = t.given.length := by
          rw [TaskLog.filed, TaskLog.given, List.length_append, List.length_append,
            filedRegions_length, List.length_map, List.length_map]
        rw [List.flatMap_cons, append_eq_append_iff_of_length length, filed_eq_iff stale, right]
        constructor
        · rintro ⟨first, others⟩ pre' t' post split
          cases pre' with
          | nil =>
              cases split
              rwa [List.append_nil]
          | cons u pre' =>
              cases split
              have := others pre' t' post rfl
              rwa [List.append_assoc] at this
        · intro all
          refine ⟨?_, fun pre' t' post split => ?_⟩
          · have := all [] t ts rfl
            rwa [List.append_nil] at this
          · have := all (t :: pre') t' post (by rw [split]; rfl)
            rwa [List.append_cons] at this

/-- No log the writer leaves stops `ipm_parse`, and its places are right where the records are
read back. -/
theorem readLog_eq (job : JobLog) :
    ∃ filed, readLog job.write = .ok filed ∧
      (filed = job.tasks.flatMap TaskLog.given ↔
        ∀ pre t post, job.tasks = pre ++ t :: post → ReadBack pre t) := by
  obtain ⟨s', filed, ran, same, right⟩ := run_tasks [] job.tasks (s := parseInit) job.ranks rfl
    rfl nofun
  refine ⟨filed, ?_, right⟩
  rw [readLog, JobLog.write, ran]
  change Except.ok s'.filed = _
  rw [same]
  rfl

/-- `ipm_parse` files every record under the region its task made it in exactly when, in
every task of the log, the regions with records have labels the pattern reads, printed alone,
and the labels read of the first task that has any name the regions of the hash entries. -/
theorem attributed_iff (job : JobLog) :
    Attributed job ↔ ∀ pre t post, job.tasks = pre ++ t :: post → ReadBack pre t := by
  obtain ⟨filed, read, right⟩ := readLog_eq job
  rw [Attributed, read, Except.ok.injEq, right]

/-- Legible labels with room in their rows are read as they are. -/
theorem tags_eq_labels {rs : List RegionEntry}
    (legible : ∀ r ∈ rs, Legible r.label ∧ r.label.length < maxsizeLabel) :
    tags rs = rs.map RegionEntry.label := by
  induction rs with
  | nil => rfl
  | cons r rs ih =>
      obtain ⟨legible₁, room⟩ := legible r List.mem_cons_self
      have tagged : tagOf (r :: rs) = some r.label :=
        (tagOf_eq_label r rs).2 ⟨legible₁, (printRegions_cons r rs).2 room⟩
      rw [tags, tagged, ih fun r' mem => legible r' (List.mem_cons_of_mem _ mem)]
      rfl

/-- Tasks that make the same legible regions in the same order are attributed. -/
theorem attributed_of_same_labels {job : JobLog} {labels : List Label}
    (same : ∀ t ∈ job.tasks, t.regions.map RegionEntry.label = labels)
    (legible : ∀ label ∈ labels, Legible label ∧ label.length < maxsizeLabel) :
    Attributed job := by
  have read : ∀ t ∈ job.tasks, tags t.regions = labels := fun t mem => by
    rw [← same t mem]
    refine tags_eq_labels fun r memR => legible _ ?_
    rw [← same t mem]
    exact List.mem_map_of_mem memR
  have first : ∀ ts t, ts ++ [t] <+: job.tasks → firstTags (ts ++ [t]) = labels := by
    intro ts
    induction ts using List.reverseRecOn with
    | nil =>
        intro t before
        rw [firstTags_snoc]
        exact read t (before.subset (List.mem_append_right _ List.mem_cons_self))
    | append_singleton ts u ih =>
        intro t before
        rw [firstTags_snoc, ih u ((List.prefix_append _ _).trans before),
          read t (before.subset (List.mem_append_right _ List.mem_cons_self)), ite_self]
  obtain ⟨filed, done, right⟩ := readLog_eq job
  rw [Attributed, done, Except.ok.injEq, right]
  intro pre t post split
  have mem : t ∈ job.tasks := by
    rw [split]
    exact List.mem_append_right _ List.mem_cons_self
  refine ⟨fun r rs suffix _ => ?_, fun h _ => ?_⟩
  · obtain ⟨legible₁, room⟩ := legible r.label (by
      rw [← same t mem]
      exact List.mem_map_of_mem (suffix.subset List.mem_cons_self))
    exact ⟨legible₁, (printRegions_cons r rs).2 room⟩
  · rw [first pre t ⟨post, by rw [split, List.append_assoc]; rfl⟩, TaskLog.labelAt, same t mem]

/-! ## Two orders of the same labels -/

/-- A region with neither counters nor functions. -/
def idleRegion (label : Label) (plain : '"' ∉ label ∧ '<' ∉ label ∧ '>' ∉ label) :
    RegionEntry where
  label := label
  attrs := "nexits=\"1\" wtime=\"1.0e+00\" utime=\"0.0e+00\" stime=\"0.0e+00\" >".toList
  counters := []
  funcs := []
  plain := plain
  closed := by decide

/-- `ipm_init` makes the first region. -/
def startRegion : RegionEntry := idleRegion noregion (by decide)

def regionA : RegionEntry := idleRegion ['a'] (by decide)
def regionB : RegionEntry := idleRegion ['b'] (by decide)

/-- A task whose first region but one makes one call, if `calls` says so. -/
def orderedTask (mpiRank : Nat) (first second : RegionEntry) (hash : List HashEntry)
    (short : ∀ r ∈ [startRegion, first, second], r.label.length ≤ maxsizeLabel)
    (distinct : ([startRegion, first, second].map RegionEntry.label).Nodup)
    (known : ∀ h ∈ hash, h.region < 3) : TaskLog where
  mpiRank := mpiRank
  hpmCanceled := true
  logFull := true
  regions := [startRegion, first, second]
  hash := hash
  room := show 3 ≤ maxsizeRegion by decide
  short := short
  distinct := distinct
  known := known

/-- An MPI_Send in region 1. -/
def sendEntry : HashEntry :=
  ⟨1, "MPI_Send".toList, 8, 0, 1, 1, "1.0e+00".toList, "1.0e+00".toList, "1.0e+00".toList⟩

/-- Rank 0 enters `a` before `b`, rank 1 enters `b` first and sends a message there. -/
def twoOrders : JobLog where
  tasks :=
    [orderedTask 0 regionA regionB [] (by decide) (by decide) nofun,
      orderedTask 1 regionB regionA [sendEntry] (by decide) (by decide) (by decide)]
  ranks := by decide

/-- The message is filed under `a`. -/
theorem twoOrders_filed :
    readLog twoOrders.write = .ok [(.hent sendEntry, some (1, ['a']))] := by
  rfl

/-- Not every log is attributed. -/
theorem other_order_misfiled : ¬ ∀ job : JobLog, Attributed job := by
  intro all
  have same := all twoOrders
  rw [Attributed, twoOrders_filed] at same
  exact absurd (Except.ok.inj same) (by decide)

end Ipm
