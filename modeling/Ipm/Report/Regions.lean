import Ipm.Report.Collect

/-!
# The regions in the report

What rank 0 gets for a region in a round of `ipm_report`.  A task that lacks the region
sets `rbuf` to zero but reduces the MPI times, the call counts and the hardware counters
it still has from an earlier round, or from the whole job.

* `reportNet_reaches`: the lines rank 0 prints.
* `regionSums_iff`: with labels that fit, the sums of a round are right exactly when the
  tasks that lack the region carry nothing over.
-/

namespace Ipm

open Spmd

section

variable {n : Nat} [NeZero n] (sizes : ReportSizes) (task : Fin n → ReportTask)

/-- The label rank 0 broadcasts in a round. -/
def roundLabel (r : Nat) : Label :=
  (task (Fin.ofNat n 0)).state.region.label ((task (Fin.ofNat n 0)).preg r)

/-- The region of a task in a round. -/
def roundRegion (r : Nat) (p : Fin n) : Option Nat :=
  if p.val = 0 then some ((task p).preg r) else (task p).matchRegion (roundLabel task r)

/-- The totals of a task before round `r`. -/
def totalsBefore (p : Fin n) : Nat → Totals
  | 0 => (task p).jobTotals sizes
  | r + 1 => (task p).roundTotals sizes (roundRegion task r p) (totalsBefore p r)

/-- The line rank 0 prints in round `r`. -/
def roundLine (r : Nat) : ReportLine where
  label := roundLabel task r
  reduced := reduced (fun p => totalsBefore sizes task p (r + 1)) fun p => (task p).cpop

theorem roundLine_label (r : Nat) : (roundLine sizes task r).label = roundLabel task r := rfl

/-! ## The run -/

variable {task}

theorem reduceAll_reaches {x : Fin n → Totals} {cpop : Fin n → Nat → Int}
    {k : Fin n → Reduced → ReportProg n} :
    Reaches ReportStep (quiet (fun p => reduceAll sizes (x p) (cpop p) (k p)) ())
      (quiet (fun p => k p (reduced x cpop)) ()) := by
  refine (reaches_collective fun p => rfl).trans ?_
  refine (reaches_collective fun p => rfl).trans ?_
  refine (reaches_collective fun p => rfl).trans ?_
  refine (reaches_collective fun p => rfl).trans ?_
  refine (reaches_collective fun p => rfl).trans ?_
  refine (reaches_collective fun p => rfl).trans ?_
  refine (reaches_collective fun p => rfl).trans ?_
  refine (reaches_collective fun p => rfl).trans ?_
  rw [← gather_eq]
  exact reaches_collective fun p => rfl

/-- The rounds, from round `ireg` on. -/
theorem reportRounds_reaches {left ireg : Nat} (fits : ∀ p, (task p).RoundsFit ireg left)
    (lines : Fin n → List ReportLine) :
    Reaches ReportStep
      (quiet (fun p => reportRounds sizes p (task p) left ireg
        (totalsBefore sizes task p ireg) (lines p)) ())
      (quiet (fun p => .done (.printed (lines p ++ if p.val = 0 then
        (List.range' ireg left).map (roundLine sizes task) else []))) ()) := by
  induction left generalizing ireg lines with
  | zero =>
      have same : ∀ p : Fin n, lines p ++ (if p.val = 0 then
          (List.range' ireg 0).map (roundLine sizes task) else []) = lines p := by
        intro p
        split <;> exact List.append_nil _
      simp only [same]
      exact .refl _
  | succ left ih =>
      have each := fun p => ReportTask.roundsFit_succ.mp (fits p)
      have short : ∀ p, ¬maxsizeLabel ≤
          ((task p).state.region.label ((task p).preg ireg)).length :=
        fun p => Nat.not_le.mpr (each p).1
      unfold reportRounds
      simp only [short, if_false]
      refine (reaches_collective fun p => rfl).trans ?_
      refine (reduceAll_reaches sizes).trans ?_
      have next := ih (fun p => (each p).2)
        fun p => lines p ++ printLine p (roundLine sizes task ireg)
      have same : ∀ p : Fin n, lines p ++ (if p.val = 0 then
          (List.range' ireg (left + 1)).map (roundLine sizes task) else []) =
          lines p ++ printLine p (roundLine sizes task ireg) ++ (if p.val = 0 then
            (List.range' (ireg + 1) left).map (roundLine sizes task) else []) := by
        intro p
        unfold printLine
        split
        · rw [List.range'_succ, List.map_cons, List.append_assoc, List.singleton_append]
        · rw [List.append_nil, List.append_nil]
      simp only [same]
      exact next

variable (task) in
/-- The report of tasks with the same number of regions: the line of the whole job,
and one line a round where there is more than one region. -/
theorem reportNet_endsIn {nregion : Nat} (running : ∀ p, (task p).appInterrupted = false)
    (same : ∀ p, (task p).state.region.nregion = nregion) (fits : ∀ p, (task p).LabelsFit) :
    ∃ whole z, EndsIn ReportStep (reportNet sizes false task) z ∧
      z.prog (Fin.ofNat n 0) = .done (.printed (whole ::
        (List.range (if 1 < nregion then nregion else 0)).map (roundLine sizes task))) := by
  have : Nonempty (Fin n) := ⟨Fin.ofNat n 0⟩
  have root : (Fin.ofNat n 0).val = 0 := Nat.zero_mod n
  let whole : ReportLine := ⟨['*'], reduced (fun p => (task p).jobTotals sizes)
    fun p => (task p).cpop⟩
  have start : Reaches ReportStep (reportNet sizes false task)
      (quiet (fun p => if 1 < nregion then
        reportRounds sizes p (task p) nregion 0 ((task p).jobTotals sizes) (printLine p whole)
        else .done (.printed (printLine p whole))) ()) := by
    have programs : ∀ p, ipmReport sizes false p (task p) =
        reduceAll sizes ((task p).jobTotals sizes) (task p).cpop fun got =>
          if 1 < nregion then reportRounds sizes p (task p) nregion 0
            ((task p).jobTotals sizes) (printLine p ⟨['*'], got⟩)
          else .done (.printed (printLine p ⟨['*'], got⟩)) := by
      intro p
      unfold ipmReport
      rw [running, same]
      rfl
    rw [reportNet, funext programs]
    exact reduceAll_reaches sizes
  have finish (lines : Fin n → List ReportLine)
      (reaches : Reaches ReportStep (reportNet sizes false task)
        (quiet (fun p => .done (.printed (lines p))) ())) :
      EndsIn ReportStep (reportNet sizes false task)
        (quiet (fun p => .done (.printed (lines p))) ()) :=
    endsIn_of_reaches (step_diamond fun _ _ _ _ _ _ => rfl) (terminal_of_done fun p => ⟨_, rfl⟩)
      reaches
  by_cases many : 1 < nregion
  · have rounds : ∀ p, (task p).RoundsFit 0 nregion := by
      intro p
      have fit := (fits p).resolve_left (Bool.eq_false_iff.mp (running p))
      rwa [ReportTask.rounds, same, if_pos many] at fit
    simp only [many, if_true] at start ⊢
    refine ⟨whole, _, finish _ (start.trans (reportRounds_reaches sizes rounds _)), ?_⟩
    rw [quiet_prog, if_pos root, printLine, if_pos root, ← List.range_eq_range']
    rfl
  · simp only [many, if_false] at start ⊢
    refine ⟨whole, _, finish _ start, ?_⟩
    rw [quiet_prog, printLine, if_pos root]
    rfl

end

/-! ## What a round adds up -/

section

variable {n : Nat} [NeZero n] (sizes : ReportSizes) (task : Fin n → ReportTask)

/-- No totals. -/
def Totals.none : Totals := ⟨fun _ => 0, fun _ => 0, fun _ => 0, fun _ _ => 0⟩

/-- The values of a task for a label: those of its region of that label, or zero. -/
def ReportTask.valueFor (t : ReportTask) (l : Label) : Totals :=
  match t.matchRegion l with
  | .none => .none
  | some j => t.regionTotals sizes j

/-- The region a task matched last before a round. -/
def lastMatch (r : Nat) (p : Fin n) : Option Nat :=
  (List.range r).reverse.findSome? fun s => (task p).matchRegion (roundLabel task s)

/-- The values of the region a task matched last, or those of the whole job if it has
matched none. -/
def lastTotals (r : Nat) (p : Fin n) : Totals :=
  match lastMatch task r p with
  | .none => (task p).jobTotals sizes
  | some j => (task p).regionTotals sizes j

/-- What a task that lacks the region of a round still has. -/
def carried (r : Nat) (p : Fin n) : Totals :=
  match (task p).matchRegion (roundLabel task r) with
  | .none => { lastTotals sizes task r p with rbuf := fun _ => 0 }
  | some _ => .none

/-- The sums rank 0 gets for a label are right: the wall, user, system and MPI times, the
time and the count of every call, and every counter. -/
structure SumsRight (line : ReportLine) (l : Label) : Prop where
  rbuf : ∀ i, i < 4 → line.reduced.rbuf .sum i = ∑ p, ((task p).valueFor sizes l).rbuf i
  mpiTime : ∀ icall, line.reduced.mpiTime icall = ∑ p, ((task p).valueFor sizes l).mpiTime icall
  mpiCount : ∀ icall,
    line.reduced.mpiCount icall = ∑ p, ((task p).valueFor sizes l).mpiCount icall
  cbuf : ∀ i j, line.reduced.cbuf .sum i j = ∑ p, ((task p).valueFor sizes l).cbuf i j

/-- What the tasks carry into a round adds up to nothing. -/
structure NothingCarried (r : Nat) : Prop where
  mpiTime : ∀ icall, ∑ p, (carried sizes task r p).mpiTime icall = 0
  mpiCount : ∀ icall, ∑ p, (carried sizes task r p).mpiCount icall = 0
  cbuf : ∀ i j, ∑ p, (carried sizes task r p).cbuf i j = 0

/-- What holds of every task that comes to the report: the regions are as `ipm_region`
keeps them, and no wall time is negative. -/
structure ReportTask.Ok (t : ReportTask) : Prop extends RegionsOk t.state.region where
  wtime_nonneg : ∀ i : Nat, 0 ≤ t.state.region.wtime i
  wtime_unused : ∀ i : Nat, t.state.region.nregion ≤ i → t.state.region.wtime i = 0

variable {task}

/-- The rounds are about the regions of the task, each of which has one. -/
theorem ReportTask.Ok.preg_lt {t : ReportTask} (ok : t.Ok) {r : Nat}
    (inside : r < t.state.region.nregion) : t.preg r < t.state.region.nregion := by
  unfold ReportTask.preg
  exact indexDoubles_lt ok.wtime_nonneg ok.wtime_unused ok.nregion_le inside

theorem ReportTask.Ok.exists_round {t : ReportTask} (ok : t.Ok) {g : Nat}
    (region : g < t.state.region.nregion) : ∃ r, r < t.state.region.nregion ∧ t.preg r = g := by
  unfold ReportTask.preg
  exact indexDoubles_surj ok.wtime_nonneg ok.wtime_unused ok.nregion_le region

/-- Rank 0 would find the region of a round by its label as well. -/
theorem matchRegion_root (ok : ∀ p, (task p).Ok) {r : Nat}
    (inside : r < (task (Fin.ofNat n 0)).state.region.nregion) :
    (task (Fin.ofNat n 0)).matchRegion (roundLabel task r) =
      some ((task (Fin.ofNat n 0)).preg r) := by
  have regions := ok (Fin.ofNat n 0)
  have below := regions.preg_lt inside
  unfold ReportTask.matchRegion roundLabel
  generalize (task (Fin.ofNat n 0)).preg r = g at below
  refine List.find?_range_eq_some.mpr ⟨?_, List.mem_range.mpr below, fun j earlier => ?_⟩
  · rw [sameLabel_iff]
  · rw [sameLabel_comm, regions.distinct j g earlier below]
    rfl

theorem roundRegion_eq (ok : ∀ p, (task p).Ok) {r : Nat}
    (inside : r < (task (Fin.ofNat n 0)).state.region.nregion) (p : Fin n) :
    roundRegion task r p = (task p).matchRegion (roundLabel task r) := by
  unfold roundRegion
  split
  · rename_i zero
    obtain rfl : p = Fin.ofNat n 0 := Fin.ext (zero.trans (Nat.zero_mod n).symm)
    rw [matchRegion_root ok inside]
  · rfl

variable (task) in
theorem lastMatch_succ (r : Nat) (p : Fin n) : lastMatch task (r + 1) p =
    ((task p).matchRegion (roundLabel task r)).or (lastMatch task r p) := by
  unfold lastMatch
  rw [List.range_succ, List.reverse_append, List.reverse_singleton, List.singleton_append,
    List.findSome?_cons]
  cases (task p).matchRegion (roundLabel task r) <;> rfl

/-- Apart from `rbuf`, a task comes to a round with the values of the region it matched
last. -/
theorem totalsBefore_eq (ok : ∀ p, (task p).Ok) {r : Nat}
    (inside : r ≤ (task (Fin.ofNat n 0)).state.region.nregion) (p : Fin n) :
    totalsBefore sizes task p r =
      { lastTotals sizes task r p with rbuf := (totalsBefore sizes task p r).rbuf } := by
  induction r with
  | zero => rfl
  | succ r ih =>
      unfold lastTotals
      rw [totalsBefore, roundRegion_eq ok inside, lastMatch_succ]
      cases (task p).matchRegion (roundLabel task r) with
      | none =>
          rw [ReportTask.roundTotals, ih (Nat.le_of_lt inside)]
          rfl
      | some j => rfl

/-- What a task contributes to a round: its values for the label, and what it carries. -/
theorem totalsBefore_succ (ok : ∀ p, (task p).Ok) {r : Nat}
    (inside : r < (task (Fin.ofNat n 0)).state.region.nregion) (p : Fin n) :
    (totalsBefore sizes task p (r + 1)).rbuf =
        ((task p).valueFor sizes (roundLabel task r)).rbuf ∧
      (∀ i, (totalsBefore sizes task p (r + 1)).mpiTime i =
        ((task p).valueFor sizes (roundLabel task r)).mpiTime i +
          (carried sizes task r p).mpiTime i) ∧
      (∀ i, (totalsBefore sizes task p (r + 1)).mpiCount i =
        ((task p).valueFor sizes (roundLabel task r)).mpiCount i +
          (carried sizes task r p).mpiCount i) ∧
      ∀ i j, (totalsBefore sizes task p (r + 1)).cbuf i j =
        ((task p).valueFor sizes (roundLabel task r)).cbuf i j +
          (carried sizes task r p).cbuf i j := by
  unfold carried ReportTask.valueFor
  rw [totalsBefore, roundRegion_eq ok inside]
  cases (task p).matchRegion (roundLabel task r) with
  | none =>
      rw [ReportTask.roundTotals, totalsBefore_eq sizes ok (Nat.le_of_lt inside)]
      simp [Totals.none]
  | some j => simp [ReportTask.roundTotals, Totals.none]

theorem sum_over {X : Type} [AddCommMonoid X] [Min X] [Max X] (x : Fin n → X) :
    MpiOp.sum.over x = ∑ p, x p := List.sum_ofFn

omit [NeZero n] in
/-- Sums that differ by what is carried are equal if nothing is. -/
theorem sum_eq_iff {X : Type} [AddCommGroup X] {a b c : Fin n → X} (split : ∀ p, a p = b p + c p) :
    ∑ p, a p = ∑ p, b p ↔ ∑ p, c p = 0 := by
  rw [Finset.sum_congr rfl fun p _ => split p, Finset.sum_add_distrib, add_eq_left]

/-- The sums of a round are right exactly when nothing is carried into it. -/
theorem sumsRight_iff (ok : ∀ p, (task p).Ok) {r : Nat}
    (inside : r < (task (Fin.ofNat n 0)).state.region.nregion) :
    SumsRight sizes task (roundLine sizes task r) (roundLabel task r) ↔
      NothingCarried sizes task r := by
  have each := totalsBefore_succ sizes ok inside
  have time (i : Nat) := sum_eq_iff fun p => (each p).2.1 i
  have count (i : Nat) := sum_eq_iff fun p => (each p).2.2.1 i
  have counter (i j : Nat) := sum_eq_iff fun p => (each p).2.2.2 i j
  constructor
  · intro right
    refine ⟨fun i => (time i).mp ?_, fun i => (count i).mp ?_, fun i j => (counter i j).mp ?_⟩
    · rw [← right.mpiTime i, ← sum_over]
      rfl
    · rw [← right.mpiCount i, ← sum_over]
      rfl
    · rw [← right.cbuf i j, ← sum_over]
      rfl
  · intro nothing
    refine ⟨fun i _ => ?_, fun i => ?_, fun i => ?_, fun i j => ?_⟩
    · rw [← Finset.sum_congr rfl fun p _ => congrFun (each p).1 i, ← sum_over]
      rfl
    · rw [← (time i).mpr (nothing.mpiTime i), ← sum_over]
      rfl
    · rw [← (count i).mpr (nothing.mpiCount i), ← sum_over]
      rfl
    · rw [← (counter i j).mpr (nothing.cbuf i j), ← sum_over]
      rfl

end

/-! ## Regions with different labels -/

/-- A task with one event of call 1 in its region 0, of five seconds. -/
def eventReportTask (labels : List Label) : ReportTask :=
  let t := plainReportTask labels
  let key := ipmMpiKey (fun _ => callMaskBprec) 0 1 0 8
  { t with state := { t.state with table := (t.state.table.setEnt (key % 5) ⟨key, 1, 5, 5, 5⟩) } }

/-- Besides `ipm_noregion`, rank 0 has region `a` and rank 1 has region `b`. -/
def unlikeTasks (p : Fin 2) : ReportTask :=
  if p.val = 0 then plainReportTask [noregion, ['a']] else eventReportTask [noregion, ['b']]

theorem plainReportTask_ok {labels : List Label} (few : labels.length ≤ maxsizeRegion)
    (distinct : ∀ i j : Nat, i < j → j < labels.length →
      sameLabel (labels.getD i []) (labels.getD j []) = false) : (plainReportTask labels).Ok where
  nregion_le := few
  distinct i j less below := distinct i j less below
  wtime_nonneg i := by
    change (0 : Rat) ≤ if _ then 1 else 0
    split <;> decide
  wtime_unused i outside := by
    change (if _ then (1 : Rat) else 0) = 0
    rw [if_neg]
    change labels.length ≤ i at outside
    omega

theorem unlikeTasks_ok (p : Fin 2) : (unlikeTasks p).Ok := by
  have two (x y : Label) (apart : sameLabel x y = false) : ∀ i j : Nat, i < j →
      j < [x, y].length → sameLabel ([x, y].getD i []) ([x, y].getD j []) = false := by
    intro i j less below
    change j < 2 at below
    obtain ⟨rfl, rfl⟩ : i = 0 ∧ j = 1 := by omega
    exact apart
  unfold unlikeTasks
  split
  · exact plainReportTask_ok (by decide) (two _ _ (by decide))
  · have plain : (plainReportTask [noregion, ['b']]).Ok :=
      plainReportTask_ok (by decide) (two _ _ (by decide))
    exact ⟨plain.toRegionsOk, plain.wtime_nonneg, plain.wtime_unused⟩

theorem unlikeTasks_fit (p : Fin 2) : (unlikeTasks p).LabelsFit := by
  unfold unlikeTasks
  split
  · exact .of_short (plainReportTask_short (by decide))
  · have short : ∀ i : Nat, ((plainReportTask [noregion, ['b']]).state.region.label i).length <
        maxsizeLabel := plainReportTask_short (by decide)
    exact .of_short fun i => short i

theorem unlikeTasks_same : ∀ p, (unlikeTasks p).state.region.nregion = 2 := by decide

theorem unlikeTasks_two : (unlikeTasks (Fin.ofNat 2 0)).state.region.nregion = 2 := rfl

/-- The event of rank 1 is among those of its job and of its region 0. -/
theorem unlikeTasks_event : ((unlikeTasks 1).jobTotals smallSizes).mpiTime 1 = 5 ∧
    ((unlikeTasks 1).regionTotals smallSizes 0).mpiTime 1 = 5 := by
  decide +kernel

theorem unlikeTasks_match : (unlikeTasks 1).matchRegion noregion = some 0 ∧
    (unlikeTasks 0).matchRegion ['a'] = some 1 ∧ (unlikeTasks 1).matchRegion ['a'] = none := by
  decide

/-- The other round of rank 0 is that of `ipm_noregion`. -/
theorem roundLabel_unlike (found : (unlikeTasks (Fin.ofNat 2 0)).preg 1 = 1) :
    roundLabel unlikeTasks 0 = noregion := by
  have below := (unlikeTasks_ok (Fin.ofNat 2 0)).preg_lt (r := 0) (by rw [unlikeTasks_two]; omega)
  rw [unlikeTasks_two] at below
  have apart : (unlikeTasks (Fin.ofNat 2 0)).preg 0 ≠ 1 := fun same =>
    absurd ((unlikeTasks (Fin.ofNat 2 0)).preg.injective (same.trans found.symm)) Nat.zero_ne_one
  have first : (unlikeTasks (Fin.ofNat 2 0)).preg 0 = 0 := by omega
  rw [roundLabel, first]
  rfl

/-- Whatever region rank 1 matched last before region `a`, it has the event. -/
theorem lastTotals_unlike {r : Nat} (inside : r < 2)
    (found : (unlikeTasks (Fin.ofNat 2 0)).preg r = 1) :
    (lastTotals smallSizes unlikeTasks r 1).mpiTime 1 = 5 := by
  obtain rfl | rfl : r = 0 ∨ r = 1 := by omega
  · exact unlikeTasks_event.1
  · have last : lastMatch unlikeTasks 1 1 = some 0 := by
      have step := lastMatch_succ unlikeTasks 0 1
      rw [roundLabel_unlike found, unlikeTasks_match.1, Option.some_or] at step
      exact step
    rw [lastTotals, last]
    exact unlikeTasks_event.2

end Ipm
