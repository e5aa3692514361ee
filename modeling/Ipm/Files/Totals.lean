import Mathlib.Algebra.BigOperators.Group.List.Basic
import Mathlib.Data.Nat.ModEq
import Ipm.Files.Buckets
import Ipm.Lib.Extremes

/-!
# The grand total of `files`

The first pass of `main` (`src/files.c`) adds the buckets up in `T`.  From the first bucket with
files it takes the numbers of files and bytes and the times, but not the number of blocks, nor the
least and greatest of bytes and blocks, of which it has the file names alone.

* `pfile_run`: a bucket has the totals of its files.
* `firstPass_merged`: what the pass makes of them.
* `totals_iff`: the grand total is that of all files exactly when it does not show that these are
  missing.
-/

namespace Ipm

open Extremes

/-! ## The first pass -/

/-- The first bucket with files. -/
def FtypeEnt.mergeFirst (T e : FtypeEnt) : FtypeEnt where
  desc := T.desc
  nfile := e.nfile
  nbyte := e.nbyte
  nblock := T.nblock
  cageMin := e.cageMin
  cageMax := e.cageMax
  mageMin := e.mageMin
  mageMax := e.mageMax
  byteMin := ⟨T.byteMin.value, e.byteMin.fname⟩
  byteMax := ⟨T.byteMax.value, e.byteMax.fname⟩
  blockMin := ⟨T.blockMin.value, e.blockMin.fname⟩
  blockMax := ⟨T.blockMax.value, e.blockMax.fname⟩

/-- The buckets behind it. -/
def FtypeEnt.mergeNext (T e : FtypeEnt) : FtypeEnt where
  desc := T.desc
  nfile := T.nfile + e.nfile
  nbyte := toULL (T.nbyte + e.nbyte)
  nblock := toULL (T.nblock + e.nblock)
  cageMin := e.cageMin.lower T.cageMin
  cageMax := e.cageMax.higher T.cageMax
  mageMin := e.mageMin.lower T.mageMin
  mageMax := e.mageMax.higher T.mageMax
  byteMin := e.byteMin.lower T.byteMin
  byteMax := e.byteMax.higher T.byteMax
  blockMin := e.blockMin.lower T.blockMin
  blockMax := e.blockMax.higher T.blockMax

/-- `T` and `ftypes_num`. -/
structure FirstPass where
  T : FtypeEnt
  ftypesNum : Nat

def FirstPass.init : FirstPass := ⟨{ FtypeEnt.clear with desc := "*".toList }, 0⟩

def FirstPass.add (s : FirstPass) (e : FtypeEnt) : FirstPass :=
  if 0 < e.nfile then
    ⟨if s.T.nfile = 0 then s.T.mergeFirst e else s.T.mergeNext e, s.ftypesNum + 1⟩
  else s

def firstPass (ftypesMax : Nat) (t : Nat → FtypeEnt) : FirstPass :=
  (List.range ftypesMax).foldl (fun s i => s.add (t i)) .init

/-! ## Totals -/

/-- The eleven statistics. -/
structure FileTotals where
  nfile : Nat
  nbyte : Nat
  nblock : Nat
  cageMin : Int
  cageMax : Int
  mageMin : Int
  mageMax : Int
  byteMin : Nat
  byteMax : Nat
  blockMin : Nat
  blockMax : Nat
deriving DecidableEq

def FtypeEnt.totals (e : FtypeEnt) : FileTotals where
  nfile := e.nfile
  nbyte := e.nbyte
  nblock := e.nblock
  cageMin := e.cageMin.value
  cageMax := e.cageMax.value
  mageMin := e.mageMin.value
  mageMax := e.mageMax.value
  byteMin := e.byteMin.value
  byteMax := e.byteMax.value
  blockMin := e.blockMin.value
  blockMax := e.blockMax.value

/-- The totals of one file. -/
def FileTotals.single (f : VisitedFile) : FileTotals :=
  ⟨1, toULL f.size, toULL f.blocks, f.ctime, f.ctime, f.mtime, f.mtime, f.size, f.size, f.blocks,
    f.blocks⟩

/-- One file more. -/
def FileTotals.add (a : FileTotals) (f : VisitedFile) : FileTotals where
  nfile := a.nfile + 1
  nbyte := toULL (a.nbyte + f.size)
  nblock := toULL (a.nblock + f.blocks)
  cageMin := min a.cageMin f.ctime
  cageMax := max a.cageMax f.ctime
  mageMin := min a.mageMin f.mtime
  mageMax := max a.mageMax f.mtime
  byteMin := min a.byteMin f.size
  byteMax := max a.byteMax f.size
  blockMin := min a.blockMin f.blocks
  blockMax := max a.blockMax f.blocks

/-- The fold of all files; without any it is zero throughout. -/
def foldTotals : List VisitedFile → FileTotals
  | [] => FtypeEnt.clear.totals
  | f :: files => files.foldl FileTotals.add (.single f)

/-- The totals are those of the files. -/
structure FileTotals.Of (a : FileTotals) (files : List VisitedFile) : Prop where
  nfile : a.nfile = files.length
  nbyte : a.nbyte = toULL (files.map VisitedFile.size).sum
  nblock : a.nblock = toULL (files.map VisitedFile.blocks).sum
  cageMin : Least (files.map VisitedFile.ctime) a.cageMin
  cageMax : Greatest (files.map VisitedFile.ctime) a.cageMax
  mageMin : Least (files.map VisitedFile.mtime) a.mageMin
  mageMax : Greatest (files.map VisitedFile.mtime) a.mageMax
  byteMin : Least (files.map VisitedFile.size) a.byteMin
  byteMax : Greatest (files.map VisitedFile.size) a.byteMax
  blockMin : Least (files.map VisitedFile.blocks) a.blockMin
  blockMax : Greatest (files.map VisitedFile.blocks) a.blockMax

/-! ## Which files are where -/

/-- The buckets of files of some types, one after the other. -/
def Placing.keys (ftypesMax : Nat) : Placing → List Label → List Nat
  | _, [] => []
  | p, type :: types =>
      match p.findKey ftypesMax type with
      | .error _ => []
      | .ok key => key :: (p.put key type).keys ftypesMax types

/-- The files with their buckets. -/
def placedFiles (env : FilesSetup) (files : List VisitedFile) : List (Nat × VisitedFile) :=
  (Placing.init.keys env.ftypesMax (files.filterMap fun f => fileType f.ftype)).zip files

/-- The first bucket with files. -/
def firstKey (env : FilesSetup) (files : List VisitedFile) : Nat :=
  (((placedFiles env files).map Prod.fst).min?).getD 0

def firstFiles (env : FilesSetup) (files : List VisitedFile) : List VisitedFile :=
  ((placedFiles env files).filter fun kf => kf.1 == firstKey env files).map Prod.snd

def otherFiles (env : FilesSetup) (files : List VisitedFile) : List VisitedFile :=
  ((placedFiles env files).filter fun kf => kf.1 != firstKey env files).map Prod.snd

/-- A file has none of a quantity, and those of the first bucket have none or no more than one
behind it. -/
def FromZero (env : FilesSetup) (files : List VisitedFile) (quantity : VisitedFile → Nat) : Prop :=
  (∃ f ∈ files, quantity f = 0) ∧ ∀ f ∈ firstFiles env files,
    quantity f = 0 ∨ ∃ g ∈ otherFiles env files, quantity f ≤ quantity g

/-- What is not taken from the first bucket does not show. -/
structure TotalsFit (env : FilesSetup) (files : List VisitedFile) : Prop where
  nblock : 2 ^ 64 ∣ ((firstFiles env files).map VisitedFile.blocks).sum
  byte : FromZero env files VisitedFile.size
  block : FromZero env files VisitedFile.blocks

/-- The grand total is the fold over all files. -/
def TotalsRight (env : FilesSetup) (files : List VisitedFile) (s : FilesState) : Prop :=
  (firstPass env.ftypesMax s.t).T.totals = foldTotals files

/-! ## A bucket -/

theorem Mark.value_lower {V : Type} [LinearOrder V] (new old : Mark V) :
    (new.lower old).value = min old.value new.value := by
  unfold Mark.lower
  split
  · exact (min_eq_right_of_lt ‹_›).symm
  · exact (min_eq_left (not_lt.mp ‹_›)).symm

theorem Mark.value_higher {V : Type} [LinearOrder V] (new old : Mark V) :
    (new.higher old).value = max old.value new.value := by
  unfold Mark.higher
  split
  · exact (max_eq_right_of_lt ‹_›).symm
  · exact (max_eq_left (not_lt.mp ‹_›)).symm

theorem toULL_add_left (a b : Nat) : toULL (toULL a + b) = toULL (a + b) := Nat.mod_add_mod a _ b

theorem toULL_add_right (a b : Nat) : toULL (a + toULL b) = toULL (a + b) := Nat.add_mod_mod a b _

theorem FtypeEnt.totals_next (e : FtypeEnt) (f : VisitedFile) :
    (e.next f).totals = e.totals.add f := by
  unfold FtypeEnt.next FtypeEnt.totals FileTotals.add
  simp only [Mark.value_lower, Mark.value_higher, VisitedFile.mark]

theorem FileTotals.of_single (f : VisitedFile) : (FileTotals.single f).Of [f] where
  nfile := rfl
  nbyte := rfl
  nblock := rfl
  cageMin := least_singleton f.ctime
  cageMax := greatest_singleton f.ctime
  mageMin := least_singleton f.mtime
  mageMax := greatest_singleton f.mtime
  byteMin := least_singleton f.size
  byteMax := greatest_singleton f.size
  blockMin := least_singleton f.blocks
  blockMax := greatest_singleton f.blocks

/-- Totals of some files stay those with one more. -/
theorem FileTotals.Of.add {a : FileTotals} {files : List VisitedFile} (right : a.Of files)
    (f : VisitedFile) : (a.add f).Of (files ++ [f]) := by
  constructor <;> simp only [List.map_append, List.sum_append, List.length_append]
  · exact congrArg (· + 1) right.nfile
  · exact (congrArg (fun n => toULL (n + f.size)) right.nbyte).trans (toULL_add_left _ _)
  · exact (congrArg (fun n => toULL (n + f.blocks)) right.nblock).trans (toULL_add_left _ _)
  · exact right.cageMin.append (least_singleton f.ctime)
  · exact right.cageMax.append (greatest_singleton f.ctime)
  · exact right.mageMin.append (least_singleton f.mtime)
  · exact right.mageMax.append (greatest_singleton f.mtime)
  · exact right.byteMin.append (least_singleton f.size)
  · exact right.byteMax.append (greatest_singleton f.size)
  · exact right.blockMin.append (least_singleton f.blocks)
  · exact right.blockMax.append (greatest_singleton f.blocks)

theorem FileTotals.Of.unique {a b : FileTotals} {files : List VisitedFile} (left : a.Of files)
    (right : b.Of files) : a = b := by
  cases a
  cases b
  simp only [FileTotals.mk.injEq]
  exact ⟨left.nfile.trans right.nfile.symm, left.nbyte.trans right.nbyte.symm,
    left.nblock.trans right.nblock.symm, left.cageMin.unique right.cageMin,
    left.cageMax.unique right.cageMax, left.mageMin.unique right.mageMin,
    left.mageMax.unique right.mageMax, left.byteMin.unique right.byteMin,
    left.byteMax.unique right.byteMax, left.blockMin.unique right.blockMin,
    left.blockMax.unique right.blockMax⟩

/-- The fold over some files has their totals. -/
theorem foldTotals_of {files : List VisitedFile} (some : files ≠ []) :
    (foldTotals files).Of files := by
  cases files with
  | nil => exact absurd rfl some
  | cons f files =>
      have fold : ∀ (gs fs : List VisitedFile) (a : FileTotals), a.Of fs →
          (gs.foldl FileTotals.add a).Of (fs ++ gs) := by
        intro gs
        induction gs with
        | nil =>
            intro fs a right
            rw [List.append_nil]
            exact right
        | cons g gs ih =>
            intro fs a right
            rw [List.append_cons]
            exact ih _ _ (right.add g)
      exact fold files [f] _ (FileTotals.of_single f)

/-- The bucket has these files. -/
structure FtypeEnt.Holds (e : FtypeEnt) (files : List VisitedFile) : Prop where
  nfile : e.nfile = files.length
  totals : files ≠ [] → e.totals.Of files

theorem FtypeEnt.Holds.clear : FtypeEnt.clear.Holds [] where
  nfile := rfl
  totals some := absurd rfl some

theorem FtypeEnt.Holds.add {e : FtypeEnt} {files : List VisitedFile} (holds : e.Holds files)
    (type : Label) (f : VisitedFile) : (e.add type f).Holds (files ++ [f]) := by
  unfold FtypeEnt.add
  split_ifs with free
  · have none : files = [] := List.length_eq_zero_iff.mp (holds.nfile.symm.trans free)
    subst none
    exact ⟨rfl, fun _ => FileTotals.of_single f⟩
  · refine ⟨?_, fun _ => ?_⟩
    · rw [List.length_append]
      exact congrArg (· + 1) holds.nfile
    · rw [FtypeEnt.totals_next]
      refine (holds.totals fun none => ?_).add f
      rw [none] at holds
      exact free holds.nfile

/-- One more file in one of the buckets. -/
theorem holds_update {t : Nat → FtypeEnt} {done : Nat → List VisitedFile}
    (holds : ∀ key, (t key).Holds (done key)) (key : Nat) (type : Label) (f : VisitedFile)
    (k : Nat) : (Function.update t key ((t key).add type f) k).Holds
      (Function.update done key (done key ++ [f]) k) := by
  rcases eq_or_ne k key with rfl | other
  · rw [Function.update_self, Function.update_self]
    exact (holds k).add type f
  · rw [Function.update_of_ne other, Function.update_of_ne other]
    exact holds k

/-! ## The buckets after a run -/

theorem Placing.findKey_lt {ftypesMax : Nat} (pos : 0 < ftypesMax) {p : Placing} {type : Label}
    {key : Nat} (last : p.keyLast < ftypesMax) (found : p.findKey ftypesMax type = .ok key) :
    key < ftypesMax := by
  unfold Placing.findKey at found
  split_ifs at found
  · rw [← Except.ok.inj found]
    exact last
  · rcases search_cases pos p.t type with
      ⟨n, probed, crowded, stops⟩ | ⟨two, crowded⟩ | ⟨one, crowded⟩
    · rw [search_ok pos probed crowded stops] at found
      split_ifs at found
      rw [← Except.ok.inj found]
      exact probeKey_lt pos _ n
    · rw [search_full two crowded] at found
      split_ifs at found
    · subst one
      rw [search_hangs crowded] at found
      cases found

/-- The files of a bucket. -/
def bucketFiles (placed : List (Nat × VisitedFile)) (key : Nat) : List VisitedFile :=
  (placed.filter fun kf => kf.1 == key).map Prod.snd

theorem bucketFiles_cons (kf : Nat × VisitedFile) (placed : List (Nat × VisitedFile)) (key : Nat) :
    bucketFiles (kf :: placed) key =
      if kf.1 = key then kf.2 :: bucketFiles placed key else bucketFiles placed key := by
  unfold bucketFiles
  rw [List.filter_cons]
  split_ifs with here there there
  · rfl
  · exact absurd (eq_of_beq here) there
  · exact absurd (beq_iff_eq.mpr there) here
  · rfl

/-- A run leaves every bucket with the totals of its files, on top of what it had. -/
theorem pfile_run {env : FilesSetup} {files : List VisitedFile} {s s' : FilesState}
    (passes : ∀ f ∈ files, env.passes f = true) (last : s.keyLast < env.ftypesMax)
    {done : Nat → List VisitedFile} (holds : ∀ key, (s.t key).Holds (done key))
    (ran : Runs.run (pfile env) s files = .ok s') :
    ∃ placed : List (Nat × VisitedFile),
      (s.placing.keys env.ftypesMax
        (files.filterMap fun f => fileType f.ftype)).zip files = placed ∧
      placed.map Prod.snd = files ∧ (∀ kf ∈ placed, kf.1 < env.ftypesMax) ∧
      ∀ key, (s'.t key).Holds (done key ++ bucketFiles placed key) := by
  induction files generalizing s done with
  | nil =>
      cases ran
      refine ⟨[], rfl, rfl, fun kf mem => absurd mem List.not_mem_nil, fun key => ?_⟩
      have none : bucketFiles [] key = [] := rfl
      rw [none, List.append_nil]
      exact holds key
  | cons f files ih =>
      rcases Runs.run_cons_eq_ok ran with ⟨u, stepped, rest⟩
      have pass := passes f List.mem_cons_self
      rcases pfile_placing pass stepped with ⟨type, key, typed, found, placing⟩
      rcases pfile_eq_ok pass stepped with ⟨type', key', typed', found', rfl⟩
      cases typed.symm.trans typed'
      cases found.symm.trans found'
      have below := Placing.findKey_lt env.pos last found
      rcases ih (fun g mem => passes g (List.mem_cons_of_mem f mem)) below
          (holds_update holds key type f) rest with ⟨placed, keys, files', inRange, totals⟩
      refine ⟨(key, f) :: placed, ?_, ?_, ?_, fun k => ?_⟩
      · rw [List.filterMap_cons_some (f := fun f : VisitedFile => fileType f.ftype) typed,
          Placing.keys, found]
        rw [placing] at keys
        exact congrArg (List.cons (key, f)) keys
      · rw [List.map_cons, files']
      · intro kf mem
        rcases List.mem_cons.mp mem with rfl | mem
        · exact below
        · exact inRange kf mem
      · have total := totals k
        rw [bucketFiles_cons]
        rcases eq_or_ne key k with rfl | other
        · rw [if_pos rfl]
          rw [Function.update_self, List.append_assoc] at total
          exact total
        · rw [if_neg other]
          rw [Function.update_of_ne other.symm] at total
          exact total

/-! ## What the pass makes of the buckets -/

/-- Of the files of the first bucket some statistics are missing. -/
structure FileTotals.Merged (a : FileTotals) (first behind : List VisitedFile) : Prop where
  nfile : a.nfile = (first ++ behind).length
  nbyte : a.nbyte = toULL ((first ++ behind).map VisitedFile.size).sum
  nblock : a.nblock = toULL (behind.map VisitedFile.blocks).sum
  cageMin : Least ((first ++ behind).map VisitedFile.ctime) a.cageMin
  cageMax : Greatest ((first ++ behind).map VisitedFile.ctime) a.cageMax
  mageMin : Least ((first ++ behind).map VisitedFile.mtime) a.mageMin
  mageMax : Greatest ((first ++ behind).map VisitedFile.mtime) a.mageMax
  byteMin : a.byteMin = 0
  byteMax : Greatest (0 :: behind.map VisitedFile.size) a.byteMax
  blockMin : a.blockMin = 0
  blockMax : Greatest (0 :: behind.map VisitedFile.blocks) a.blockMax

theorem FtypeEnt.merged_first {e : FtypeEnt} {files : List VisitedFile}
    (right : e.totals.Of files) :
    (FirstPass.init.T.mergeFirst e).totals.Merged files [] := by
  constructor <;> try rw [List.append_nil]
  · exact right.nfile
  · exact right.nbyte
  · rfl
  · exact right.cageMin
  · exact right.cageMax
  · exact right.mageMin
  · exact right.mageMax
  · rfl
  · exact greatest_singleton 0
  · rfl
  · exact greatest_singleton 0

theorem FtypeEnt.merged_next {T e : FtypeEnt} {first behind files : List VisitedFile}
    (merged : T.totals.Merged first behind) (right : e.totals.Of files) :
    (T.mergeNext e).totals.Merged first (behind ++ files) := by
  unfold FtypeEnt.mergeNext FtypeEnt.totals
  constructor <;>
    simp only [Mark.value_lower, Mark.value_higher, ← List.append_assoc, List.map_append,
      List.length_append, List.sum_append, ← List.cons_append]
  · have nfile := merged.nfile
    rw [List.length_append] at nfile
    exact congrArg₂ (· + ·) nfile right.nfile
  · have before : T.nbyte = _ := merged.nbyte
    have more : e.nbyte = _ := right.nbyte
    rw [before, more, toULL_add_left, toULL_add_right, List.map_append, List.sum_append]
  · have before : T.nblock = _ := merged.nblock
    have more : e.nblock = _ := right.nblock
    rw [before, more, toULL_add_left, toULL_add_right]
  · have least := merged.cageMin.append right.cageMin
    rw [List.map_append] at least
    exact least
  · have greatest := merged.cageMax.append right.cageMax
    rw [List.map_append] at greatest
    exact greatest
  · have least := merged.mageMin.append right.mageMin
    rw [List.map_append] at least
    exact least
  · have greatest := merged.mageMax.append right.mageMax
    rw [List.map_append] at greatest
    exact greatest
  · exact Nat.min_eq_zero_iff.mpr (Or.inl merged.byteMin)
  · exact merged.byteMax.append right.byteMax
  · exact Nat.min_eq_zero_iff.mpr (Or.inl merged.blockMin)
  · exact merged.blockMax.append right.blockMax

/-- In which order the files behind the first bucket come does not matter. -/
theorem FileTotals.Merged.perm {a : FileTotals} {first behind behind' : List VisitedFile}
    (merged : a.Merged first behind) (perm : behind.Perm behind') : a.Merged first behind' where
  nfile := merged.nfile.trans (perm.append_left first).length_eq
  nbyte := merged.nbyte.trans (congrArg toULL ((perm.append_left first).map _).sum_eq)
  nblock := merged.nblock.trans (congrArg toULL (perm.map _).sum_eq)
  cageMin := (least_perm ((perm.append_left first).map _)).mp merged.cageMin
  cageMax := (greatest_perm ((perm.append_left first).map _)).mp merged.cageMax
  mageMin := (least_perm ((perm.append_left first).map _)).mp merged.mageMin
  mageMax := (greatest_perm ((perm.append_left first).map _)).mp merged.mageMax
  byteMin := merged.byteMin
  byteMax := (greatest_perm ((perm.map _).cons 0)).mp merged.byteMax
  blockMin := merged.blockMin
  blockMax := (greatest_perm ((perm.map _).cons 0)).mp merged.blockMax

/-- The greatest of what is behind the first bucket is the greatest of all. -/
theorem greatest_quantity_iff {first behind files : List VisitedFile} (some : first ≠ [])
    (all : (first ++ behind).Perm files) (quantity : VisitedFile → Nat) {m : Nat}
    (greatest : Greatest (0 :: behind.map quantity) m) :
    Greatest (files.map quantity) m ↔
      ∀ f ∈ first, quantity f = 0 ∨ ∃ g ∈ behind, quantity f ≤ quantity g := by
  rw [← greatest_perm (all.map quantity), List.map_append,
    greatest_append_iff Nat.zero_le (fun none => some (List.map_eq_nil_iff.mp none)) greatest,
    List.forall_mem_map]
  simp only [List.mem_map, exists_exists_and_eq_and]

theorem least_quantity_iff (files : List VisitedFile) (quantity : VisitedFile → Nat) :
    Least (files.map quantity) 0 ↔ ∃ f ∈ files, quantity f = 0 := by
  rw [least_iff_mem Nat.zero_le, List.mem_map]

/-- When what is missing does not show. -/
theorem FileTotals.Merged.of_iff {a : FileTotals} {first behind files : List VisitedFile}
    (merged : a.Merged first behind) (some : first ≠ []) (all : (first ++ behind).Perm files) :
    a.Of files ↔ 2 ^ 64 ∣ (first.map VisitedFile.blocks).sum ∧
      ((∃ f ∈ files, f.size = 0) ∧ ∀ f ∈ first, f.size = 0 ∨ ∃ g ∈ behind, f.size ≤ g.size) ∧
      ((∃ f ∈ files, f.blocks = 0) ∧
        ∀ f ∈ first, f.blocks = 0 ∨ ∃ g ∈ behind, f.blocks ≤ g.blocks) := by
  have nblock : a.nblock = toULL (files.map VisitedFile.blocks).sum ↔
      2 ^ 64 ∣ (first.map VisitedFile.blocks).sum := by
    rw [merged.nblock, ← (all.map _).sum_eq, List.map_append, List.sum_append]
    unfold toULL
    omega
  rw [← greatest_quantity_iff some all _ merged.byteMax,
    ← greatest_quantity_iff some all _ merged.blockMax,
    ← least_quantity_iff files VisitedFile.size, ← least_quantity_iff files VisitedFile.blocks,
    ← nblock]
  constructor
  · intro right
    have byteMin := right.byteMin
    have blockMin := right.blockMin
    rw [merged.byteMin] at byteMin
    rw [merged.blockMin] at blockMin
    exact ⟨right.nblock, ⟨byteMin, right.byteMax⟩, blockMin, right.blockMax⟩
  · intro right
    rcases right with ⟨nblock, ⟨byteMin, byteMax⟩, blockMin, blockMax⟩
    constructor
    · exact merged.nfile.trans all.length_eq
    · exact merged.nbyte.trans (congrArg toULL (all.map _).sum_eq)
    · exact nblock
    · exact (least_perm (all.map _)).mp merged.cageMin
    · exact (greatest_perm (all.map _)).mp merged.cageMax
    · exact (least_perm (all.map _)).mp merged.mageMin
    · exact (greatest_perm (all.map _)).mp merged.mageMax
    · rw [merged.byteMin]
      exact byteMin
    · exact byteMax
    · rw [merged.blockMin]
      exact blockMin
    · exact blockMax

section Pass

variable {placed : List (Nat × VisitedFile)} {t : Nat → FtypeEnt} {key n : Nat}

theorem bucketFiles_ne_nil {kf : Nat × VisitedFile} (mem : kf ∈ placed) :
    bucketFiles placed kf.1 ≠ [] := by
  have here : kf.2 ∈ bucketFiles placed kf.1 :=
    List.mem_map_of_mem (List.mem_filter.mpr ⟨mem, beq_self_eq_true kf.1⟩)
  exact List.ne_nil_of_mem here

/-- The files behind a bucket, up to another one. -/
def filesBehind (placed : List (Nat × VisitedFile)) (key n : Nat) : List VisitedFile :=
  (placed.filter fun kf => kf.1 != key && decide (kf.1 < n)).map Prod.snd

/-- In front of the first bucket with files there are none. -/
theorem filesBehind_self (before : ∀ k < key, bucketFiles placed k = []) :
    filesBehind placed key (key + 1) = [] := by
  unfold filesBehind
  rw [List.map_eq_nil_iff, List.filter_eq_nil_iff]
  intro kf mem
  rw [Bool.and_eq_true, bne_iff_ne, decide_eq_true_eq]
  intro behind
  have below : kf.1 < key := by omega
  exact bucketFiles_ne_nil mem (before kf.1 below)

theorem filesBehind_succ (other : n ≠ key) :
    (filesBehind placed key (n + 1)).Perm (filesBehind placed key n ++ bucketFiles placed n) := by
  unfold filesBehind bucketFiles
  rw [← List.map_append]
  refine List.Perm.map _ ?_
  have parts := filter_or_perm (p := fun kf : Nat × VisitedFile => kf.1 != key && decide (kf.1 < n))
    (q := fun kf => kf.1 == n) placed (by
      intro kf _ before
      rw [Bool.and_eq_true, decide_eq_true_eq] at before
      exact beq_eq_false_iff_ne.mpr (Nat.ne_of_lt before.2))
  have same : (placed.filter fun kf => kf.1 != key && decide (kf.1 < n + 1)) =
      placed.filter fun kf => kf.1 != key && decide (kf.1 < n) || kf.1 == n := by
    refine List.filter_congr fun kf _ => ?_
    rw [Bool.eq_iff_iff]
    simp only [Bool.and_eq_true, Bool.or_eq_true, bne_iff_ne, decide_eq_true_eq, beq_iff_eq]
    omega
  rw [same]
  exact parts

theorem FirstPass.add_of_empty {e : FtypeEnt} (holds : e.Holds []) (s : FirstPass) :
    s.add e = s := by
  unfold FirstPass.add
  rw [holds.nfile]
  rfl

theorem FirstPass.add_of_some {e : FtypeEnt} {files : List VisitedFile} (holds : e.Holds files)
    (some : files ≠ []) (s : FirstPass) :
    s.add e = ⟨if s.T.nfile = 0 then s.T.mergeFirst e else s.T.mergeNext e, s.ftypesNum + 1⟩ := by
  have pos : 0 < e.nfile := by
    rw [holds.nfile]
    exact List.length_pos_iff.mpr some
  unfold FirstPass.add
  rw [if_pos pos]

theorem firstPass_succ (n : Nat) (t : Nat → FtypeEnt) :
    firstPass (n + 1) t = (firstPass n t).add (t n) := by
  unfold firstPass
  rw [List.range_succ, List.foldl_append]
  rfl

/-- The pass merges the files behind the first bucket with those in it. -/
theorem firstPass_merged (holds : ∀ key, (t key).Holds (bucketFiles placed key)) (n : Nat) :
    ((∀ k < n, bucketFiles placed k = []) ∧ firstPass n t = .init) ∨
    ∃ key < n, bucketFiles placed key ≠ [] ∧ (∀ k < key, bucketFiles placed k = []) ∧
      (firstPass n t).T.totals.Merged (bucketFiles placed key) (filesBehind placed key n) := by
  induction n with
  | zero => exact Or.inl ⟨fun k below => absurd below (Nat.not_lt_zero k), rfl⟩
  | succ n ih =>
      rw [firstPass_succ]
      have bucket := holds n
      rcases ih with ⟨empty, pass⟩ | ⟨key, below, some, before, merged⟩
      · rcases eq_or_ne (bucketFiles placed n) [] with none | some
        · rw [none] at bucket
          refine Or.inl ⟨fun k le => ?_, ?_⟩
          · rcases Nat.lt_succ_iff_lt_or_eq.mp le with less | rfl
            · exact empty k less
            · exact none
          · rw [FirstPass.add_of_empty bucket, pass]
        · refine Or.inr ⟨n, Nat.lt_succ_self n, some, empty, ?_⟩
          have uncounted : FirstPass.init.T.nfile = 0 := rfl
          rw [filesBehind_self empty, FirstPass.add_of_some bucket some, pass, if_pos uncounted]
          exact FtypeEnt.merged_first (bucket.totals some)
      · refine Or.inr ⟨key, Nat.lt_succ_of_lt below, some, before, ?_⟩
        have behind : (filesBehind placed key (n + 1)).Perm _ :=
          filesBehind_succ (Nat.ne_of_gt below)
        rcases eq_or_ne (bucketFiles placed n) [] with none | more
        · rw [none] at bucket behind
          rw [FirstPass.add_of_empty bucket]
          rw [List.append_nil] at behind
          exact merged.perm behind.symm
        · have counted : (firstPass n t).T.nfile ≠ 0 := by
            have nfile : (firstPass n t).T.nfile = _ := merged.nfile
            rw [nfile, List.length_append]
            have pos := List.length_pos_iff.mpr some
            omega
          rw [FirstPass.add_of_some bucket more, if_neg counted]
          exact (FtypeEnt.merged_next merged (bucket.totals more)).perm behind.symm

end Pass

section Placed

variable {env : FilesSetup} {files : List VisitedFile} {key : Nat}

/-- The first bucket with files. -/
theorem firstKey_eq (some : bucketFiles (placedFiles env files) key ≠ [])
    (before : ∀ k < key, bucketFiles (placedFiles env files) k = []) :
    firstKey env files = key := by
  have least : ((placedFiles env files).map Prod.fst).min? = Option.some key := by
    rw [List.min?_eq_some_iff]
    refine ⟨?_, fun k mem => ?_⟩
    · rcases List.exists_mem_of_ne_nil _ some with ⟨f, mem⟩
      rcases List.mem_map.mp mem with ⟨kf, filtered, -⟩
      rcases List.mem_filter.mp filtered with ⟨there, here⟩
      rw [← eq_of_beq here]
      exact List.mem_map_of_mem there
    · rcases List.mem_map.mp mem with ⟨kf, there, rfl⟩
      exact Nat.le_of_not_lt fun less => bucketFiles_ne_nil there (before kf.1 less)
  unfold firstKey
  rw [least]
  rfl

theorem otherFiles_eq (inRange : ∀ kf ∈ placedFiles env files, kf.1 < env.ftypesMax) :
    otherFiles env files =
      filesBehind (placedFiles env files) (firstKey env files) env.ftypesMax := by
  unfold otherFiles filesBehind
  refine congrArg (List.map Prod.snd) (List.filter_congr fun kf mem => ?_)
  rw [decide_eq_true (inRange kf mem), Bool.and_true]

theorem firstFiles_append (all : (placedFiles env files).map Prod.snd = files) :
    (firstFiles env files ++ otherFiles env files).Perm files := by
  have parts := (List.filter_append_perm (fun kf => kf.1 == firstKey env files)
    (placedFiles env files)).map Prod.snd
  rw [List.map_append, all] at parts
  exact parts

/-- The fold is the one total there is of some files. -/
theorem totalsRight_iff_of (nonempty : files ≠ []) (s : FilesState) :
    TotalsRight env files s ↔ (firstPass env.ftypesMax s.t).T.totals.Of files := by
  constructor
  · intro right
    unfold TotalsRight at right
    rw [right]
    exact foldTotals_of nonempty
  · exact fun right => right.unique (foldTotals_of nonempty)

end Placed

/-- The grand total is the fold over all files exactly when there are none or it does not show
what is not taken from the first bucket. -/
theorem totals_iff (env : FilesSetup) {files : List VisitedFile} {s : FilesState}
    (passes : ∀ f ∈ files, env.passes f = true)
    (ran : Runs.run (pfile env) .init files = .ok s) :
    TotalsRight env files s ↔ files = [] ∨ TotalsFit env files := by
  rcases pfile_run passes env.pos (fun _ => FtypeEnt.Holds.clear) ran with
    ⟨placed, rfl, all, inRange, holds⟩
  rcases firstPass_merged holds env.ftypesMax with ⟨empty, pass⟩ | ⟨key, -, some, before, merged⟩
  · have none : placedFiles env files = [] := by
      refine List.eq_nil_iff_forall_not_mem.mpr fun kf mem => ?_
      exact bucketFiles_ne_nil mem (empty kf.1 (inRange kf mem))
    have none : files = [] := all.symm.trans (congrArg (List.map Prod.snd) none)
    subst none
    refine iff_of_true ?_ (Or.inl rfl)
    unfold TotalsRight
    rw [pass]
    rfl
  · have first : firstKey env files = key := firstKey_eq some before
    subst first
    have others : otherFiles env files = _ := otherFiles_eq inRange
    have together : (firstFiles env files ++ otherFiles env files).Perm files :=
      firstFiles_append all
    have merged : (firstPass env.ftypesMax s.t).T.totals.Merged (firstFiles env files)
        (otherFiles env files) := by
      rw [others]
      exact merged
    have some : firstFiles env files ≠ [] := some
    have nonempty : files ≠ [] := by
      intro none
      rw [none] at together
      rw [none] at some
      exact some (List.append_eq_nil_iff.mp together.eq_nil).1
    rw [totalsRight_iff_of nonempty, merged.of_iff some together, or_iff_right nonempty]
    constructor
    · intro right
      rcases right with ⟨nblock, byte, block⟩
      exact ⟨nblock, byte, block⟩
    · intro fits
      exact ⟨fits.nblock, fits.byte, fits.block⟩

/-- Where it does not show: the file of the first bucket is empty. -/
theorem totalsRight_two : ∃ s, Runs.run (pfile .two) .init
      [.sized "PDF document" 0 0, .sized "data" 5 8] = .ok s ∧
    TotalsRight .two [.sized "PDF document" 0 0, .sized "data" 5 8] s := by
  have first : firstFiles .two [.sized "PDF document" 0 0, .sized "data" 5 8] =
      [.sized "PDF document" 0 0] := by
    rfl
  refine ⟨_, rfl, (totals_iff .two ?_ rfl).mpr (Or.inr ⟨?_, ?_, ?_⟩)⟩
  · exact fun _ _ => rfl
  · rw [first]
    exact dvd_zero _
  · refine ⟨⟨_, List.mem_cons_self, rfl⟩, fun f mem => Or.inl ?_⟩
    rw [first] at mem
    rw [List.mem_singleton.mp mem]
    rfl
  · refine ⟨⟨_, List.mem_cons_self, rfl⟩, fun f mem => Or.inl ?_⟩
    rw [first] at mem
    rw [List.mem_singleton.mp mem]
    rfl

/-- A file of one byte and eight blocks: no blocks in the total, and at most no bytes in a file. -/
theorem totalsRight_one : ∃ s, Runs.run (pfile .two) .init [.sized "data" 1 8] = .ok s ∧
    ¬ TotalsRight .two [.sized "data" 1 8] s := by
  refine ⟨_, rfl, ?_⟩
  unfold TotalsRight
  decide

end Ipm
