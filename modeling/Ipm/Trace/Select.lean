import Mathlib.Data.List.Induction
import Ipm.Lib.Doubles
import Ipm.Lib.Runs
import Ipm.Region.State

/-!
# Trace selection

`ipm_trc_select` (`src/ipm_env.c`), which reads IPM_MPI_TRACE: clauses `region:`, `rank:`,
`time:`, `call:` and `mem:` joined by commas.

* `selectRegions_others`, `trcClause_active`: what a clause changes.
* `ipmTrcSelect_active`: the last `rank:` clause decides IPM_TRC_ACTIVE.
* `ipmTrcSelect_isOk_iff`: the selection stays inside its arrays exactly when the labels fit
  and there is room for the regions.
-/

namespace Ipm

open Scan

/-! ## State -/

def callOptTrace : Nat := 1 <<< 48

/-- The trace fields of `task`, and `xbuf`, a local variable without an initial value. -/
structure TrcSettings where
  active : Bool
  canceled : Bool
  callMask : Nat → Nat
  nregion : Nat
  maskRegion : Nat → Label
  maskRegionIti : Nat → Int
  maskRegionItf : Nat → Int
  timeInit : Double
  timeFinal : Double
  countMax : Nat
  xbuf : Double

/-- How `ipm_trc_select` leaves the bounds of its arrays. -/
inductive TrcStop
  | tooManyRegions
  | labelTooLong
deriving DecidableEq

/-- What the selection does not change: the sizes, the size of a trace entry, the labels and
the masks of the calls. -/
structure TrcEnv where
  build : Build
  /-- MAXSIZE_HPMCOUNTERS. -/
  hpmCounters : Nat
  hpmCounters_lt : hpmCounters < 2 ^ 16
  callLabel : Nat → Label
  callMask : Nat → Nat
  xbuf : Double

/-- `sizeof(struct ipm_trc_ent)`: the key, the time and the counters. -/
def TrcEnv.sizeofEnt (env : TrcEnv) : Nat := 16 + 8 * env.hpmCounters

/-- The mask of a call without some bit. -/
def clearBits (mask bits : Nat) : Nat := mask ^^^ (mask &&& bits)

theorem and_one_shiftLeft_ne_zero (m k : Nat) : m &&& 1 <<< k ≠ 0 ↔ m.testBit k = true := by
  rw [Nat.one_shiftLeft, Nat.and_two_pow]
  cases m.testBit k <;> simp

/-- The test of the classes MPI_P2P and MPI_COL. -/
theorem and_one_bne_zero (m : Nat) : (m &&& 1 != 0) = m.testBit 0 := by
  rw [Bool.eq_iff_iff, bne_iff_ne]
  exact and_one_shiftLeft_ne_zero m 0

/-- A bit of a mask after one is cleared. -/
theorem testBit_clearBits (m j k : Nat) :
    (clearBits m (1 <<< j)).testBit k = (m.testBit k && !decide (k = j)) := by
  rw [clearBits, Nat.testBit_xor, Nat.testBit_and, Nat.one_shiftLeft, Nat.testBit_two_pow]
  by_cases same : k = j
  · subst same
    cases m.testBit k <;> simp
  · rw [decide_eq_false same, decide_eq_false fun other => same other.symm]
    cases m.testBit k <;> rfl

/-- What `ipm_init` sets before it reads the environment. -/
def TrcSettings.init (env : TrcEnv) : TrcSettings where
  active := false
  canceled := false
  callMask := fun i =>
    if 1 ≤ i ∧ i ≤ env.build.maxsizeCalls then clearBits (env.callMask i) callOptTrace
    else env.callMask i
  nregion := 0
  maskRegion := fun _ => []
  maskRegionIti := fun _ => 0
  maskRegionItf := fun _ => 0
  timeInit := .finite (-1)
  timeFinal := .finite (-2)
  countMax := 0
  xbuf := env.xbuf

/-! ## The clauses -/

/-- Set CALL_OPT_TRACE in the calls `p` selects. -/
def TrcSettings.setTrace (env : TrcEnv) (s : TrcSettings) (p : Nat → Bool) : TrcSettings :=
  { s with
    callMask := fun i =>
      if 1 ≤ i ∧ i ≤ env.build.maxsizeCalls ∧ p i then s.callMask i ||| callOptTrace
      else s.callMask i }

/-- Turn on all tracing. -/
def TrcSettings.selectAll (env : TrcEnv) (s : TrcSettings) : TrcSettings :=
  { s.setTrace env fun _ => true with
    active := true
    maskRegion := fun _ => []
    maskRegionIti := fun _ => 1
    maskRegionItf := fun _ => -1 }

/-- `sscanf(cptr2,"%s %d %d ", ...)` into the next region. -/
def TrcSettings.scanPasses (s : TrcSettings) (text : Label) : Except TrcStop TrcSettings :=
  match scanWord text with
  | none => .ok s
  | some (word, rest) =>
      if maxsizeLabel ≤ word.length then .error .labelTooLong
      else
        let s := { s with maskRegion := Function.update s.maskRegion s.nregion word }
        match scanInt rest with
        | none => .ok s
        | some (iti, rest) =>
            let s := { s with
              maskRegionIti := Function.update s.maskRegionIti s.nregion iti }
            match scanInt rest with
            | none => .ok s
            | some (itf, _) =>
                .ok { s with
                  maskRegionItf := Function.update s.maskRegionItf s.nregion itf }

/-- The brackets and the dash of a range made blank. -/
def blankRange (text : Label) : Label :=
  text.map fun c => if c = '[' ∨ c = '-' ∨ c = ']' then ' ' else c

/-- The label and the range of the next region; with all of `[`, `-` and `]` it has one. -/
def TrcSettings.readRegion (s : TrcSettings) (text : Label) : Except TrcStop TrcSettings :=
  if '[' ∈ text ∧ '-' ∈ text ∧ ']' ∈ text then s.scanPasses (blankRange text)
  else
    .ok { s with
      maskRegion := Function.update s.maskRegion s.nregion (copyLabel text)
      maskRegionIti := Function.update s.maskRegionIti s.nregion (-1)
      maskRegionItf := Function.update s.maskRegionItf s.nregion (-1) }

/-- One region of a `region:` clause. -/
def selectRegion (s : TrcSettings) (text : Label) : Except TrcStop TrcSettings :=
  if maxsizeRegion ≤ s.nregion then .error .tooManyRegions
  else do
    let s ← s.readRegion text
    .ok { s with nregion := s.nregion + 1 }

/-- The ranks a word of a `rank:` clause names. -/
def namesRank (rank : Int) (word : Label) : Bool :=
  word == "even".toList && rank % 2 == 0 || word == "odd".toList && rank % 2 != 0 ||
    atoi word == rank

def rankClause (rank : Int) (s : TrcSettings) (text : Label) : TrcSettings :=
  if (tokens '+' text).any (namesRank rank) then { s with canceled := false, active := true }
  else { s with canceled := true, active := false }

/-- `sscanf(cptr1,"time:[%lf+%lf]", ...)`. -/
def timeClause (s : TrcSettings) (text : Label) : TrcSettings :=
  match text with
  | '[' :: text =>
      match scanDouble text with
      | some (init, '+' :: rest) =>
          match scanDouble rest with
          | some (final, _) => { s with timeInit := init, timeFinal := final }
          | none => { s with timeInit := init }
      | some (init, _) => { s with timeInit := init }
      | none => s
  | _ => s

/-- A word of a `call:` clause.  The classes MPI_P2P and MPI_COL test the mask against bits
joined by `||`, which is 1. -/
def callWord (env : TrcEnv) (s : TrcSettings) (word : Label) : TrcSettings :=
  let s := s.setTrace env fun i => sameLabel word (env.callLabel i)
  let s :=
    if sameLabel word "MPI_P2P".toList then s.setTrace env fun i => s.callMask i &&& 1 != 0
    else s
  if sameLabel word "MPI_COL".toList then s.setTrace env fun i => s.callMask i &&& 1 != 0
  else s

def callClause (env : TrcEnv) (s : TrcSettings) (text : Label) : TrcSettings :=
  let s := { s with
    callMask := fun i =>
      if 1 ≤ i ∧ i ≤ env.build.maxsizeCalls then clearBits (s.callMask i) callOptTrace
      else s.callMask i }
  (tokens '+' text).foldl (callWord env) s

/-- `1024*1024*xbuf/sizeof(struct ipm_trc_ent)`. -/
def memCount (env : TrcEnv) (xbuf : Double) : Nat :=
  ((xbuf.scale (1024 * 1024)).scale (1 / env.sizeofEnt)).toUInt64

def memClause (env : TrcEnv) (s : TrcSettings) (text : Label) : TrcSettings :=
  let xbuf := ((scanDouble text).map Prod.fst).getD s.xbuf
  { s with xbuf := xbuf, countMax := memCount env xbuf }

/-- `!strncmp(cptr1, name, strlen(name))`. -/
def isClause (name : String) (text : Label) : Bool := name.toList.isPrefixOf text

/-- One clause. -/
def trcClause (env : TrcEnv) (rank : Int) (s : TrcSettings) (text : Label) :
    Except TrcStop TrcSettings :=
  if isClause "region:" text then Runs.run selectRegion s (tokens '+' (text.drop 7))
  else if isClause "rank:" text then .ok (rankClause rank s (text.drop 5))
  else if isClause "time:" text then .ok (timeClause s (text.drop 5))
  else if isClause "call:" text then .ok (callClause env s (text.drop 5))
  else if isClause "mem:" text then .ok (memClause env s (text.drop 4))
  else .ok s

/-- `ipm_trc_select`. -/
def ipmTrcSelect (env : TrcEnv) (rank : Int) (s : TrcSettings) (opt : Label) :
    Except TrcStop TrcSettings :=
  Runs.run (trcClause env rank) (s.selectAll env) (tokens ',' opt)

/-! ## What a clause changes -/

/-- What a `region:` clause leaves. -/
def TrcSettings.others (s : TrcSettings) : Bool × Bool × (Nat → Nat) × Double × Double × Nat ×
    Double :=
  (s.active, s.canceled, s.callMask, s.timeInit, s.timeFinal, s.countMax, s.xbuf)

/-- The next region, with what was read of its label and its passes. -/
def TrcSettings.stored (s : TrcSettings) (label : Option Label) (iti itf : Option Int) :
    TrcSettings :=
  { s with
    maskRegion := Function.update s.maskRegion s.nregion (label.getD (s.maskRegion s.nregion))
    maskRegionIti := Function.update s.maskRegionIti s.nregion
      (iti.getD (s.maskRegionIti s.nregion))
    maskRegionItf := Function.update s.maskRegionItf s.nregion
      (itf.getD (s.maskRegionItf s.nregion)) }

/-- What a scan stores depends on the text alone. -/
theorem scanPasses_stored (text : Label) : ∃ label iti itf, ∀ {s s' : TrcSettings},
    s.scanPasses text = .ok s' → s' = s.stored label iti itf := by
  unfold TrcSettings.scanPasses TrcSettings.stored
  cases word : scanWord text with
  | none =>
      refine ⟨none, none, none, fun ok => ?_⟩
      cases ok
      simp only [Option.getD_none, Function.update_eq_self]
  | some read =>
      rcases read with ⟨label, rest⟩
      by_cases long : maxsizeLabel ≤ label.length
      · refine ⟨none, none, none, fun ok => ?_⟩
        simp only [if_pos long] at ok
        cases ok
      · simp only [if_neg long]
        cases first : scanInt rest with
        | none =>
            refine ⟨some label, none, none, fun ok => ?_⟩
            cases ok
            simp only [Option.getD_some, Option.getD_none, Function.update_eq_self]
        | some read =>
            rcases read with ⟨iti, rest⟩
            cases last : scanInt rest with
            | none =>
                refine ⟨some label, some iti, none, fun ok => ?_⟩
                simp only [last] at ok
                cases ok
                simp only [Option.getD_some, Option.getD_none, Function.update_eq_self]
            | some read =>
                refine ⟨some label, some iti, some read.1, fun ok => ?_⟩
                simp only [last] at ok
                cases ok
                rfl

/-- A region that is selected is stored behind those before it, whatever they are. -/
theorem selectRegion_stored (text : Label) : ∃ label iti itf, ∀ {s s' : TrcSettings},
    selectRegion s text = .ok s' → s.nregion < maxsizeRegion ∧
      s' = { s.stored label iti itf with nregion := s.nregion + 1 } := by
  have read : ∃ label iti itf, ∀ {s s' : TrcSettings}, s.readRegion text = .ok s' →
      s' = s.stored label iti itf := by
    unfold TrcSettings.readRegion
    split
    · exact scanPasses_stored (blankRange text)
    · refine ⟨some (copyLabel text), some (-1), some (-1), fun ok => ?_⟩
      cases ok
      rfl
  rcases read with ⟨label, iti, itf, stored⟩
  refine ⟨label, iti, itf, fun {s s'} ok => ?_⟩
  unfold selectRegion at ok
  split at ok
  · cases ok
  · rcases Runs.bind_eq_ok ok with ⟨u, read, rest⟩
    cases rest
    rw [stored read]
    exact ⟨Nat.lt_of_not_le ‹_›, rfl⟩

/-- A region of a clause changes the regions alone. -/
theorem selectRegion_others {s s' : TrcSettings} {text : Label}
    (ok : selectRegion s text = .ok s') : s'.others = s.others := by
  rcases selectRegion_stored text with ⟨label, iti, itf, stored⟩
  rw [(stored ok).2]
  rfl

/-- So does a whole `region:` clause. -/
theorem selectRegions_others {s s' : TrcSettings} {texts : List Label}
    (ok : Runs.run selectRegion s texts = .ok s') : s'.others = s.others :=
  Runs.run_keeps (I := fun u => u.others = s.others) rfl
    (fun inv stepped => (selectRegion_others stepped).trans inv) ok

/-- Of two words that begin a text one begins the other. -/
theorem isClause_both {name name' : String} {text : Label} (first : isClause name text = true)
    (second : isClause name' text = true) :
    name.toList <+: name'.toList ∨ name'.toList <+: name.toList := by
  rw [isClause, List.isPrefixOf_iff_prefix] at first second
  exact List.prefix_or_prefix_of_prefix first second

inductive ClauseKind
  | region
  | rank
  | time
  | call
  | mem
deriving DecidableEq

/-- What a clause begins with. -/
def ClauseKind.word : ClauseKind → String
  | region => "region:"
  | rank => "rank:"
  | time => "time:"
  | call => "call:"
  | mem => "mem:"

/-- None of the words begins another, so a clause is of one kind. -/
theorem ClauseKind.eq_of_isClause {k k' : ClauseKind} {text : Label}
    (first : isClause k.word text = true) (second : isClause k'.word text = true) : k = k' := by
  have apart : ∀ k k' : ClauseKind, k.word.toList <+: k'.word.toList → k = k' := by
    intro k k' begins
    cases k <;> cases k' <;> first | rfl | exact absurd begins (by decide)
  rcases isClause_both first second with shorter | longer
  · exact apart k k' shorter
  · exact (apart k' k longer).symm

def clauseKind (text : Label) : Option ClauseKind :=
  [.region, .rank, .time, .call, .mem].find? fun k => isClause k.word text

theorem clauseKind_eq_some {k : ClauseKind} {text : Label} :
    clauseKind text = some k ↔ isClause k.word text = true := by
  have begins : ∀ k, clauseKind text = some k → isClause k.word text = true := by
    intro k kind
    have found := List.find?_some kind
    exact found
  refine ⟨begins k, fun isWord => ?_⟩
  cases kind : clauseKind text with
  | none =>
      have mem : k ∈ [ClauseKind.region, .rank, .time, .call, .mem] := by
        cases k <;> decide
      exact absurd isWord (List.find?_eq_none.mp kind k mem)
  | some k' => rw [ClauseKind.eq_of_isClause (begins k' kind) isWord]

theorem isClause_word (k : ClauseKind) (text : Label) :
    isClause k.word text = decide (clauseKind text = some k) := by
  rw [Bool.eq_iff_iff, decide_eq_true_iff, clauseKind_eq_some]

/-- One clause, by its kind. -/
theorem trcClause_eq (env : TrcEnv) (rank : Int) (s : TrcSettings) (text : Label) :
    trcClause env rank s text =
      match clauseKind text with
      | some .region => Runs.run selectRegion s (tokens '+' (text.drop 7))
      | some .rank => .ok (rankClause rank s (text.drop 5))
      | some .time => .ok (timeClause s (text.drop 5))
      | some .call => .ok (callClause env s (text.drop 5))
      | some .mem => .ok (memClause env s (text.drop 4))
      | none => .ok s := by
  have region := isClause_word .region text
  have isRank := isClause_word .rank text
  have time := isClause_word .time text
  have call := isClause_word .call text
  have mem := isClause_word .mem text
  simp only [ClauseKind.word] at region isRank time call mem
  unfold trcClause
  rw [region, isRank, time, call, mem]
  cases clauseKind text with
  | none => rfl
  | some k => cases k <;> rfl

/-- What a `region:` clause changes. -/
def TrcSettings.regions (s : TrcSettings) : Nat × (Nat → Label) × (Nat → Int) × (Nat → Int) :=
  (s.nregion, s.maskRegion, s.maskRegionIti, s.maskRegionItf)

/-- A `call:` clause changes the masks alone. -/
theorem callWords_frame (env : TrcEnv) (words : List Label) (s : TrcSettings) :
    ∃ callMask, words.foldl (callWord env) s = { s with callMask := callMask } := by
  induction words generalizing s with
  | nil => exact ⟨s.callMask, rfl⟩
  | cons word words ih =>
      have one : ∃ callMask, callWord env s word = { s with callMask := callMask } := by
        simp only [callWord]
        split <;> split <;> exact ⟨_, rfl⟩
      obtain ⟨first, worded⟩ := one
      obtain ⟨rest, folded⟩ := ih (callWord env s word)
      refine ⟨rest, ?_⟩
      rw [List.foldl_cons, folded, worded]

/-- The window a `time:` clause sets. -/
def timeWindow (text : Label) : Option Double × Option Double :=
  match text with
  | '[' :: text =>
      match scanDouble text with
      | some (init, '+' :: rest) => (some init, (scanDouble rest).map Prod.fst)
      | some (init, _) => (some init, none)
      | none => (none, none)
  | _ => (none, none)

theorem timeClause_eq (s : TrcSettings) (text : Label) :
    timeClause s text = { s with
      timeInit := (timeWindow text).1.getD s.timeInit
      timeFinal := (timeWindow text).2.getD s.timeFinal } := by
  unfold timeClause timeWindow
  split
  · rename_i text
    split
    · rename_i init rest scanned
      cases scanDouble rest <;> rfl
    · rfl
    · rfl
  · rfl

/-- Whether a `rank:` clause names the task. -/
def rankSelected (rank : Int) (text : Label) : Bool :=
  (tokens '+' (text.drop 5)).any (namesRank rank)

/-- The parts of the selection that a clause overwrites: IPM_TRC_CANCELED, the ends of the time
window and the number of `mem:`. -/
def canceledBy (rank : Int) (text : Label) : Option Bool :=
  if clauseKind text = some .rank then some (!rankSelected rank text) else none

def timeInitBy (text : Label) : Option Double :=
  if clauseKind text = some .time then (timeWindow (text.drop 5)).1 else none

def timeFinalBy (text : Label) : Option Double :=
  if clauseKind text = some .time then (timeWindow (text.drop 5)).2 else none

def memNumber (text : Label) : Option Double :=
  if clauseKind text = some .mem then (scanDouble (text.drop 4)).map Prod.fst else none

/-- What a clause does to each part of the selection. -/
structure ClauseEffect (env : TrcEnv) (rank : Int) (text : Label) (s s' : TrcSettings) :
    Prop where
  active : s'.active = if isClause "rank:" text then rankSelected rank text else s.active
  canceled : s'.canceled = (canceledBy rank text).getD s.canceled
  timeInit : s'.timeInit = (timeInitBy text).getD s.timeInit
  timeFinal : s'.timeFinal = (timeFinalBy text).getD s.timeFinal
  xbuf : s'.xbuf = (memNumber text).getD s.xbuf
  countMax : s'.countMax = if clauseKind text = some .mem then memCount env s'.xbuf else s.countMax
  callMask : isClause "call:" text = false → s'.callMask = s.callMask
  regions : isClause "region:" text = false → s'.regions = s.regions

theorem trcClause_effect {env : TrcEnv} {rank : Int} {s s' : TrcSettings} {text : Label}
    (ok : trcClause env rank s text = .ok s') : ClauseEffect env rank text s s' := by
  have isRank : isClause "rank:" text = decide (clauseKind text = some .rank) :=
    isClause_word .rank text
  have isCall : isClause "call:" text = decide (clauseKind text = some .call) :=
    isClause_word .call text
  have isRegion : isClause "region:" text = decide (clauseKind text = some .region) :=
    isClause_word .region text
  rw [trcClause_eq] at ok
  cases kind : clauseKind text with
  | none =>
      rw [kind] at ok
      cases ok
      constructor <;>
        simp [canceledBy, timeInitBy, timeFinalBy, memNumber, isRank, kind]
  | some k =>
      rw [kind] at ok
      cases k with
      | region =>
          have same := selectRegions_others ok
          simp only [TrcSettings.others, Prod.mk.injEq] at same
          obtain ⟨active, canceled, callMask, timeInit, timeFinal, countMax, xbuf⟩ := same
          constructor <;>
            simp [canceledBy, timeInitBy, timeFinalBy, memNumber, *]
      | rank =>
          cases ok
          have selected : rankSelected rank text =
              (tokens '+' (text.drop 5)).any (namesRank rank) := rfl
          unfold rankClause
          rw [← selected]
          cases named : rankSelected rank text <;> constructor <;>
            simp [canceledBy, timeInitBy, timeFinalBy, memNumber, isRank, kind, named,
              TrcSettings.regions]
      | time =>
          cases ok
          rw [timeClause_eq]
          constructor <;>
            simp [canceledBy, timeInitBy, timeFinalBy, memNumber, isRank, kind, TrcSettings.regions]
      | call =>
          cases ok
          obtain ⟨callMask, called⟩ := callWords_frame env (tokens '+' (text.drop 5)) { s with
            callMask := fun i =>
              if 1 ≤ i ∧ i ≤ env.build.maxsizeCalls then clearBits (s.callMask i) callOptTrace
              else s.callMask i }
          rw [callClause, called]
          constructor <;>
            simp [canceledBy, timeInitBy, timeFinalBy, memNumber, isRank, isCall, kind,
              TrcSettings.regions]
      | mem =>
          cases ok
          unfold memClause
          constructor <;>
            simp [canceledBy, timeInitBy, timeFinalBy, memNumber, memCount, isRank, kind,
              TrcSettings.regions]

/-- Only a `rank:` clause changes IPM_TRC_ACTIVE. -/
theorem trcClause_active {env : TrcEnv} {rank : Int} {s s' : TrcSettings} {text : Label}
    (ok : trcClause env rank s text = .ok s') :
    s'.active = if isClause "rank:" text then rankSelected rank text else s.active :=
  (trcClause_effect ok).active

/-- The last `rank:` clause decides IPM_TRC_ACTIVE. -/
theorem ipmTrcSelect_active {env : TrcEnv} {rank : Int} {s s' : TrcSettings} {opt : Label}
    (ok : ipmTrcSelect env rank s opt = .ok s') :
    s'.active = (((tokens ',' opt).filter (isClause "rank:")).getLast?.map
      (rankSelected rank)).getD true := by
  unfold ipmTrcSelect at ok
  generalize tokens ',' opt = texts at ok
  induction texts using List.reverseRecOn generalizing s' with
  | nil =>
      cases ok
      rfl
  | append_singleton texts text ih =>
      obtain ⟨u, ran, stepped⟩ := Runs.run_snoc_eq_ok ok
      rw [trcClause_active stepped, List.filter_append, List.filter_singleton]
      cases isRank : isClause "rank:" text with
      | true => simp
      | false => simpa using ih ran

/-! ## The regions of a selection -/

/-- The label of a region with a range fits its place; one without a range is cut off. -/
def RegionFits (text : Label) : Prop :=
  '[' ∈ text ∧ '-' ∈ text ∧ ']' ∈ text →
    ∀ word rest, scanWord (blankRange text) = some (word, rest) → word.length < maxsizeLabel

theorem scanPasses_isOk {s : TrcSettings} {text : Label} :
    (∃ s', s.scanPasses text = .ok s') ↔
      ∀ word rest, scanWord text = some (word, rest) → word.length < maxsizeLabel := by
  unfold TrcSettings.scanPasses
  cases word : scanWord text with
  | none =>
      refine iff_of_true ⟨s, rfl⟩ fun _ _ scanned => ?_
      cases scanned
  | some read =>
      obtain ⟨read, rest⟩ := read
      constructor
      · rintro ⟨s', ok⟩ _ _ scanned
        cases scanned
        by_contra long
        rw [Nat.not_lt] at long
        simp only [if_pos long] at ok
        cases ok
      · intro fits
        have short := fits read rest rfl
        simp only [if_neg (Nat.not_le.mpr short)]
        split
        · exact ⟨_, rfl⟩
        · split <;> exact ⟨_, rfl⟩

/-- One region more. -/
theorem selectRegion_nregion {s s' : TrcSettings} {text : Label}
    (ok : selectRegion s text = .ok s') : s'.nregion = s.nregion + 1 := by
  rcases selectRegion_stored text with ⟨label, iti, itf, stored⟩
  rw [(stored ok).2]

theorem selectRegion_isOk {s : TrcSettings} {text : Label} :
    (∃ s', selectRegion s text = .ok s') ↔ RegionFits text ∧ s.nregion + 1 ≤ maxsizeRegion := by
  unfold selectRegion
  by_cases full : maxsizeRegion ≤ s.nregion
  · rw [if_pos full]
    constructor
    · intro given
      rcases given with ⟨s', ok⟩
      cases ok
    · intro given
      rcases given with ⟨-, room⟩
      omega
  · rw [if_neg full]
    have read : (∃ s', s.readRegion text = .ok s') ↔ RegionFits text := by
      unfold TrcSettings.readRegion RegionFits
      by_cases range : '[' ∈ text ∧ '-' ∈ text ∧ ']' ∈ text
      · rw [if_pos range, scanPasses_isOk]
        exact ⟨fun fits _ => fits, fun fits => fits range⟩
      · rw [if_neg range]
        exact iff_of_true ⟨_, rfl⟩ fun has => absurd has range
    rw [← read, and_iff_left (by omega)]
    constructor
    · intro given
      rcases given with ⟨s', ok⟩
      obtain ⟨u, done, -⟩ := Runs.bind_eq_ok ok
      exact ⟨u, done⟩
    · intro given
      rcases given with ⟨u, done⟩
      rw [done]
      exact ⟨_, rfl⟩

/-- The regions a clause names. -/
def clauseRegions (text : Label) : List Label :=
  if isClause "region:" text then tokens '+' (text.drop 7) else []

/-- The regions an option string names. -/
def optRegions (opt : Label) : List Label := (tokens ',' opt).flatMap clauseRegions

/-- A clause other than `region:` does not stop, and leaves the number of regions. -/
theorem trcClause_of_not_region (env : TrcEnv) (rank : Int) (s : TrcSettings) {text : Label}
    (other : isClause "region:" text = false) :
    ∃ s', trcClause env rank s text = .ok s' ∧ s'.nregion = s.nregion := by
  have succeeds : ∃ s', trcClause env rank s text = .ok s' := by
    unfold trcClause
    rw [other, if_neg Bool.false_ne_true]
    split_ifs <;> exact ⟨_, rfl⟩
  obtain ⟨s', ok⟩ := succeeds
  exact ⟨s', ok, congrArg Prod.fst ((trcClause_effect ok).regions other)⟩

theorem trcClause_of_region {env : TrcEnv} {rank : Int} {s : TrcSettings} {text : Label}
    (region : isClause "region:" text = true) :
    trcClause env rank s text = Runs.run selectRegion s (clauseRegions text) := by
  unfold trcClause clauseRegions
  rw [if_pos region, if_pos region]

theorem trcClause_nregion {env : TrcEnv} {rank : Int} {s s' : TrcSettings} {text : Label}
    (ok : trcClause env rank s text = .ok s') :
    s'.nregion = s.nregion + (clauseRegions text).length := by
  cases region : isClause "region:" text with
  | true =>
      rw [trcClause_of_region region] at ok
      rw [Runs.run_used selectRegion (fun _ _ _ => selectRegion_nregion) ok, List.map_const',
        List.sum_replicate_nat, Nat.mul_one]
  | false =>
      obtain ⟨u, done, same⟩ := trcClause_of_not_region env rank s region
      rw [done] at ok
      cases ok
      rw [same, clauseRegions, region]
      rfl

theorem trcClause_isOk {env : TrcEnv} {rank : Int} {s : TrcSettings} {text : Label}
    (inside : s.nregion ≤ maxsizeRegion) :
    (∃ s', trcClause env rank s text = .ok s') ↔
      (∀ r ∈ clauseRegions text, RegionFits r) ∧
        s.nregion + (clauseRegions text).length ≤ maxsizeRegion := by
  cases region : isClause "region:" text with
  | true =>
      rw [trcClause_of_region region, Runs.run_isOk_iff_budget selectRegion
        (fun _ _ _ => selectRegion_nregion) (fun _ _ _ => selectRegion_isOk) inside,
        List.map_const', List.sum_replicate_nat, Nat.mul_one]
  | false =>
      obtain ⟨u, done, -⟩ := trcClause_of_not_region env rank s region
      have none : clauseRegions text = [] := by
        rw [clauseRegions, region]
        rfl
      rw [none]
      refine iff_of_true ⟨u, done⟩ ⟨fun r mem => ?_, inside⟩
      cases mem

/-- What a selection adds to the regions. -/
theorem ipmTrcSelect_nregion {env : TrcEnv} {rank : Int} {s s' : TrcSettings} {opt : Label}
    (ok : ipmTrcSelect env rank s opt = .ok s') :
    s'.nregion = s.nregion + (optRegions opt).length := by
  rw [Runs.run_used (trcClause env rank) (fun _ _ _ => trcClause_nregion) ok, optRegions,
    List.length_flatMap]
  rfl

/-- A selection stays inside its arrays exactly when the labels of its regions fit, and
there is room for as many. -/
theorem ipmTrcSelect_isOk_iff (env : TrcEnv) (rank : Int) {s : TrcSettings} {opt : Label}
    (inside : s.nregion ≤ maxsizeRegion) :
    (∃ s', ipmTrcSelect env rank s opt = .ok s') ↔
      (∀ r ∈ optRegions opt, RegionFits r) ∧
        s.nregion + (optRegions opt).length ≤ maxsizeRegion := by
  have started : (s.selectAll env).nregion ≤ maxsizeRegion := inside
  unfold ipmTrcSelect
  rw [Runs.run_isOk_iff_budget (trcClause env rank) (fun _ _ _ => trcClause_nregion)
    (fun _ _ => trcClause_isOk) started, optRegions, List.length_flatMap]
  simp only [List.mem_flatMap]
  refine and_congr_left fun _ => ⟨?_, fun all text mem r named => all r ⟨text, mem, named⟩⟩
  rintro all r ⟨text, mem, named⟩
  exact all text mem r named

end Ipm
