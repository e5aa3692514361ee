import Ipm.Log.Ranks

/-!
# The variables of the environment

What the loop of `ipm_get_env` (`src/ipm_env.c`) does with one variable, from the state in
which `ipm_init` starts it.  The messages it prints are left out.

* `hasFlag_setFlag`, `hasFlag_clearFlag`: the flags are separate bits.
* `envVariable_isOk_iff`: a variable is read without a write behind an array exactly when its
  value fits.
* `envVariable_trc`: on the masks and the trace it does what `envVar` does.
-/

namespace Ipm

open Scan

/-! ## Flags -/

/-- The flags of `include/ipm_flags.h` that are read or written here. -/
inductive Flag
  | debug
  | reportTerse
  | reportFull
  | reportNone
  | reportLabelio
  | logTerse
  | logFull
  | logNone
  | ipmPreload
  | ipmMpiBreakwait
  | ipmMpiPrebarfsync
  | ipmHpmActive
  | ipmHpmCanceled
  | ipmAppRunning
  | parallelIoLog
deriving DecidableEq

/-- The bit of a flag. -/
def Flag.shift : Flag → Nat
  | debug => 0
  | reportTerse => 2
  | reportFull => 3
  | reportNone => 4
  | reportLabelio => 5
  | logTerse => 6
  | logFull => 7
  | logNone => 8
  | ipmPreload => 9
  | ipmMpiBreakwait => 22
  | ipmMpiPrebarfsync => 23
  | ipmHpmActive => 24
  | ipmHpmCanceled => 25
  | ipmAppRunning => 26
  | parallelIoLog => 33

/-- No two flags share a bit. -/
theorem Flag.shift_inj {f g : Flag} : f.shift = g.shift ↔ f = g := by
  refine ⟨fun same => ?_, congrArg shift⟩
  cases f <;> cases g <;> first | rfl | cases same

/-- `flags & f`. -/
def hasFlag (flags : Nat) (f : Flag) : Bool := flags &&& 1 <<< f.shift != 0

/-- `flags |= f`. -/
def setFlag (flags : Nat) (f : Flag) : Nat := flags ||| 1 <<< f.shift

/-- `flags &= ~f`. -/
def clearFlag (flags : Nat) (f : Flag) : Nat := clearBits flags (1 <<< f.shift)

theorem hasFlag_eq_testBit (flags : Nat) (f : Flag) :
    hasFlag flags f = flags.testBit f.shift := by
  rw [hasFlag, Nat.one_shiftLeft, Nat.and_two_pow]
  cases flags.testBit f.shift <;> simp

theorem testBit_flag (f g : Flag) : (1 <<< f.shift).testBit g.shift = decide (g = f) := by
  rw [Nat.one_shiftLeft, Nat.testBit_two_pow, decide_eq_decide, Flag.shift_inj, eq_comm]

@[simp] theorem hasFlag_setFlag (flags : Nat) (f g : Flag) :
    hasFlag (setFlag flags f) g = (hasFlag flags g || decide (g = f)) := by
  rw [hasFlag_eq_testBit, hasFlag_eq_testBit, setFlag, Nat.testBit_or, testBit_flag]

@[simp] theorem hasFlag_clearFlag (flags : Nat) (f g : Flag) :
    hasFlag (clearFlag flags f) g = (hasFlag flags g && !decide (g = f)) := by
  rw [hasFlag_eq_testBit, hasFlag_eq_testBit, clearFlag, testBit_clearBits]
  simp only [Flag.shift_inj]

@[simp] theorem hasFlag_zero (f : Flag) : hasFlag 0 f = false := by
  rw [hasFlag, Nat.zero_and]
  rfl

/-! ## State -/

/-- The build, with the places of the hardware counters and the default log directory. -/
structure EnvSetup extends TrcEnv where
  /-- MAXSIZE_NEVENTSETS. -/
  nEventsets : Nat
  /-- CPU_POWER4. -/
  power4 : Bool
  /-- IPM_LOG_DIR. -/
  ipmLogDir : Label
  codename : Label
  /-- `open`, `lseek`, `write` and `mmap` of the share file for a length: the bytes that are
  mapped, unless one of them fails. -/
  mmap : Label → Nat → Option Nat

/-- What `ipm_get_env` writes to.  IPM_TRC_ACTIVE and IPM_TRC_CANCELED are with the trace
fields; of `ipm_hpm_ename` it writes the last event set. -/
structure EnvState where
  flags : Nat
  hpmEventset : Int
  hpmEname : Nat → Label
  trc : TrcSettings
  codename : Label
  logFname : Label
  logDir : Label

/-- How `ipm_get_env` leaves the bounds of its arrays. -/
inductive EnvStop
  | trace (stop : TrcStop)
  | codenameTooLong
deriving DecidableEq

/-- `task.mpi_rank`, as `ipm_init_task` leaves it: MPI_Init fills it in later. -/
def initRank : Int := -1

/-- What `ipm_init` sets before it reads the environment. -/
def EnvState.init (env : EnvSetup) : EnvState where
  flags := [Flag.ipmAppRunning, .reportFull, .logFull, .parallelIoLog, .ipmHpmActive].foldl
    setFlag 0
  hpmEventset := 0
  hpmEname := fun _ => []
  trc := .init env.toTrcEnv
  codename := env.codename
  logFname := "unset".toList
  logDir := env.ipmLogDir

/-! ## The variables -/

/-- A word of IPM_REPORT or IPM_LOG that names a mode. -/
def modeWord (terse full none : Flag) (flags : Nat) (word : Label) : Nat :=
  let flags := if isClause "none" word then setFlag (clearFlag flags terse) none else flags
  let flags := if isClause "terse" word then setFlag flags terse else flags
  if isClause "full" word then setFlag (clearFlag flags terse) full else flags

/-- A word of IPM_REPORT. -/
def reportWord (flags : Nat) (word : Label) : Nat :=
  let flags := modeWord .reportTerse .reportFull .reportNone flags word
  if isClause "labelio" word then setFlag flags .reportLabelio else flags

/-- A word of IPM_LOG. -/
def logWord (flags : Nat) (word : Label) : Nat :=
  modeWord .logTerse .logFull .logNone flags word

/-- The event sets of POWER4, by the start of a word. -/
def power4Sets : List (String × Int) := [("5", 2), ("60", 0), ("59", 1), ("58", 3), ("53", 4)]

/-- The `i`-th word of IPM_HPM. -/
def hpmWord (env : EnvSetup) (s : EnvState) (i : Nat) (word : Label) : EnvState :=
  let s := { s with hpmEventset := atoi word }
  let s :=
    if isClause "no" word then
      { s with
        hpmEventset := -1
        flags := clearFlag (setFlag s.flags .ipmHpmCanceled) .ipmHpmActive }
    else s
  let s :=
    if isClause "scan" word then
      { s with hpmEventset := (env.nEventsets : Int).tmod initRank }
    else s
  let s :=
    if env.power4 then
      { s with
        hpmEventset := power4Sets.foldl
          (fun eventset set => if isClause set.1 word then set.2 else eventset) s.hpmEventset }
    else s
  if '_' ∈ word then
    { s with
      hpmEventset := env.nEventsets - 1
      hpmEname := Function.update s.hpmEname (i % env.hpmCounters) word }
  else s

def hpmWords (env : EnvSetup) (s : EnvState) (words : List Label) : EnvState :=
  let s := words.zipIdx.foldl (fun s w => hpmWord env s w.2 w.1) s
  if !hasFlag s.flags .ipmHpmCanceled && s.hpmEventset < 0 then { s with hpmEventset := 0 } else s

/-- A word of IPM_MPI_MOD, compared with its zero. -/
def modWord (flags : Nat) (word : Label) : Nat :=
  let flags := if word = "bmw".toList then setFlag flags .ipmMpiBreakwait else flags
  if word = "bbs".toList then setFlag flags .ipmMpiPrebarfsync else flags

/-- The names the loop compares with. -/
inductive EnvKey
  | debug
  | report
  | log
  | hpm
  | noop
  | pass
  | trace
  | codename
  | preload
  | mod
  | logfile
  | parallelIo
  | logdir
deriving DecidableEq

def EnvKey.name : EnvKey → String
  | debug => "IPM_DEBUG"
  | report => "IPM_REPORT"
  | log => "IPM_LOG"
  | hpm => "IPM_HPM"
  | noop => "IPM_MPI_NOOP"
  | pass => "IPM_MPI_PASS"
  | trace => "IPM_MPI_TRACE"
  | codename => "IPM_CODENAME"
  | preload => "IPM_PRELOAD"
  | mod => "IPM_MPI_MOD"
  | logfile => "IPM_LOGFILE"
  | parallelIo => "IPM_PARALLEL_IO"
  | logdir => "IPM_LOGDIR"

/-- In the order of the comparisons. -/
def EnvKey.all : List EnvKey :=
  [debug, report, log, hpm, noop, pass, trace, codename, preload, mod, logfile, parallelIo, logdir]

/-- The name a string is, if it is one of them. -/
def EnvKey.ofName (key : Label) : Option EnvKey := all.find? fun k => k.name.toList == key

/-- What the loop does where the comparison with a name succeeds. -/
def EnvKey.read (env : EnvSetup) (s : EnvState) (val : Label) : EnvKey → Except EnvStop EnvState
  | debug =>
      if val.head? = some '*' ∨ atoi val = initRank then
        .ok { s with flags := setFlag s.flags .debug }
      else .ok s
  | report => .ok { s with flags := (tokens ',' val).foldl reportWord s.flags }
  | log => .ok { s with flags := (tokens ',' val).foldl logWord s.flags }
  | hpm => .ok (hpmWords env s (tokens ',' val))
  | noop => .ok { s with trc := (tokens '+' val).foldl (maskWord env.toTrcEnv callOptNoop) s.trc }
  | pass => .ok { s with trc := (tokens '+' val).foldl (maskWord env.toTrcEnv callOptPass) s.trc }
  | trace =>
      match ipmTrcSelect env.toTrcEnv initRank s.trc val with
      | .ok trc => .ok { s with trc := trc }
      | .error stop => .error (.trace stop)
  | codename =>
      if maxsizeTxtline ≤ val.length then .error .codenameTooLong
      else .ok { s with codename := val }
  | preload => .ok { s with flags := setFlag s.flags .ipmPreload }
  | mod => .ok { s with flags := (tokens ',' val).foldl modWord s.flags }
  | logfile => .ok { s with logFname := val.take maxsizeFilename }
  | parallelIo =>
      let flags := if isClause "n" val then clearFlag s.flags .parallelIoLog else s.flags
      .ok { s with flags := if isClause "y" val then setFlag flags .parallelIoLog else flags }
  | logdir => .ok { s with logDir := val.take maxsizeFilename }

/-- A variable whose name begins with IPM_. -/
def envVariable (env : EnvSetup) (s : EnvState) (key val : Label) : Except EnvStop EnvState :=
  match EnvKey.ofName key with
  | some k => k.read env s val
  | none => .ok s

/-! ## What a variable changes -/

/-- The regions a variable selects for tracing. -/
def varRegions (key val : Label) : List Label :=
  if key = "IPM_MPI_TRACE".toList then optRegions val else []

/-- What a variable writes fits its arrays. -/
def VariableFits (key val : Label) : Prop :=
  (key = "IPM_CODENAME".toList → val.length < maxsizeTxtline) ∧
    ∀ r ∈ varRegions key val, RegionFits r

section

variable {env : EnvSetup} {s s' : EnvState} {key val : Label}

theorem hpmWord_trc (env : EnvSetup) (s : EnvState) (i : Nat) (word : Label) :
    (hpmWord env s i word).trc = s.trc := by
  simp only [hpmWord]
  split <;> split <;> split <;> split <;> rfl

theorem hpmWords_trc (env : EnvSetup) (s : EnvState) (words : List Label) :
    (hpmWords env s words).trc = s.trc := by
  have folded : ∀ (l : List (Label × Nat)) (s : EnvState),
      (l.foldl (fun s w => hpmWord env s w.2 w.1) s).trc = s.trc :=
    Runs.foldl_keeps EnvState.trc fun s w => hpmWord_trc env s w.2 w.1
  unfold hpmWords
  dsimp only
  split <;> exact folded _ s

theorem maskWords_nregion (env : TrcEnv) (opt : Nat) (words : List Label) (s : TrcSettings) :
    (words.foldl (maskWord env opt) s).nregion = s.nregion := by
  refine Runs.foldl_keeps TrcSettings.nregion (fun s word => ?_) words s
  simp only [maskWord]
  split <;> rfl

theorem EnvKey.mem_all (k : EnvKey) : k ∈ all := by cases k <;> decide

/-- A string is found under the name it is. -/
theorem EnvKey.eq_of_ofName {k : EnvKey} (found : ofName key = some k) : key = k.name.toList := by
  unfold ofName at found
  have same := List.find?_some found
  exact (beq_iff_eq.mp same).symm

theorem EnvKey.ne_of_ofName (unknown : ofName key = none) (k : EnvKey) : key ≠ k.name.toList := by
  intro same
  have other := List.find?_eq_none.mp unknown k k.mem_all
  rw [same, beq_self_eq_true] at other
  exact other rfl

theorem EnvKey.ofName_name (k : EnvKey) : ofName k.name.toList = some k := by
  cases k <;> decide

/-- On the masks and the trace a variable does what `envVar` does. -/
theorem envVariable_trc (ok : envVariable env s key val = .ok s') :
    envVar env.toTrcEnv initRank s.trc (key, val) = .ok s'.trc := by
  unfold envVariable at ok
  cases found : EnvKey.ofName key with
  | none =>
      rw [found] at ok
      cases ok
      have others := EnvKey.ne_of_ofName found
      exact (if_neg (others .noop)).trans ((if_neg (others .pass)).trans (if_neg (others .trace)))
  | some k =>
      rw [found] at ok
      obtain rfl := EnvKey.eq_of_ofName found
      cases k with
      | debug =>
          dsimp only [EnvKey.read] at ok
          split at ok <;> cases ok <;> rfl
      | hpm =>
          cases ok
          exact congrArg Except.ok (hpmWords_trc env s _).symm
      | trace =>
          dsimp only [EnvKey.read] at ok
          split at ok
          · rename_i selected
            cases ok
            exact selected
          · cases ok
      | codename =>
          dsimp only [EnvKey.read] at ok
          split at ok <;> cases ok
          rfl
      | _ =>
          cases ok
          rfl

/-- A variable that is not read into an array of fixed size does not stop. -/
theorem EnvKey.read_other (env : EnvSetup) (s : EnvState) (val : Label) {k : EnvKey}
    (notTrace : k ≠ trace) (notCodename : k ≠ codename) : ∃ s', k.read env s val = .ok s' := by
  cases k with
  | debug =>
      dsimp only [read]
      split <;> exact ⟨_, rfl⟩
  | trace => exact absurd rfl notTrace
  | codename => exact absurd rfl notCodename
  | _ => exact ⟨_, rfl⟩

/-- A variable and the number of regions. -/
theorem envVariable_nregion (ok : envVariable env s key val = .ok s') :
    s'.trc.nregion = s.trc.nregion + (varRegions key val).length := by
  have same := envVariable_trc ok
  unfold envVar at same
  unfold varRegions
  split at same
  · rename_i named
    subst named
    rw [← Except.ok.inj same]
    exact maskWords_nregion _ _ _ _
  split at same
  · rename_i named
    subst named
    rw [← Except.ok.inj same]
    exact maskWords_nregion _ _ _ _
  split at same
  · rename_i named
    rw [if_pos named]
    exact ipmTrcSelect_nregion same
  · rename_i named
    rw [if_neg named, ← Except.ok.inj same]
    rfl

/-- A variable is read without a write behind an array exactly when its value fits, and there
is room for its regions. -/
theorem envVariable_isOk_iff (inside : s.trc.nregion ≤ maxsizeRegion) :
    (∃ s', envVariable env s key val = .ok s') ↔
      VariableFits key val ∧ s.trc.nregion + (varRegions key val).length ≤ maxsizeRegion := by
  by_cases isTrace : key = EnvKey.trace.name.toList
  · have regions : varRegions key val = optRegions val := if_pos isTrace
    have notCodename : key ≠ "IPM_CODENAME".toList := by
      rw [isTrace]
      decide
    rw [VariableFits, regions, and_iff_right fun named => absurd named notCodename,
      ← ipmTrcSelect_isOk_iff env.toTrcEnv initRank inside]
    unfold envVariable
    rw [isTrace, EnvKey.ofName_name]
    dsimp only [EnvKey.read]
    cases selected : ipmTrcSelect env.toTrcEnv initRank s.trc val with
    | ok trc => exact iff_of_true ⟨_, rfl⟩ ⟨_, rfl⟩
    | error stop => exact iff_of_false (fun ⟨_, ok⟩ => nomatch ok) fun ⟨_, ok⟩ => nomatch ok
  · have regions : varRegions key val = [] := if_neg isTrace
    have room : s.trc.nregion + ([] : List Label).length ≤ maxsizeRegion := inside
    rw [VariableFits, regions, and_iff_left room, and_iff_left (List.forall_mem_nil _)]
    by_cases isCodename : key = EnvKey.codename.name.toList
    · unfold envVariable
      rw [isCodename, EnvKey.ofName_name]
      dsimp only [EnvKey.read]
      by_cases long : maxsizeTxtline ≤ val.length
      · rw [if_pos long]
        refine iff_of_false (fun ⟨_, ok⟩ => nomatch ok) fun fits => ?_
        exact absurd (fits rfl) (Nat.not_lt.mpr long)
      · rw [if_neg long]
        exact iff_of_true ⟨_, rfl⟩ fun _ => Nat.not_le.mp long
    · refine iff_of_true ?_ fun named => absurd named isCodename
      unfold envVariable
      cases found : EnvKey.ofName key with
      | none => exact ⟨s, rfl⟩
      | some k =>
          have named := EnvKey.eq_of_ofName found
          obtain ⟨s', done⟩ := EnvKey.read_other env s val
            (fun same : k = .trace => isTrace (by rw [named, same]))
            fun same => isCodename (by rw [named, same])
          exact ⟨s', done⟩

end

end Ipm
