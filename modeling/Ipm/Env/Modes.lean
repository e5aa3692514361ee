import Ipm.Env.Scan

/-!
# The modes of the report and of the log

IPM_REPORT and IPM_LOG: `terse`, `full` and `none`, with a flag each.  `ipm_init` sets the flag
of `full`; `none` and `full` clear that of `terse`, and nothing clears the other two.

* `ipmGetEnvScan_shows`: the mode flags after `ipm_get_env`, from the words of the variable.
* `selects_iff`: exactly the flag of the mode wanted is set exactly when the words that name a
  mode are `terse` and `full` alone, and not `terse` last.
-/

namespace Ipm

open Scan

inductive Mode
  | terse
  | full
  | none
deriving DecidableEq

/-- The report and the log. -/
inductive Output
  | report
  | log
deriving DecidableEq

/-- The variable of an output. -/
def Output.key : Output → EnvKey
  | report => .report
  | log => .log

/-- The flag of a mode. -/
def Output.flag : Output → Mode → Flag
  | report, .terse => .reportTerse
  | report, .full => .reportFull
  | report, .none => .reportNone
  | log, .terse => .logTerse
  | log, .full => .logFull
  | log, .none => .logNone

/-- What a word of the variable does. -/
def Output.word : Output → Nat → Label → Nat
  | report => reportWord
  | log => logWord

/-- The mode a word names. -/
def namedMode (word : Label) : Option Mode :=
  if isClause "none" word then some .none
  else if isClause "terse" word then some .terse
  else if isClause "full" word then some .full
  else none

/-- The modes that the variable names in an environment, in order. -/
def Output.modes (o : Output) (environ : List EnvEntry) : List Mode :=
  (environ.filter fun e => e.name == o.key.name.toList).flatMap fun e =>
    (tokens ',' e.value).filterMap namedMode

/-- The mode wanted: the last one named, or full. -/
def wanted (modes : List Mode) : Mode := modes.getLast?.getD .full

/-- Exactly the flag of this mode is set. -/
def Output.Selects (o : Output) (flags : Nat) (mode : Mode) : Prop :=
  ∀ k, hasFlag flags (o.flag k) ↔ k = mode

/-! ## One word -/

/-- What is set of the flags of an output. -/
def Output.shows (o : Output) (flags : Nat) (k : Mode) : Bool := hasFlag flags (o.flag k)

/-- What naming a mode does to the three flags. -/
def showMode (shown : Mode → Bool) : Mode → Mode → Bool
  | .none => fun k => match k with
    | .terse => false
    | .none => true
    | .full => shown .full
  | .terse => fun k => match k with
    | .terse => true
    | .full => shown .full
    | .none => shown .none
  | .full => fun k => match k with
    | .terse => false
    | .full => true
    | .none => shown .none

/-- The flags of the modes. -/
def modeFlags : List Flag :=
  [.reportTerse, .reportFull, .reportNone, .logTerse, .logFull, .logNone]

theorem Output.flag_ne {f : Flag} (other : f ∉ modeFlags) (o : Output) (k : Mode) :
    o.flag k ≠ f := by
  intro same
  subst same
  cases o <;> cases k <;> exact other (by decide)

/-- Another flag that is set or cleared does not show. -/
theorem Output.shows_ite_setFlag (o : Output) {f : Flag} (other : f ∉ modeFlags) (flags : Nat)
    (c : Prop) [Decidable c] : o.shows (if c then setFlag flags f else flags) = o.shows flags := by
  funext k
  split
  · simp [shows, flag_ne other o k]
  · rfl

theorem Output.shows_ite_clearFlag (o : Output) {f : Flag} (other : f ∉ modeFlags) (flags : Nat)
    (c : Prop) [Decidable c] :
    o.shows (if c then clearFlag flags f else flags) = o.shows flags := by
  funext k
  split
  · simp [shows, flag_ne other o k]
  · rfl

/-- At most one of the three comparisons succeeds. -/
theorem modeWord_eq (terse full none : Flag) (flags : Nat) (word : Label) :
    modeWord terse full none flags word =
      match namedMode word with
      | some .none => setFlag (clearFlag flags terse) none
      | some .terse => setFlag flags terse
      | some .full => setFlag (clearFlag flags terse) full
      | Option.none => flags := by
  have clash : ∀ {name name' : String}, isClause name word = true →
      ¬(name.toList <+: name'.toList ∨ name'.toList <+: name.toList) →
        isClause name' word = false := by
    intro name name' begins apart
    by_contra begins'
    rw [Bool.not_eq_false] at begins'
    exact apart (isClause_both begins begins')
  unfold modeWord namedMode
  cases isNone : isClause "none" word with
  | true =>
      have notTerse : isClause "terse" word = false := clash isNone (by decide)
      have notFull : isClause "full" word = false := clash isNone (by decide)
      rw [notTerse, notFull]
      rfl
  | false =>
      cases isTerse : isClause "terse" word with
      | true =>
          have notFull : isClause "full" word = false := clash isTerse (by decide)
          rw [notFull]
          rfl
      | false =>
          cases isFull : isClause "full" word <;> rfl

/-- A word of the variable, on the flags of the output. -/
theorem Output.shows_word (o : Output) (flags : Nat) (w : Label) :
    o.shows (o.word flags w) =
      match namedMode w with
      | some mode => showMode (o.shows flags) mode
      | Option.none => o.shows flags := by
  cases o with
  | report =>
      rw [word, reportWord, report.shows_ite_setFlag (by decide), modeWord_eq]
      cases namedMode w with
      | none => rfl
      | some mode =>
          funext k
          cases mode <;> cases k <;> simp [shows, flag, showMode]
  | log =>
      rw [word, logWord, modeWord_eq]
      cases namedMode w with
      | none => rfl
      | some mode =>
          funext k
          cases mode <;> cases k <;> simp [shows, flag, showMode]

/-- The words of the variable, on the flags of the output. -/
theorem Output.shows_words (o : Output) (flags : Nat) (words : List Label) :
    o.shows (words.foldl o.word flags) =
      (words.filterMap namedMode).foldl showMode (o.shows flags) := by
  rw [List.foldl_filterMap]
  refine (List.foldl_hom o.shows fun flags w => ?_).symm
  rw [o.shows_word]
  cases namedMode w <;> rfl

/-- The words of IPM_REPORT and IPM_LOG leave the flags of the other. -/
theorem hasFlag_modeWord {terse full none f : Flag} (notTerse : f ≠ terse) (notFull : f ≠ full)
    (notNone : f ≠ none) (flags : Nat) (word : Label) :
    hasFlag (modeWord terse full none flags word) f = hasFlag flags f := by
  rw [modeWord_eq]
  split <;> simp [notTerse, notFull, notNone]

/-- The words of IPM_HPM leave the flags of both. -/
theorem hpmWords_shows (o : Output) (env : EnvSetup) (s : EnvState) (words : List Label) :
    o.shows (hpmWords env s words).flags = o.shows s.flags := by
  have one : ∀ (s : EnvState) (w : Label × Nat),
      o.shows (hpmWord env s w.2 w.1).flags = o.shows s.flags := by
    intro s w
    funext k
    have notCanceled : o.flag k ≠ .ipmHpmCanceled := Output.flag_ne (by decide) o k
    have notActive : o.flag k ≠ .ipmHpmActive := Output.flag_ne (by decide) o k
    unfold hpmWord Output.shows
    dsimp only
    split <;> split <;> split <;> split <;> simp [notCanceled, notActive]
  have all := Runs.foldl_keeps (fun s : EnvState => o.shows s.flags) one words.zipIdx s
  unfold hpmWords
  dsimp only
  split <;> exact all

/-- A variable, on the flags of an output. -/
theorem EnvKey.read_shows (o : Output) {env : EnvSetup} {s s' : EnvState} {val : Label}
    {k : EnvKey} (ok : k.read env s val = .ok s') :
    o.shows s'.flags =
      if k = o.key then ((tokens ',' val).filterMap namedMode).foldl showMode (o.shows s.flags)
      else o.shows s.flags := by
  by_cases own : k = o.key
  · rw [if_pos own, ← o.shows_words]
    subst own
    cases o <;> cases ok <;> rfl
  rw [if_neg own]
  cases k with
  | debug =>
      dsimp only [read] at ok
      split at ok <;> cases ok
      · exact o.shows_ite_setFlag (by decide) s.flags True
      · rfl
  | report =>
      cases ok
      cases o with
      | report => exact absurd rfl own
      | log =>
          refine Runs.foldl_keeps Output.log.shows (fun flags w => ?_) _ _
          rw [reportWord, Output.log.shows_ite_setFlag (by decide)]
          funext m
          cases m <;> simp [Output.shows, Output.flag, hasFlag_modeWord]
  | log =>
      cases ok
      cases o with
      | log => exact absurd rfl own
      | report =>
          refine Runs.foldl_keeps Output.report.shows (fun flags w => ?_) _ _
          rw [logWord]
          funext m
          cases m <;> simp [Output.shows, Output.flag, hasFlag_modeWord]
  | hpm =>
      cases ok
      exact hpmWords_shows o env s _
  | trace =>
      dsimp only [read] at ok
      split at ok <;> cases ok
      rfl
  | codename =>
      dsimp only [read] at ok
      split at ok <;> cases ok
      rfl
  | preload =>
      cases ok
      exact o.shows_ite_setFlag (by decide) s.flags True
  | mod =>
      cases ok
      refine Runs.foldl_keeps o.shows (fun flags w => ?_) _ _
      rw [modWord, o.shows_ite_setFlag (by decide), o.shows_ite_setFlag (by decide)]
  | parallelIo =>
      cases ok
      dsimp only
      rw [o.shows_ite_setFlag (by decide), o.shows_ite_clearFlag (by decide)]
  | _ =>
      cases ok
      rfl

/-! ## The whole environment -/

/-- A string of the environment, on the flags of an output. -/
theorem readEntry_shows (o : Output) {env : EnvSetup} {s s' : EnvState} {e : EnvEntry}
    (ok : readEntry env s e = .ok s') :
    o.shows s'.flags = (o.modes [e]).foldl showMode (o.shows s.flags) := by
  have modes : o.modes [e] =
      if e.name = o.key.name.toList then (tokens ',' e.value).filterMap namedMode else [] := by
    unfold Output.modes
    by_cases own : e.name = o.key.name.toList <;> simp [own]
  rw [modes]
  unfold readEntry at ok
  split at ok
  · unfold envVariable at ok
    cases found : EnvKey.ofName e.name with
    | none =>
        rw [found] at ok
        cases ok
        rw [if_neg (EnvKey.ne_of_ofName found o.key)]
        rfl
    | some k =>
        rw [found] at ok
        rw [EnvKey.read_shows o ok]
        by_cases own : k = o.key
        · rw [if_pos own, if_pos (by rw [EnvKey.eq_of_ofName found, own])]
        · have other : e.name ≠ o.key.name.toList := by
            intro named
            rw [named, EnvKey.ofName_name] at found
            exact own (Option.some.inj found).symm
          rw [if_neg own, if_neg other]
          rfl
  · rename_i other
    cases ok
    have notOwn : e.name ≠ o.key.name.toList := by
      intro named
      rw [EnvEntry.isIpm, named] at other
      cases o <;> exact other rfl
    rw [if_neg notOwn]
    rfl

theorem Output.modes_cons (o : Output) (e : EnvEntry) (environ : List EnvEntry) :
    o.modes (e :: environ) = o.modes [e] ++ o.modes environ := by
  unfold modes
  rw [← List.flatMap_append, ← List.filter_append, List.singleton_append]

/-- Before the loop the flag of `full` is set. -/
theorem EnvState.start_shows (o : Output) (env : EnvSetup) (environ : List EnvEntry) :
    o.shows (start env environ).flags = fun k => decide (k = .full) := by
  unfold start
  dsimp only
  split <;> funext k <;> cases o <;> cases k <;> simp [Output.shows, Output.flag, init]

/-- The flags of an output after `ipm_get_env`. -/
theorem ipmGetEnvScan_shows (o : Output) {env : EnvSetup} {fuel : Nat}
    {environ l : List EnvEntry} {s : EnvState}
    (ok : ipmGetEnvScan env fuel environ = .ok (l, s)) :
    o.shows s.flags = (o.modes environ).foldl showMode fun k => decide (k = .full) := by
  have ran := (scanEnviron_run (ipmGetEnvScan_eq_ok ok).2.2).2.1
  rw [← EnvState.start_shows o env environ]
  generalize EnvState.start env environ = t at ran
  clear ok
  induction environ generalizing t with
  | nil =>
      cases ran
      rfl
  | cons e environ ih =>
      obtain ⟨u, read, rest⟩ := Runs.run_cons_eq_ok ran
      rw [o.modes_cons, List.foldl_append, ← readEntry_shows o read]
      exact ih u rest

/-- `none` stays set once it is named, `terse` is set where it is named last, and `full` is
always set. -/
theorem foldl_showMode (modes : List Mode) :
    modes.foldl showMode (fun k => decide (k = .full)) = fun k => match k with
      | .terse => decide (modes.getLast? = some .terse)
      | .full => true
      | .none => decide (Mode.none ∈ modes) := by
  induction modes using List.reverseRecOn with
  | nil =>
      funext k
      cases k <;> rfl
  | append_singleton modes mode ih =>
      rw [List.foldl_append, ih, List.foldl_cons, List.foldl_nil]
      funext k
      cases mode <;> cases k <;> simp [showMode]

/-- Exactly the flag of the mode wanted is set exactly when the variable never names `none`,
and does not name `terse` last. -/
theorem selects_iff {env : EnvSetup} {fuel : Nat} {environ l : List EnvEntry} {s : EnvState}
    (ok : ipmGetEnvScan env fuel environ = .ok (l, s)) (o : Output) :
    o.Selects s.flags (wanted (o.modes environ)) ↔
      Mode.none ∉ o.modes environ ∧ (o.modes environ).getLast? ≠ some .terse := by
  have shown : ∀ k, hasFlag s.flags (o.flag k) = _ := congrFun (ipmGetEnvScan_shows o ok)
  rw [foldl_showMode] at shown
  unfold Output.Selects
  simp only [shown]
  generalize o.modes environ = modes
  constructor
  · intro selects
    have full : wanted modes = .full := ((selects .full).mp rfl).symm
    rw [full] at selects
    constructor
    · intro named
      cases (selects .none).mp (decide_eq_true named)
    · intro last
      cases (selects .terse).mp (decide_eq_true last)
  · intro given
    rcases given with ⟨notNone, notTerse⟩
    have full : wanted modes = .full := by
      unfold wanted
      cases last : modes.getLast? with
      | none => rfl
      | some mode =>
          cases mode with
          | terse => exact absurd last notTerse
          | full => rfl
          | none => exact absurd (List.mem_of_getLast? last) notNone
    rw [full]
    intro k
    cases k <;> simp [notNone, notTerse]

/-- IPM_REPORT=terse,full selects the full report. -/
theorem selects_terse_full :
    ∃ l s, ipmGetEnvScan fiveSetup 9 [⟨"IPM_REPORT".toList, "terse,full".toList, by decide⟩] =
        .ok (l, s) ∧ Output.report.Selects s.flags .full := by
  have ran : Runs.okWith (ipmGetEnvScan fiveSetup 9
      [⟨"IPM_REPORT".toList, "terse,full".toList, by decide⟩]) (fun _ => true) = true := by
    decide +kernel
  obtain ⟨⟨l, s⟩, ok, -⟩ := Runs.okWith_eq_true ran
  exact ⟨l, s, ok, (selects_iff ok .report).mpr (by decide)⟩

/-- IPM_REPORT=none leaves the flag of the full report set. -/
theorem selects_none :
    ∃ l s, ipmGetEnvScan fiveSetup 9 [⟨"IPM_REPORT".toList, "none".toList, by decide⟩] =
        .ok (l, s) ∧ ¬ Output.report.Selects s.flags .none := by
  have ran : Runs.okWith (ipmGetEnvScan fiveSetup 9
      [⟨"IPM_REPORT".toList, "none".toList, by decide⟩])
        (fun r => hasFlag r.2.flags .reportFull) = true := by
    decide +kernel
  obtain ⟨⟨l, s⟩, ok, full⟩ := Runs.okWith_eq_true ran
  refine ⟨l, s, ok, fun selects => ?_⟩
  cases (selects .full).mp full

end Ipm
