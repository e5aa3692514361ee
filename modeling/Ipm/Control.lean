import Ipm.Region.State

/-!
# MPI_Pcontrol

`ipm_control` (`src/ipm_mpi_pcontrol.c`): a command `action(arg,arg,...)` is split where it lies,
with zeros in place of its brackets.  The pointer to the arguments does not move at a comma, and
more of them than slots are only reported.

* `parseCommand_isOk`: the stores stay in the five slots up to four commas.
* `parseCommand_bracketed`: every slot that is stored has the text of all the arguments.
* `ipmControl_region`: `enter_region` and `exit_region` take that text for their label.
* `control_iff`: when the arguments are told apart.
-/

namespace Ipm

/-! ## The command -/

/-- The bytes of a buffer, with `none` for a zero. -/
abbrev Bytes := List (Option Char)

/-- The string at a place of a buffer. -/
def Bytes.string (mem : Bytes) (p : Nat) : Label :=
  ((mem.drop p).takeWhile Option.isSome).filterMap id

/-- `strchr`. -/
def strchr (s : Label) (c : Char) : Option Nat := s.idxOf? c

/-- `strrchr`. -/
def strrchr (s : Label) (c : Char) : Option Nat :=
  (s.reverse.idxOf? c).map fun i => s.length - 1 - i

/-- `strncpy(lcmd, cmd, MAXSIZE_PCMD)`: without room for its zero the string goes on with what is
behind `lcmd`. -/
def lcmdText (cmd behind : Label) : Label :=
  if cmd.length < maxsizePcmd then cmd else cmd.take maxsizePcmd ++ behind

/-- The brackets of a command that has the syntax `action(...)`. -/
def brackets (text : Label) : Option (Nat × Nat) :=
  match strchr text '(', strrchr text ')' with
  | some cpb, some cpe => if cpb < cpe then some (cpb, cpe) else none
  | _, _ => none

/-! ## The arguments -/

/-- `arg` has five elements. -/
def argSlots : Nat := 5

inductive ControlStop
  | pastArgs
deriving DecidableEq

/-- `narg`, and the slots as places in `lcmd`. -/
structure ArgVars where
  narg : Nat
  arg : Nat → Option Nat

def ArgVars.init : ArgVars := ⟨0, fun _ => none⟩

/-- `arg[narg] = cpa; narg++;`. -/
def ArgVars.store (v : ArgVars) (cpa : Nat) : Except ControlStop ArgVars :=
  if argSlots ≤ v.narg then .error .pastArgs
  else .ok ⟨v.narg + 1, Function.update v.arg v.narg (some cpa)⟩

/-- The loop over the argument text. -/
def scanComma (cpa : Nat) (v : ArgVars) (c : Option Char) : Except ControlStop ArgVars :=
  if c = some ',' then v.store cpa else .ok v

def scanArgs (mem : Bytes) (cpb cpe : Nat) : Except ControlStop ArgVars :=
  let cpa := cpb + 1
  if cpe - cpb > 1 then do
    let v ← ArgVars.init.store cpa
    Runs.run (scanComma cpa) v ((mem.drop cpa).take (cpe - cpa))
  else .ok .init

/-- A command that has been split. -/
structure Command where
  lcmd : Bytes
  arg : Nat → Option Nat

def Command.action (c : Command) : Label := c.lcmd.string 0

def Command.argument (c : Command) (i : Nat) : Option Label := (c.arg i).map c.lcmd.string

/-- The first half of `ipm_control`. -/
def parseCommand (cmd behind : Label) : Except ControlStop (Option Command) :=
  let text := lcmdText cmd behind
  match brackets text with
  | none => .ok none
  | some (cpb, cpe) => do
      let lcmd := ((text.map some).set cpb none).set cpe none
      let v ← scanArgs lcmd cpb cpe
      .ok (some ⟨lcmd, v.arg⟩)

/-! ## The actions -/

/-- What `ipm_control` calls or copies to `data`. -/
inductive ControlCall
  | region (io : Int) (label : Option Label)
  | regionLabel
  | initialized
  | event (cmd : Option Label)
deriving DecidableEq

/-- A known action, and whether it has set `got_action`. -/
def controlAction (isInitialized : Bool) (c : Command) : List ControlCall × Bool :=
  if c.action = "enter_region".toList then ([.region 1 (c.argument 0)], true)
  else if c.action = "exit_region".toList then ([.region (-1) (c.argument 0)], true)
  else if c.action = "get_region".toList then ([.regionLabel], true)
  else if c.action = "get_ipmstatus".toList then
    (if isInitialized then [.initialized] else [], false)
  else ([], false)

/-- `ipm_control`; `ctl` and `cmd` may be null. -/
def ipmControl (isInitialized : Bool) (ctl : Option Int) (cmd : Option Label) (behind : Label) :
    Except ControlStop (List ControlCall) := do
  let vctl := ctl.getD 0
  let parsed ←
    match cmd with
    | some text => if vctl = 0 then parseCommand text behind else .ok none
    | none => .ok none
  let (calls, gotAction) :=
    match parsed with
    | some c => controlAction isInitialized c
    | none => ([], false)
  if gotAction then .ok calls
  else if vctl = 0 then .ok (calls ++ [.event cmd])
  else if vctl = 1 ∨ vctl = -1 then .ok (calls ++ [.region vctl cmd])
  else .ok calls

/-! ## The stores -/

/-- The text between the brackets. -/
def argText (text : Label) : Label :=
  match brackets text with
  | some (cpb, cpe) => (text.drop (cpb + 1)).take (cpe - (cpb + 1))
  | none => []

theorem store_isOk {v : ArgVars} {cpa : Nat} :
    (∃ v', v.store cpa = .ok v') ↔ v.narg + 1 ≤ argSlots := by
  unfold ArgVars.store
  split
  · rename_i full
    refine iff_of_false ?_ (by omega)
    intro stored
    rcases stored with ⟨v', ok⟩
    cases ok
  · exact iff_of_true ⟨_, rfl⟩ (by omega)

theorem store_narg {v v' : ArgVars} {cpa : Nat} (ok : v.store cpa = .ok v') :
    v'.narg = v.narg + 1 := by
  unfold ArgVars.store at ok
  split at ok
  · cases ok
  · cases ok
    rfl

/-- A comma uses up a slot. -/
def commaCost (c : Option Char) : Nat := if c = some ',' then 1 else 0

theorem sum_commaCost (text : Label) :
    ((text.map some).map commaCost).sum = text.count ',' := by
  induction text with
  | nil => rfl
  | cons c text ih =>
      rw [List.map_cons, List.map_cons, List.sum_cons, ih, List.count_cons, Nat.add_comm]
      by_cases comma : c = ','
      · simp [commaCost, comma]
      · simp [commaCost, comma]

theorem scanComma_narg {v v' : ArgVars} {cpa : Nat} {c : Option Char}
    (ok : scanComma cpa v c = .ok v') : v'.narg = v.narg + commaCost c := by
  unfold scanComma at ok
  unfold commaCost
  split at ok
  · rw [if_pos ‹_›]
    exact store_narg ok
  · rw [if_neg ‹_›]
    cases ok
    rfl

theorem scanComma_isOk {v : ArgVars} {cpa : Nat} {c : Option Char} (inside : v.narg ≤ argSlots) :
    (∃ v', scanComma cpa v c = .ok v') ↔ True ∧ v.narg + commaCost c ≤ argSlots := by
  unfold scanComma commaCost
  rw [true_and]
  split
  · exact store_isOk
  · exact iff_of_true ⟨v, rfl⟩ inside

theorem brackets_lt {text : Label} {cpb cpe : Nat} (split : brackets text = some (cpb, cpe)) :
    cpb < cpe := by
  unfold brackets at split
  split at split
  · split at split
    · rename_i before
      cases split
      exact before
    · cases split
  · cases split

/-- The bytes the loop reads are the text between the brackets. -/
theorem read_argText {text : Label} {cpb cpe : Nat} (split : brackets text = some (cpb, cpe)) :
    ((((text.map some).set cpb none).set cpe none).drop (cpb + 1)).take (cpe - (cpb + 1)) =
      (argText text).map some := by
  have before := brackets_lt split
  have inside : ¬ cpe < cpb + 1 := by omega
  rw [argText, split, List.drop_set, if_neg inside, List.take_set_of_le (Nat.le_refl _),
    List.drop_set_of_lt (Nat.lt_succ_self cpb), ← List.map_drop, ← List.map_take]

theorem scanArgs_isOk {text : Label} {cpb cpe : Nat} (split : brackets text = some (cpb, cpe)) :
    (∃ v, scanArgs (((text.map some).set cpb none).set cpe none) cpb cpe = .ok v) ↔
      (argText text).count ',' ≤ 4 := by
  unfold scanArgs
  by_cases long : cpe - cpb > 1
  · have room : ∃ v, ArgVars.init.store (cpb + 1) = .ok v := store_isOk.mpr (by decide)
    rcases room with ⟨v, stored⟩
    have one : v.narg = 1 := store_narg stored
    have inside : v.narg ≤ argSlots := by
      rw [one]
      decide
    have scanned : (∃ v', Runs.run (scanComma (cpb + 1)) v ((argText text).map some) = .ok v') ↔
        (∀ c ∈ (argText text).map some, True) ∧
          v.narg + (((argText text).map some).map commaCost).sum ≤ argSlots :=
      Runs.run_isOk_iff_budget _ (fun _ _ _ => scanComma_narg) (fun _ _ => scanComma_isOk) inside
    rw [if_pos long, stored, read_argText split]
    refine scanned.trans ?_
    rw [sum_commaCost, one, argSlots]
    constructor
    · intro both
      rcases both with ⟨-, room⟩
      omega
    · intro few
      exact ⟨fun _ _ => trivial, by omega⟩
  · have empty : argText text = [] := by
      rw [argText, split]
      exact List.take_eq_nil_iff.mpr (Or.inl (by omega))
    rw [if_neg long, empty]
    exact iff_of_true ⟨_, rfl⟩ (Nat.zero_le 4)

/-- No store goes past the slots exactly when there are at most four commas between the first
bracket and the last. -/
theorem parseCommand_isOk (cmd behind : Label) :
    (∃ r, parseCommand cmd behind = .ok r) ↔
      (argText (lcmdText cmd behind)).count ',' ≤ 4 := by
  unfold parseCommand
  generalize lcmdText cmd behind = text
  dsimp only
  cases split : brackets text with
  | none =>
      have empty : argText text = [] := by
        rw [argText, split]
      rw [empty]
      exact iff_of_true ⟨none, rfl⟩ (Nat.zero_le 4)
  | some places =>
      rcases places with ⟨cpb, cpe⟩
      rw [← scanArgs_isOk split]
      constructor
      · intro parsed
        rcases parsed with ⟨r, ok⟩
        rcases Runs.bind_eq_ok ok with ⟨v, scanned, -⟩
        exact ⟨v, scanned⟩
      · intro scans
        rcases scans with ⟨v, scanned⟩
        refine ⟨some ⟨((text.map some).set cpb none).set cpe none, v.arg⟩, ?_⟩
        dsimp only
        rw [scanned]
        rfl

/-! ## The slots -/

/-- The slots that are stored point to the start of the arguments. -/
def Pointing (cpa : Nat) (v : ArgVars) : Prop :=
  ∀ i, v.arg i = if i < v.narg then some cpa else none

theorem Pointing.store {cpa : Nat} {v v' : ArgVars} (pointing : Pointing cpa v)
    (ok : v.store cpa = .ok v') : Pointing cpa v' := by
  intro i
  unfold ArgVars.store at ok
  split at ok
  · cases ok
  · cases ok
    dsimp only
    rw [Function.update_apply, pointing i]
    split_ifs <;> first | rfl | omega

theorem Pointing.scanComma {cpa : Nat} {v v' : ArgVars} {c : Option Char}
    (pointing : Pointing cpa v) (ok : scanComma cpa v c = .ok v') : Pointing cpa v' := by
  unfold Ipm.scanComma at ok
  split at ok
  · exact pointing.store ok
  · cases ok
    exact pointing

theorem scanArgs_pointing {mem : Bytes} {cpb cpe : Nat} {v : ArgVars}
    (ok : scanArgs mem cpb cpe = .ok v) : Pointing (cpb + 1) v ∧ v.narg =
      if cpe - cpb > 1 then
        1 + (((mem.drop (cpb + 1)).take (cpe - (cpb + 1))).map commaCost).sum
      else 0 := by
  have start : Pointing (cpb + 1) .init := fun _ => rfl
  unfold scanArgs at ok
  split at ok
  · rcases Runs.bind_eq_ok ok with ⟨w, stored, ran⟩
    rw [if_pos ‹_›, Runs.run_used (scanComma (cpb + 1)) (fun _ _ _ => scanComma_narg) ran,
      store_narg stored]
    refine ⟨?_, rfl⟩
    exact Runs.run_keeps (I := Pointing (cpb + 1)) (start.store stored)
      (fun inv stepped => inv.scanComma stepped) ran
  · cases ok
    rw [if_neg ‹_›]
    exact ⟨start, rfl⟩

/-! ## Commands -/

theorem strchr_append {c : Char} {before : Label} (first : c ∉ before) (after : Label) :
    strchr (before ++ c :: after) c = some before.length := by
  unfold strchr
  induction before with
  | nil => simp [List.idxOf?_cons]
  | cons d before ih =>
      rw [List.mem_cons, not_or] at first
      rw [List.cons_append, List.idxOf?_cons, ih first.2, beq_eq_false_iff_ne.mpr (Ne.symm first.1)]
      rfl

theorem strrchr_append {c : Char} {after : Label} (last : c ∉ after) (before : Label) :
    strrchr (before ++ c :: after) c = some before.length := by
  have turned : (before ++ c :: after).reverse = after.reverse ++ c :: before.reverse := by simp
  have found : strchr (after.reverse ++ c :: before.reverse) c = some after.reverse.length :=
    strchr_append (by rwa [List.mem_reverse]) _
  rw [strrchr, turned]
  rw [strchr] at found
  rw [found, Option.map_some, List.length_reverse, List.length_append, List.length_cons]
  exact congrArg some (by omega)

/-- The string at a place ends at the next zero. -/
theorem string_append (before : Bytes) (s : Label) (after : Bytes) :
    Bytes.string (before ++ (s.map some ++ none :: after)) before.length = s := by
  have present : ∀ c ∈ s.map some, Option.isSome c = true := by
    intro c mem
    rcases List.mem_map.mp mem with ⟨d, -, rfl⟩
    rfl
  rw [Bytes.string, List.drop_left, List.takeWhile_append_of_pos present]
  simp [List.filterMap_map]

/-- A command with any text between the brackets. -/
def bracketed (action body : Label) : Label := action ++ '(' :: (body ++ [')'])

section Bracketed

variable {action body : Label}

theorem brackets_bracketed (noOpen : '(' ∉ action) :
    brackets (bracketed action body) =
      some (action.length, (action ++ '(' :: body).length) := by
  have opened : strchr (bracketed action body) '(' = some action.length :=
    strchr_append noOpen _
  have regrouped : bracketed action body = (action ++ '(' :: body) ++ ')' :: [] := by
    simp [bracketed]
  have closed : strrchr (bracketed action body) ')' = some (action ++ '(' :: body).length := by
    rw [regrouped]
    exact strrchr_append List.not_mem_nil _
  rw [brackets, opened, closed]
  refine if_pos ?_
  rw [List.length_append, List.length_cons]
  omega

theorem argText_bracketed (noOpen : '(' ∉ action) :
    argText (bracketed action body) = body := by
  have lengths : (action ++ '(' :: body).length - (action.length + 1) = body.length := by
    rw [List.length_append, List.length_cons]
    omega
  have behind : (bracketed action body).drop (action.length + 1) = body ++ [')'] := by
    rw [bracketed, ← List.drop_drop, List.drop_left]
    rfl
  rw [argText, brackets_bracketed noOpen]
  dsimp only
  rw [lengths, behind, List.take_left]

/-- The brackets become zeros. -/
theorem lcmd_bracketed :
    ((((bracketed action body).map some).set action.length none).set
      (action ++ '(' :: body).length none) =
        action.map some ++ none :: (body.map some ++ none :: []) := by
  have first : ((bracketed action body).map some).set action.length none =
      (action.map some ++ none :: body.map some) ++ [some ')'] := by
    rw [bracketed, List.map_append, List.set_append_right _ _ (by rw [List.length_map]),
      List.length_map, Nat.sub_self]
    simp
  have place : (action ++ '(' :: body).length =
      (action.map some ++ none :: body.map some).length := by simp
  rw [first, place, List.set_append_right _ _ (Nat.le_refl _), Nat.sub_self]
  simp

/-- The slots of the commas hold the text of all the arguments. -/
theorem parseCommand_bracketed (noOpen : '(' ∉ action)
    (short : (bracketed action body).length < maxsizePcmd) {behind : Label} {r : Option Command}
    (ok : parseCommand (bracketed action body) behind = .ok r) :
    ∃ c, r = some c ∧ c.action = action ∧ ∀ i, c.argument i =
      if i < (if body = [] then 0 else body.count ',' + 1) then some body else none := by
  unfold parseCommand at ok
  have text : lcmdText (bracketed action body) behind = bracketed action body := if_pos short
  rw [text] at ok
  dsimp only at ok
  rw [brackets_bracketed noOpen] at ok
  rcases Runs.bind_eq_ok ok with ⟨v, scanned, made⟩
  rcases scanArgs_pointing scanned with ⟨pointing, narg⟩
  rw [read_argText (brackets_bracketed noOpen), sum_commaCost,
    argText_bracketed noOpen] at narg
  cases made
  have action' := string_append [] action (body.map some ++ none :: [])
  have argument := string_append (action.map some ++ [none]) body []
  have place : (action.map some ++ [none]).length = action.length + 1 := by simp
  rw [place, List.append_assoc, List.singleton_append] at argument
  refine ⟨_, rfl, ?_, fun i => ?_⟩
  · rw [Command.action, lcmd_bracketed]
    exact action'
  · have counted : v.narg = if body = [] then 0 else body.count ',' + 1 := by
      have empty : (action ++ '(' :: body).length - action.length > 1 ↔ body ≠ [] := by
        rw [List.length_append, List.length_cons, ← List.length_pos_iff]
        omega
      rw [narg]
      split_ifs <;> simp_all [Nat.add_comm]
    rw [Command.argument]
    dsimp only
    rw [pointing i, ← counted]
    split
    · rw [Option.map_some, lcmd_bracketed, argument]
    · rfl

end Bracketed

/-- `action(arg,arg,...)`. -/
def commandText (action : Label) (args : List Label) : Label :=
  bracketed action ([','].intercalate args)

/-- A command of that form, shorter than the buffer. -/
structure Spelled (action : Label) (args : List Label) : Prop where
  noBracket : '(' ∉ action
  plain : ∀ a ∈ args, ',' ∉ a ∧ '(' ∉ a ∧ ')' ∉ a
  short : (commandText action args).length < maxsizePcmd

theorem commandText_lcmd {action : Label} {args : List Label} (spelled : Spelled action args)
    (behind : Label) : argText (lcmdText (commandText action args) behind) =
      [','].intercalate args := by
  rw [lcmdText, if_pos spelled.short, commandText, argText_bracketed spelled.noBracket]

/-- The command is split into its action and, where there are slots, its arguments. -/
def SplitInto (action : Label) (args : List Label) (r : Except ControlStop (Option Command)) :
    Prop :=
  ∃ c, r = .ok (some c) ∧ c.action = action ∧
    ∀ i a, args[i]? = some a → i < argSlots → c.argument i = some a

/-- The arguments are told apart exactly when there is no more than one, and that is not
empty. -/
theorem splitInto_iff {action : Label} {args : List Label} (spelled : Spelled action args)
    (behind : Label) : SplitInto action args (parseCommand (commandText action args) behind) ↔
      args = [] ∨ ∃ a, a ≠ [] ∧ args = [a] := by
  have slots : ∀ {r}, parseCommand (commandText action args) behind = .ok r → _ :=
    parseCommand_bracketed spelled.noBracket spelled.short
  constructor
  · intro split
    rcases split with ⟨c, ok, -, argument⟩
    rcases slots ok with ⟨c', same, -, stored⟩
    cases same
    cases args with
    | nil => exact Or.inl rfl
    | cons a rest =>
        have first := argument 0 a rfl (by decide)
        cases rest with
        | nil =>
            rw [stored 0, List.intercalate_singleton] at first
            refine Or.inr ⟨a, ?_, rfl⟩
            rintro rfl
            cases first
        | cons b rest =>
            -- the slot has the comma, which no argument has
            have comma : ',' ∈ [','].intercalate (a :: b :: rest) := by
              rw [List.intercalate_cons_cons]
              simp
            rw [stored 0, if_neg (List.ne_nil_of_mem comma), if_pos (Nat.succ_pos _)] at first
            rw [Option.some.inj first] at comma
            exact absurd comma (spelled.plain a List.mem_cons_self).1
  · intro single
    have none : ([','].intercalate args).count ',' = 0 := by
      rw [List.count_eq_zero]
      rcases single with rfl | ⟨a, -, rfl⟩
      · exact List.not_mem_nil
      · rw [List.intercalate_singleton]
        exact (spelled.plain a List.mem_cons_self).1
    have succeeds : ∃ r, parseCommand (commandText action args) behind = .ok r := by
      rw [parseCommand_isOk, commandText_lcmd spelled, none]
      exact Nat.zero_le 4
    rcases succeeds with ⟨r, ok⟩
    rcases slots ok with ⟨c, rfl, action', stored⟩
    refine ⟨c, ok, action', fun i a found _ => ?_⟩
    rcases single with rfl | ⟨a', some, rfl⟩
    · cases found
    · cases i with
      | zero =>
          cases found
          rw [stored 0, List.intercalate_singleton, if_neg some, if_pos (Nat.succ_pos _)]
      | succ i => cases found

/-- `enter_region` and `exit_region` take the text of all the arguments for the label. -/
theorem ipmControl_region (isInitialized : Bool) {action body behind : Label} {io : Int}
    (known : (action, io) ∈ [("enter_region".toList, 1), ("exit_region".toList, -1)])
    (short : (bracketed action body).length < maxsizePcmd) (few : body.count ',' ≤ 4) :
    ipmControl isInitialized (some 0) (some (bracketed action body)) behind =
      .ok [.region io (if body = [] then none else some body)] := by
  have noBracket : '(' ∉ action := by
    rcases List.mem_cons.mp known with same | other
    · cases same
      decide
    · cases List.mem_singleton.mp other
      decide
  have succeeds : ∃ r, parseCommand (bracketed action body) behind = .ok r := by
    rw [parseCommand_isOk, lcmdText, if_pos short, argText_bracketed noBracket]
    exact few
  rcases succeeds with ⟨r, ok⟩
  rcases parseCommand_bracketed noBracket short ok with ⟨c, rfl, action', stored⟩
  have first : c.argument 0 = if body = [] then none else some body := by
    rw [stored 0]
    split_ifs <;> simp_all
  have called : controlAction isInitialized c = ([.region io (c.argument 0)], true) := by
    unfold controlAction
    rw [action']
    rcases List.mem_cons.mp known with same | other
    · cases same
      rfl
    · cases List.mem_singleton.mp other
      rfl
  rw [← first]
  unfold ipmControl
  dsimp only [Option.getD_some]
  rw [if_pos rfl, ok]
  change (if (controlAction isInitialized c).2 then
    Except.ok (controlAction isInitialized c).1 else _) = _
  rw [called]
  rfl

/-- A command is split as it is written exactly when it has no more than one argument, and no
store goes past the slots exactly when there are at most four commas. -/
theorem control_iff (cmd behind : Label) :
    (∀ action args, cmd = commandText action args → Spelled action args →
      (SplitInto action args (parseCommand cmd behind) ↔
        args = [] ∨ ∃ a, a ≠ [] ∧ args = [a])) ∧
      ((∃ r, parseCommand cmd behind = .ok r) ↔
        (argText (lcmdText cmd behind)).count ',' ≤ 4) := by
  refine ⟨?_, parseCommand_isOk cmd behind⟩
  rintro action args rfl spelled
  exact splitInto_iff spelled behind

/-- The slots of `imp_color(r,g,b)` all have `r,g,b`. -/
theorem splitInto_color : Spelled "imp_color".toList ["r".toList, "g".toList, "b".toList] ∧
    ¬ SplitInto "imp_color".toList ["r".toList, "g".toList, "b".toList]
      (parseCommand (commandText "imp_color".toList ["r".toList, "g".toList, "b".toList]) []) := by
  have ran : Runs.okWith (parseCommand
      (commandText "imp_color".toList ["r".toList, "g".toList, "b".toList]) [])
        (fun r => r.bind (fun c => c.argument 0) == some "r,g,b".toList) = true := by
    decide +kernel
  refine ⟨⟨by decide, by decide, by decide⟩, ?_⟩
  intro split
  rcases split with ⟨c, ok, -, argument⟩
  rcases Runs.okWith_eq_true ran with ⟨r, done, whole⟩
  cases done.symm.trans ok
  rw [beq_iff_eq, Option.bind_some, argument 0 "r".toList rfl (by decide)] at whole
  exact absurd whole (by decide)

end Ipm
