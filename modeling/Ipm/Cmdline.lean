import Ipm.Control
import Ipm.Lib.Fields

/-!
# The command line

`ipm_get_cmdline` (`src/ipm_execinfo.c`) on Linux: it reads `/proc/self/cmdline`, where every
argument has a zero behind it, and writes a space over each zero, up to one that has another in
front of it.  What stands before the first space is the executable for `realpath`.

* `blankZeros_line`, `blankZeros_full`: what the loop leaves in the buffer.
* `getsCmdline_iff_of_gapless`, `getsCmdline_iff_of_empty`: without and with an empty argument in
  what is read.
* `cmdline_iff`: when the command line is that of the arguments.
-/

namespace Ipm

open Fields

/-! ## The buffer -/

/-- A `char[MAXSIZE_CMDLINE]`. -/
structure CmdBuffer where
  bytes : Bytes
  length : bytes.length = maxsizeCmdline

/-- A store of some bytes from the start on. -/
def CmdBuffer.store (cmdl : CmdBuffer) (s : Bytes) (fits : s.length ≤ maxsizeCmdline) :
    CmdBuffer where
  bytes := s ++ cmdl.bytes.drop s.length
  length := by
    rw [List.length_append, List.length_drop, cmdl.length]
    omega

/-- `sprintf(cmdl, "unknown")`. -/
def CmdBuffer.unknown (cmdl : CmdBuffer) : CmdBuffer :=
  cmdl.store ("unknown".toList.map some ++ [none]) (by decide)

/-- `cmdl[0] = '\0'`. -/
def CmdBuffer.empty (cmdl : CmdBuffer) : CmdBuffer := cmdl.store [none] (by decide)

/-- What `fgets` reads: fewer than `n` bytes, up to the end of the line. -/
def fgetsLine (n : Nat) (fh : Bytes) : Bytes :=
  let line := fh.take (n - 1)
  match line.idxOf? (some '\n') with
  | some i => line.take (i + 1)
  | none => line

theorem length_fgetsLine (n : Nat) (fh : Bytes) : (fgetsLine n fh).length ≤ n - 1 := by
  unfold fgetsLine
  dsimp only
  split
  · exact (List.length_take_le' _ _).trans (List.length_take_le _ _)
  · exact List.length_take_le _ _

/-- `fgets(cmdl,MAXSIZE_CMDLINE,fh)`, which stores nothing at the end of the file. -/
def CmdBuffer.fgets (cmdl : CmdBuffer) (fh : Bytes) : CmdBuffer :=
  if fgetsLine maxsizeCmdline fh = [] then cmdl
  else cmdl.store (fgetsLine maxsizeCmdline fh ++ [none]) (by
    have room := length_fgetsLine maxsizeCmdline fh
    rw [List.length_append, List.length_singleton]
    exact Nat.add_le_of_le_sub (by decide) room)

/-- The loop over the zeros, from the second byte on. -/
def CmdBuffer.blankZeros (cmdl : CmdBuffer) : CmdBuffer where
  bytes := cmdl.bytes.take 1 ++ joinScan ' ' false (cmdl.bytes.drop 1)
  length := by
    rw [List.length_append, length_joinScan, ← List.length_append, List.take_append_drop]
    exact cmdl.length

inductive CmdlineStop
  | pastBuffer
deriving DecidableEq

/-- The string; without a zero `strlen` goes on behind the buffer. -/
def CmdBuffer.string (cmdl : CmdBuffer) : Except CmdlineStop Label :=
  if none ∈ cmdl.bytes then .ok (cmdl.bytes.string 0) else .error .pastBuffer

/-- `cmdl`, the argument of `realpath`, and `rpath`. -/
structure ExecInfo where
  cmdl : CmdBuffer
  cbuf : Option Label
  rpath : Label

/-- `ipm_get_cmdline`, with `cmdline` for `/proc/self/cmdline` if it can be opened. -/
def ipmGetCmdline (realpath : Label → Option Label) (cmdline : Option Bytes) (cmdl : CmdBuffer) :
    Except CmdlineStop ExecInfo := do
  let cmdl := cmdl.unknown.empty
  let cmdl :=
    match cmdline with
    | some fh => (cmdl.fgets fh).blankZeros
    | none => cmdl.unknown
  let line ← cmdl.string
  if line ≠ "unknown".toList then
    let blen := (strchr line ' ').getD line.length
    let cbuf := line.take blen
    .ok ⟨cmdl, some cbuf, (realpath cbuf).getD "unknown".toList⟩
  else .ok ⟨cmdl, none, "unknown".toList⟩

/-! ## What is asked of it -/

/-- The arguments of a process, without newlines. -/
structure ArgVector where
  args : List Label
  oneLine : ∀ a ∈ args, '\n' ∉ a

theorem ArgVector.oneLine_image (v : ArgVector) : some '\n' ∉ image v.args := by
  intro mem
  rcases List.mem_flatMap.mp mem with ⟨a, arg, mem⟩
  rcases List.mem_append.mp mem with char | zero
  · rcases List.mem_map.mp char with ⟨c, here, same⟩
    cases same
    exact v.oneLine a arg here
  · cases List.mem_singleton.mp zero

/-- The line has a zero in the buffer and is the arguments joined by spaces, with or without one
more, as far as there is room; and `realpath` is asked for the first argument, if that has no
space and fits. -/
structure CmdlineRight (args : List Label) (info : ExecInfo) : Prop where
  terminated : none ∈ info.cmdl.bytes
  line : info.cmdl.bytes.string 0 = ([' '].intercalate args).take (maxsizeCmdline - 1) ∨
    info.cmdl.bytes.string 0 = ([' '].intercalate args ++ [' ']).take (maxsizeCmdline - 1)
  name : ∀ arg0 rest, args = arg0 :: rest → ' ' ∉ arg0 → arg0.length < maxsizeCmdline →
    info.cbuf = some arg0

/-- The command line of some arguments. -/
def GetsCmdline (realpath : Label → Option Label) (v : ArgVector) (cmdl : CmdBuffer) : Prop :=
  ∃ info, ipmGetCmdline realpath (some (image v.args)) cmdl = .ok info ∧ CmdlineRight v.args info

/-- No argument but the last one is empty, as far as there is room for it, and the image is not
longer than what is read or is cut behind a zero. -/
structure CmdlineFits (args : List Label) : Prop where
  full : ∀ front back, args = front ++ [] :: back → back ≠ [] →
    maxsizeCmdline - 1 ≤ (image front).length
  room : (image args).length ≤ maxsizeCmdline - 1 ∨
    (image args)[maxsizeCmdline - 2]? = some none

/-! ## What the loop leaves -/

section Buffer

variable {cmdl : CmdBuffer} {a rest : Bytes}

theorem CmdBuffer.string_eq_ok {line : Label} (rest : Bytes)
    (bytes : cmdl.bytes = line.map some ++ none :: rest) : cmdl.string = .ok line := by
  have text := string_append [] line rest
  unfold CmdBuffer.string
  rw [bytes, if_pos (List.mem_append_right _ List.mem_cons_self)]
  exact congrArg Except.ok text

theorem CmdBuffer.string_eq_error (line : Label) (bytes : cmdl.bytes = line.map some) :
    cmdl.string = .error .pastBuffer := by
  unfold CmdBuffer.string
  rw [bytes, if_neg]
  intro zero
  rcases List.mem_map.mp zero with ⟨c, -, char⟩
  cases char

theorem CmdBuffer.bytes_blankZeros (cmdl : CmdBuffer) :
    cmdl.blankZeros.bytes = cmdl.bytes.take 1 ++ joinScan ' ' false (cmdl.bytes.drop 1) := rfl

/-- A buffer that does not begin with a zero. -/
theorem CmdBuffer.bytes_blankZeros_char {c : Char} (bytes : cmdl.bytes = some c :: a) :
    cmdl.blankZeros.bytes = joinScan ' ' true (some c :: a) := by
  rw [cmdl.bytes_blankZeros, bytes]
  rfl

/-- The line goes up to the first zero that has another in front of it. -/
theorem blankZeros_line (gapless : Gapless true a true) (bytes : cmdl.bytes = a ++ none :: rest) :
    cmdl.blankZeros.string = .ok (filled ' ' a) := by
  cases gapless with
  | nil =>
      apply CmdBuffer.string_eq_ok (joinScan ' ' false rest)
      rw [cmdl.bytes_blankZeros, bytes]
      rfl
  | @char _ _ a c inner =>
      apply CmdBuffer.string_eq_ok rest
      rw [CmdBuffer.bytes_blankZeros_char bytes]
      exact joinScan_append ' ' (.char c inner) (none :: rest)

/-- A zero at the end of a full buffer is overwritten. -/
theorem blankZeros_full (gapless : Gapless true a false) (bytes : cmdl.bytes = a ++ [none]) :
    cmdl.blankZeros.string = .error .pastBuffer := by
  cases gapless with
  | @char _ _ a c inner =>
      apply CmdBuffer.string_eq_error (filled ' ' (some c :: a) ++ [' '])
      rw [CmdBuffer.bytes_blankZeros_char bytes, List.map_append]
      exact joinScan_append ' ' (.char c inner) [none]

/-- What is read of the arguments, with a zero behind it. -/
theorem fgets_bytes {fh : Bytes} (oneLine : some '\n' ∉ fh) (cmdl : CmdBuffer) :
    ∃ rest, (cmdl.empty.fgets fh).bytes = fh.take (maxsizeCmdline - 1) ++ none :: rest := by
  have read : fgetsLine maxsizeCmdline fh = fh.take (maxsizeCmdline - 1) := by
    have absent : (fh.take (maxsizeCmdline - 1)).idxOf? (some '\n') = none :=
      List.idxOf?_eq_none_iff.mpr fun mem => oneLine (List.mem_of_mem_take mem)
    unfold fgetsLine
    simp only [absent]
  unfold CmdBuffer.fgets
  split_ifs with nothing
  · rw [← read, nothing]
    exact ⟨_, rfl⟩
  · rw [← read]
    exact ⟨_, List.append_assoc _ _ _⟩

end Buffer

theorem ipmGetCmdline_eq_ok {fh : Bytes} {cmdl : CmdBuffer} {line : Label}
    (read : (cmdl.unknown.empty.fgets fh).blankZeros.string = .ok line)
    (known : line ≠ "unknown".toList) (realpath : Label → Option Label) :
    ipmGetCmdline realpath (some fh) cmdl =
      .ok ⟨(cmdl.unknown.empty.fgets fh).blankZeros,
        some (line.take ((strchr line ' ').getD line.length)),
        (realpath (line.take ((strchr line ' ').getD line.length))).getD "unknown".toList⟩ := by
  unfold ipmGetCmdline
  simp only [read]
  exact if_pos known

theorem ipmGetCmdline_eq_error {fh : Bytes} {cmdl : CmdBuffer}
    (read : (cmdl.unknown.empty.fgets fh).blankZeros.string = .error .pastBuffer)
    (realpath : Label → Option Label) :
    ipmGetCmdline realpath (some fh) cmdl = .error .pastBuffer := by
  unfold ipmGetCmdline
  simp only [read]
  rfl

/-! ## The executable -/

/-- What stands before the first space. -/
theorem cut_append {word tail : Label} (whole : ' ' ∉ word)
    (next : tail = [] ∨ ∃ more, tail = ' ' :: more) :
    (word ++ tail).take ((strchr (word ++ tail) ' ').getD (word ++ tail).length) = word := by
  rcases next with rfl | ⟨more, rfl⟩
  · have absent : strchr word ' ' = none := List.idxOf?_eq_none_iff.mpr whole
    rw [List.append_nil, absent]
    exact List.take_length
  · rw [strchr_append whole]
    exact List.take_left

/-- The first of joined arguments. -/
theorem joined_cons (arg0 : Label) (rest : List Label) :
    ∃ tail, [' '].intercalate (arg0 :: rest) = arg0 ++ tail ∧
      (tail = [] ∨ ∃ more, tail = ' ' :: more) := by
  cases rest with
  | nil => exact ⟨[], by simp [List.intercalate], Or.inl rfl⟩
  | cons b rest =>
      refine ⟨' ' :: [' '].intercalate (b :: rest), ?_, Or.inr ⟨_, rfl⟩⟩
      simp [List.intercalate]

/-- The first argument is what stands before the first space of the line. -/
theorem cut_joined {arg0 line : Label} {rest : List Label} {n : Nat} (whole : ' ' ∉ arg0)
    (fits : arg0.length ≤ n) (joined : line = ([' '].intercalate (arg0 :: rest)).take n ∨
      line = ([' '].intercalate (arg0 :: rest) ++ [' ']).take n) :
    line.take ((strchr line ' ').getD line.length) = arg0 := by
  have cut : ∀ tail : Label, tail = [] ∨ (∃ more, tail = ' ' :: more) →
      line = (arg0 ++ tail).take n → line.take ((strchr line ' ').getD line.length) = arg0 := by
    intro tail next whence
    rw [List.take_append, List.take_of_length_le fits] at whence
    rw [whence]
    apply cut_append whole
    rcases next with rfl | ⟨more, rfl⟩
    · exact Or.inl List.take_nil
    · cases n - arg0.length with
      | zero => exact Or.inl rfl
      | succ k => exact Or.inr ⟨more.take k, rfl⟩
  rcases joined_cons arg0 rest with ⟨tail, joins, next⟩
  rw [joins] at joined
  rcases joined with exactly | blank
  · exact cut tail next exactly
  · rw [List.append_assoc] at blank
    refine cut (tail ++ [' ']) (Or.inr ?_) blank
    rcases next with rfl | ⟨more, rfl⟩
    · exact ⟨[], rfl⟩
    · exact ⟨more ++ [' '], rfl⟩

/-! ## Which command lines are right -/

section Gets

variable {realpath : Label → Option Label} {v : ArgVector} {cmdl : CmdBuffer} {a rest : Bytes}

theorem CmdBuffer.of_string_eq_ok {line : Label} (ok : cmdl.string = .ok line) :
    none ∈ cmdl.bytes ∧ cmdl.bytes.string 0 = line := by
  unfold CmdBuffer.string at ok
  split_ifs at ok with zero
  exact ⟨zero, Except.ok.inj ok⟩

/-- The line is never the one for a file that cannot be opened. -/
theorem filled_ne_unknown (gapless : Gapless true a true) : filled ' ' a ≠ "unknown".toList := by
  intro same
  rcases eq_or_ne a [] with rfl | some
  · cases same
  · have blank : ' ' ∈ filled ' ' a := List.mem_map.mpr ⟨none, gapless.mem_of_last some, rfl⟩
    rw [same] at blank
    revert blank
    decide

/-- The command line is right when the line is. -/
theorem getsCmdline_iff_line (gapless : Gapless true a true)
    (bytes : (cmdl.unknown.empty.fgets (image v.args)).bytes = a ++ none :: rest) :
    GetsCmdline realpath v cmdl ↔
      filled ' ' a = ([' '].intercalate v.args).take (maxsizeCmdline - 1) ∨
      filled ' ' a = ([' '].intercalate v.args ++ [' ']).take (maxsizeCmdline - 1) := by
  have read := blankZeros_line gapless bytes
  have ran := ipmGetCmdline_eq_ok read (filled_ne_unknown gapless) realpath
  rcases CmdBuffer.of_string_eq_ok read with ⟨zero, line⟩
  constructor
  · intro gets
    rcases gets with ⟨info, ran', right⟩
    cases ran.symm.trans ran'
    have joined := right.line
    rw [line] at joined
    exact joined
  · intro joined
    refine ⟨_, ran, zero, ?_, ?_⟩
    · rw [line]
      exact joined
    · intro arg0 args first whole fits
      rw [first] at joined
      exact congrArg some (cut_joined whole (Nat.le_sub_one_of_lt fits) joined)

theorem joined_of_image (args : List Label) (n : Nat) :
    filled ' ' ((image args).take n) = ([' '].intercalate args).take n ∨
    filled ' ' ((image args).take n) = ([' '].intercalate args ++ [' ']).take n := by
  have front : filled ' ' ((image args).take n) = (filled ' ' (image args)).take n := List.map_take
  rcases eq_or_ne args [] with rfl | some
  · refine Or.inl ?_
    rw [front]
    rfl
  · refine Or.inr ?_
    rw [front, filled_image ' ' some]

/-- Where no argument that is read is empty, the buffer has a zero left exactly when not all of it
is read or the last byte that is read is one. -/
theorem getsCmdline_iff_of_gapless {ii : Bool}
    (gapless : Gapless true ((image v.args).take (maxsizeCmdline - 1)) ii) :
    GetsCmdline realpath v cmdl ↔ (image v.args).length ≤ maxsizeCmdline - 1 ∨
      (image v.args)[maxsizeCmdline - 2]? = some none := by
  have room := gapless.front_iff (n := maxsizeCmdline - 2)
  rcases fgets_bytes v.oneLine_image cmdl.unknown with ⟨rest, bytes⟩
  cases ii with
  | true =>
      refine iff_of_true ?_ (room.mpr rfl)
      exact (getsCmdline_iff_line gapless bytes).mpr (joined_of_image _ _)
  | false =>
      refine iff_of_false ?_ fun fits => Bool.false_ne_true (room.mp fits)
      have long : maxsizeCmdline - 1 < (image v.args).length := by
        by_contra short
        exact Bool.false_ne_true (room.mp (Or.inl (Nat.not_lt.mp short)))
      have full : rest = [] := by
        have total := (cmdl.unknown.empty.fgets (image v.args)).length
        rw [bytes, List.length_append, List.length_take_of_le long.le, List.length_cons] at total
        have pos : 0 < maxsizeCmdline := by decide
        exact List.eq_nil_of_length_eq_zero (by omega)
      rw [full] at bytes
      have stopped := ipmGetCmdline_eq_error (blankZeros_full gapless bytes) realpath
      intro gets
      rcases gets with ⟨info, ran, -⟩
      cases stopped.symm.trans ran

/-- What is read of an empty argument and those behind it. -/
theorem take_image_of_empty {front : List Label} {n : Nat} (short : (image front).length < n)
    (back : List Label) : (image (front ++ [] :: back)).take n =
      image front ++ none :: (image back).take (n - (image front).length - 1) := by
  rw [image_append_nil_cons, List.take_append, List.take_of_length_le short.le]
  cases room : n - (image front).length with
  | zero => omega
  | succ k => rfl

/-- The arguments joined, with one of them empty. -/
theorem joined_of_empty (front back : List Label) :
    [' '].intercalate (front ++ [] :: back) ++ [' '] =
      filled ' ' (image front) ++ ' ' :: filled ' ' (image back) := by
  have some : front ++ [] :: back ≠ [] :=
    List.append_ne_nil_of_right_ne_nil _ (List.cons_ne_nil _ _)
  rw [← filled_image ' ' some, image_append_nil_cons, filled_append]
  rfl

/-- An empty argument that is read ends the line, which is then right if it is the last one. -/
theorem getsCmdline_iff_of_empty {front back : List Label} (args : v.args = front ++ [] :: back)
    (full : [] ∉ front) (short : (image front).length < maxsizeCmdline - 1) :
    GetsCmdline realpath v cmdl ↔ back = [] := by
  have joined := joined_of_empty front back
  rcases fgets_bytes v.oneLine_image cmdl.unknown with ⟨rest, bytes⟩
  rw [args, take_image_of_empty short, List.append_assoc, ← args] at bytes
  rw [getsCmdline_iff_line (Gapless.image full) bytes, args]
  constructor
  · intro line
    by_contra some
    have more : 0 < (image back).length := List.length_pos_iff.mpr (image_ne_nil some)
    have total := congrArg List.length joined
    simp only [List.length_append, List.length_cons, List.length_nil, length_filled] at total
    rcases line with exactly | blank
    · have lengths := congrArg List.length exactly
      rw [length_filled, List.length_take] at lengths
      omega
    · have lengths := congrArg List.length blank
      rw [length_filled, List.length_take, List.length_append, List.length_singleton] at lengths
      omega
  · intro last
    subst last
    have whole : [' '].intercalate (front ++ [[]]) = filled ' ' (image front) :=
      List.append_cancel_right joined
    have fits : (filled ' ' (image front)).length ≤ maxsizeCmdline - 1 := by
      rw [length_filled]
      exact short.le
    rw [whole, List.take_of_length_le fits]
    exact Or.inl rfl

end Gets

/-! ## Empty arguments -/

section Empty

variable {args front back : List Label}

/-- The empty arguments behind the first one. -/
theorem first_empty {front' back' : List Label} (full : [] ∉ front)
    (same : front ++ [] :: back = front' ++ [] :: back') :
    ∃ more, front' = front ++ more ∧ [] :: back = more ++ [] :: back' := by
  rcases List.append_eq_append_iff.mp same with ⟨more, front', back'⟩ | ⟨more, front', back'⟩
  · exact ⟨more, front', back'⟩
  · cases more with
    | nil =>
        refine ⟨[], ?_, back'.symm⟩
        rw [front', List.append_nil, List.append_nil]
    | cons f more =>
        cases back'
        refine absurd ?_ full
        rw [front']
        exact List.mem_append_right _ List.mem_cons_self

theorem cmdlineFits_iff_of_full (full : [] ∉ args) :
    CmdlineFits args ↔ (image args).length ≤ maxsizeCmdline - 1 ∨
      (image args)[maxsizeCmdline - 2]? = some none := by
  constructor
  · exact fun fits => fits.room
  · intro room
    refine ⟨fun front back there => absurd ?_ full, room⟩
    rw [there]
    exact List.mem_append_right _ List.mem_cons_self

/-- An empty argument that is not read, and so those behind it. -/
theorem cmdlineFits_iff_of_long (full : [] ∉ front)
    (long : maxsizeCmdline - 1 ≤ (image front).length) :
    CmdlineFits (front ++ [] :: back) ↔
      (image (front ++ [] :: back)).length ≤ maxsizeCmdline - 1 ∨
        (image (front ++ [] :: back))[maxsizeCmdline - 2]? = some none := by
  constructor
  · exact fun fits => fits.room
  · intro room
    refine ⟨fun front' back' there _ => ?_, room⟩
    rcases first_empty full there with ⟨more, behind, -⟩
    rw [behind, image_append, List.length_append]
    exact Nat.le_add_right_of_le long

/-- An empty argument that is read. -/
theorem cmdlineFits_iff_of_short (full : [] ∉ front)
    (short : (image front).length < maxsizeCmdline - 1) :
    CmdlineFits (front ++ [] :: back) ↔ back = [] := by
  constructor
  · intro fits
    by_contra some
    exact absurd (fits.full front back rfl some) (Nat.not_le.mpr short)
  · intro last
    subst last
    refine ⟨fun front' back' there some => ?_, Or.inl ?_⟩
    · rcases first_empty full there with ⟨more, -, behind⟩
      rcases List.append_eq_singleton_iff.mp behind.symm with ⟨-, last⟩ | ⟨-, last⟩
      · exact absurd (List.cons.inj last).2 some
      · cases last
    · rw [image_append_nil_cons, List.length_append]
      exact short

end Empty

/-- The command line is that of the arguments exactly when none of them but the last is empty, as
far as they are read, and the buffer has a zero left. -/
theorem cmdline_iff (realpath : Label → Option Label) (v : ArgVector) (cmdl : CmdBuffer) :
    GetsCmdline realpath v cmdl ↔ CmdlineFits v.args := by
  by_cases empty : [] ∈ v.args
  · rcases List.eq_append_cons_of_mem empty with ⟨front, back, args, full⟩
    rcases Nat.lt_or_ge (image front).length (maxsizeCmdline - 1) with short | long
    · rw [getsCmdline_iff_of_empty args full short, args, cmdlineFits_iff_of_short full short]
    · rcases (Gapless.image full).take (maxsizeCmdline - 1) with ⟨ii, gapless⟩
      have read : (image v.args).take (maxsizeCmdline - 1) =
          (image front).take (maxsizeCmdline - 1) := by
        rw [args, image_append, List.take_append_of_le_length long]
      rw [← read] at gapless
      rw [getsCmdline_iff_of_gapless gapless, args, cmdlineFits_iff_of_long full long]
  · rcases (Gapless.image empty).take (maxsizeCmdline - 1) with ⟨ii, gapless⟩
    rw [getsCmdline_iff_of_gapless gapless, cmdlineFits_iff_of_full empty]

/-- `a "" b`. -/
def ArgVector.emptyMiddle : ArgVector := ⟨["a".toList, [], "b".toList], by decide⟩

def CmdBuffer.zeros : CmdBuffer := ⟨List.replicate maxsizeCmdline none, List.length_replicate⟩

/-- The line is `a` alone: the zero of the empty argument is taken for the end. -/
theorem not_getsCmdline_emptyMiddle : ¬ GetsCmdline some .emptyMiddle .zeros := by
  intro gets
  have args : ArgVector.emptyMiddle.args = ["a".toList] ++ [] :: ["b".toList] := rfl
  have last := (getsCmdline_iff_of_empty args (by decide) (by decide)).mp gets
  cases last

end Ipm
