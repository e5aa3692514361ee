import Ipm.Lib.Stdio
import Mathlib.Algebra.BigOperators.Group.List.Basic
import Mathlib.Data.List.Infix

/-!
# The file on disk

The text of the file of `ipm_parallel_init_disk` (`src/ipm.c`): a record for each of the
`n` tasks, then the trailer with the barrier line.  A locked section counts the records and
appends its own; a poll seeks to the last 31 bytes and takes a token that starts with
`+++` there for the trailer.

* `countRecords_records`: the scan loop counts the records of the file, and ends at its end.
* `joinSection_records`: what a section appends.
* `NoPlusAt`: at a position among the records, no token that a poll takes for the trailer.  So
  are the last 31 bytes of the records (`noPlusAt_recordEnd`), and every position of a record
  whose host has no `+++` in its name (`noPlusAt_plain`); and so it stays when records follow
  (`NoPlusAt.append`).
* `scanPoll_records`, `scanPoll_trailer`: a poll that reads on from a quiet position finds
  nothing before the trailer, and with the trailer the place after its first line.
-/

namespace Ipm

open Stdio Scan

/-! ## The file -/

/-- What a task writes of itself; the stamp is in microseconds. -/
structure DiskTask where
  ipmRank : Int
  hostname : Text
  ipmPid : Int
  ipmStampStart : Nat

/-- The job cookie: `main` sets `IPM_FAKE_COOKIE`. -/
def cookie : Text := "FAKECOOKIE".toList

/-- The format the records are read with, `"%d %d %s %d %lf %s"`. -/
def recordFormat : List Conv := [.d, .d, .s, .d, .lf, .s]

/-- The record a task prints, `"%d %8d %s %8d %12.6f %s\n"`. -/
def diskRecord (n : Nat) (t : DiskTask) : Text :=
  fmtInt n ++ [' '] ++ pad 8 (fmtInt t.ipmRank) ++ [' '] ++ t.hostname ++ [' '] ++
    pad 8 (fmtInt t.ipmPid) ++ [' '] ++ pad 12 (fmtFixed 6 t.ipmStampStart) ++ [' '] ++
    cookie ++ ['\n']

/-- The line that a poll looks for. -/
def plusLine : Text := "+++\n".toList

/-- The word at `ipm_magic_offset`. -/
def barrierWord : Text := "barrier ".toList

/-- What the last task to join prints after its record,
`"+++\nbarrier 0 0 \nreduce none 0\n"`. -/
def trailer : Text := plusLine ++ barrierWord ++ "0 0 \nreduce none 0\n".toList

/-- What an arrive section prints at `ipm_magic_offset`. -/
def barrierText (id count : Int) : Text :=
  barrierWord ++ fmtInt id ++ [' '] ++ fmtInt count

/-- The loop over the records: how many were read, and the value of the `fscanf` that
ended it.  Every record read shortens the text, so as many rounds as it has characters
and one more are enough. -/
def countRecords : Nat → Text → Nat × Int
  | 0, _ => (0, 6)
  | rounds + 1, t =>
      if (fscanf recordFormat t).rv = 6 then
        ((countRecords rounds (fscanf recordFormat t).rest).1 + 1,
          (countRecords rounds (fscanf recordFormat t).rest).2)
      else (0, (fscanf recordFormat t).rv)

/-- A locked section up to its `fflush`: what it is going to append, or none if the
data are corrupted. -/
def joinSection (n : Nat) (t : DiskTask) (text : Text) : Option Text :=
  let (nBefore, rv) := countRecords (text.length + 1) text
  if 1 ≤ rv ∧ rv ≤ 5 then none
  else some (diskRecord n t ++ if nBefore = n - 1 then trailer else [])

/-- A poll: whether it takes the token it reads for the trailer, and `ftell` after it. -/
structure Poll where
  found : Bool
  ftell : Nat
  deriving DecidableEq, Repr

/-- `fseek(-31, SEEK_END)`, which fails on a shorter file. -/
def seekPoll (text : Text) (pos : Nat) : Nat :=
  if 31 ≤ text.length then text.length - 31 else pos

/-- What a token starts with that is taken for the trailer. -/
def plus : Text := "+++".toList

/-- `fscanf("%s")`. -/
def scanPoll (text : Text) (pos : Nat) : Poll :=
  let scan := fscanf [.s] (text.drop pos)
  { found :=
      match scan.items with
      | [cbuf] => plus.isPrefixOf cbuf
      | _ => false
    ftell := text.length - scan.rest.length }

/-! ## Reading the records -/

theorem isDigit_of_mem_zeroPad {d k : Nat} {c : Char}
    (mem : c ∈ (Nat.toDigits 10 k).leftpad d '0') : c.isDigit = true := by
  rcases List.mem_append.mp mem with zero | digit
  · rw [(List.mem_replicate.mp zero).2]
    rfl
  · exact isDigit_of_mem_toDigits digit

theorem zeroPad_ne_nil (d k : Nat) : (Nat.toDigits 10 k).leftpad d '0' ≠ [] :=
  List.append_ne_nil_of_right_ne_nil _ Nat.toDigits_ne_nil

theorem isSpace_of_mem_cookie {c : Char} (mem : c ∈ cookie) : isSpace c = false := by
  have all : cookie.all (fun c => !isSpace c) = true := rfl
  exact isSpace_of_all all mem

/-- The blanks a padded field starts with. -/
def blanks (w : Nat) (t : Text) : Text := List.replicate (w - t.length) ' '

/-- The fields of a record whose host has a name. -/
def namedFields (n : Nat) (t : DiskTask) : List (Text × Text) :=
  [([], fmtInt n), (' ' :: blanks 8 (fmtInt t.ipmRank), fmtInt t.ipmRank), ([' '], t.hostname),
    (' ' :: blanks 8 (fmtInt t.ipmPid), fmtInt t.ipmPid),
    (' ' :: blanks 12 (fmtFixed 6 t.ipmStampStart), fmtFixed 6 t.ipmStampStart),
    ([' '], cookie)]

/-- The fields of a record whose host has none: the process number is read for the
name, and the stamp for a number and a fraction. -/
def namelessFields (n : Nat) (t : DiskTask) : List (Text × Text) :=
  [([], fmtInt n), (' ' :: blanks 8 (fmtInt t.ipmRank), fmtInt t.ipmRank),
    (' ' :: ' ' :: blanks 8 (fmtInt t.ipmPid), fmtInt t.ipmPid),
    (' ' :: blanks 12 (fmtFixed 6 t.ipmStampStart), fmtInt (Int.ofNat (t.ipmStampStart / 10 ^ 6))),
    ([], '.' :: (Nat.toDigits 10 (t.ipmStampStart % 10 ^ 6)).leftpad 6 '0'), ([' '], cookie)]

theorem namedFields_spell (n : Nat) (t : DiskTask) (r : Text) :
    spell (namedFields n t) ('\n' :: r) = diskRecord n t ++ r := by
  simp only [spell, namedFields, diskRecord, pad_eq, blanks, List.append_assoc, List.nil_append,
    List.cons_append]

theorem namelessFields_spell (n : Nat) {t : DiskTask} (nameless : t.hostname = []) (r : Text) :
    spell (namelessFields n t) ('\n' :: r) = diskRecord n t ++ r := by
  simp only [spell, namelessFields, diskRecord, nameless, pad_eq, blanks, fmtFixed, fmtInt,
    List.append_assoc, List.nil_append, List.cons_append]

theorem namedFields_reads (n : Nat) {t : DiskTask} (named : t.hostname ≠ [])
    (blankless : ∀ c ∈ t.hostname, isSpace c = false) (r : Text) :
    Reads recordFormat (namedFields n t) ('\n' :: r) := by
  refine Reads.d (by simp) (stops_cons.mpr rfl) ?_
  refine Reads.d (by simp [blanks]) (stops_cons.mpr rfl) ?_
  refine Reads.s (by simp) named blankless (stops_cons.mpr rfl) ?_
  refine Reads.d (by simp [blanks]) (stops_cons.mpr rfl) ?_
  refine Reads.lf (by simp [blanks]) (fun _ => isDigit_of_mem_toDigits)
    (fun _ => isDigit_of_mem_zeroPad) (zeroPad_ne_nil 6 _) (stops_cons.mpr rfl)
    (stops_cons.mpr rfl) ?_
  exact Reads.s (by simp) (by decide) (fun _ => isSpace_of_mem_cookie) (stops_cons.mpr rfl) trivial

theorem namelessFields_reads (n : Nat) (t : DiskTask) (r : Text) :
    Reads recordFormat (namelessFields n t) ('\n' :: r) := by
  refine Reads.d (by simp) (stops_cons.mpr rfl) ?_
  refine Reads.d (by simp [blanks]) (stops_cons.mpr rfl) ?_
  refine Reads.s (by simp [blanks]) (fmtInt_ne_nil _) (fun _ => isSpace_of_mem_fmtInt)
    (stops_cons.mpr rfl) ?_
  refine Reads.d (by simp [blanks]) (stops_cons.mpr rfl) ?_
  have fraction : ∀ c ∈ (Nat.toDigits 10 (t.ipmStampStart % 10 ^ 6)).leftpad 6 '0',
      c.isDigit = true := fun _ => isDigit_of_mem_zeroPad
  refine Reads.lf (by simp) (List.forall_mem_nil _) fraction (zeroPad_ne_nil 6 _)
    (stops_cons.mpr rfl) (stops_cons.mpr rfl) ?_
  exact Reads.s (by simp) (by decide) (fun _ => isSpace_of_mem_cookie) (stops_cons.mpr rfl) trivial

/-- A scan of a record reads its six fields. -/
theorem fscanf_record (n : Nat) {t : DiskTask} (blankless : ∀ c ∈ t.hostname, isSpace c = false)
    (r : Text) :
    ∃ items, items.length = 6 ∧
      fscanf recordFormat (diskRecord n t ++ r) = ⟨items, false, '\n' :: r⟩ := by
  rcases eq_or_ne t.hostname [] with nameless | named
  · rw [← namelessFields_spell n nameless]
    exact ⟨_, rfl, fscanf_spell (namelessFields_reads n t r)⟩
  · rw [← namedFields_spell]
    exact ⟨_, rfl, fscanf_spell (namedFields_reads n named blankless r)⟩

/-- The records of some tasks. -/
def diskRecords (job : Fin n → DiskTask) (done : List (Fin n)) : Text :=
  done.flatMap fun p => diskRecord n (job p)

theorem diskRecords_snoc (job : Fin n → DiskTask) (done : List (Fin n)) (p : Fin n) :
    diskRecords job (done ++ [p]) = diskRecords job done ++ diskRecord n (job p) := by
  rw [diskRecords, List.flatMap_append, List.flatMap_singleton]
  rfl

/-- The scan loop counts the records and ends at the end of the file. -/
theorem countRecords_records {job : Fin n → DiskTask}
    (blankless : ∀ p, ∀ c ∈ (job p).hostname, isSpace c = false) {done : List (Fin n)}
    {rounds : Nat} (enough : done.length < rounds) {t : Text}
    (same : skipSpace t = skipSpace (diskRecords job done)) :
    countRecords rounds t = (done.length, eof) := by
  induction done generalizing rounds t with
  | nil =>
      obtain ⟨rounds, rfl⟩ := Nat.exists_eq_add_of_lt enough
      have ended : fscanf recordFormat t = ⟨[], true, []⟩ := fscanf_ended same
      rw [countRecords, ended]
      rfl
  | cons p done ih =>
      obtain ⟨k, rfl⟩ := Nat.exists_eq_add_of_lt enough
      obtain ⟨items, six, scanned⟩ :=
        fscanf_record n (blankless p) (diskRecords job done)
      have scan : fscanf recordFormat t = ⟨items, false, '\n' :: diskRecords job done⟩ :=
        (fscanf_congr same).trans scanned
      have rv : (fscanf recordFormat t).rv = 6 := by
        rw [scan]
        change (if items = [] ∧ false = true then eof else (items.length : Int)) = 6
        rw [six, if_neg fun both => Bool.false_ne_true both.2]
        rfl
      have rest : countRecords ((p :: done).length + k) (fscanf recordFormat t).rest
          = (done.length, eof) := by
        apply ih
        · simp only [List.length_cons]
          omega
        · rw [scan]
          rfl
      rw [countRecords, if_pos rv, rest]
      rfl

/-- The end of a record, from the process number on. -/
def recordEnd (t : DiskTask) : Text :=
  pad 8 (fmtInt t.ipmPid) ++ [' '] ++ pad 12 (fmtFixed 6 t.ipmStampStart) ++ [' '] ++
    cookie ++ ['\n']

theorem recordEnd_suffix (n : Nat) (t : DiskTask) : recordEnd t <:+ diskRecord n t := by
  refine ⟨fmtInt n ++ [' '] ++ pad 8 (fmtInt t.ipmRank) ++ [' '] ++ t.hostname ++ [' '], ?_⟩
  simp only [recordEnd, diskRecord, List.append_assoc]

theorem length_recordEnd (t : DiskTask) : 31 ≤ (recordEnd t).length := by
  have pid := length_pad 8 (fmtInt t.ipmPid)
  have stamp := length_pad 12 (fmtFixed 6 t.ipmStampStart)
  have word : cookie.length = 10 := rfl
  simp only [recordEnd, List.length_append, List.length_singleton, word]
  omega

/-- What a section appends that is to count `k` records. -/
def appended (n : Nat) (t : DiskTask) (k : Nat) : Text :=
  diskRecord n t ++ if k + 1 = n then trailer else []

/-- A section that finds the records of others appends its own, with the trailer if
it is the last. -/
theorem joinSection_records {job : Fin n → DiskTask}
    (blankless : ∀ p, ∀ c ∈ (job p).hostname, isSpace c = false) (done : List (Fin n))
    (p : Fin n) :
    joinSection n (job p) (diskRecords job done) = some (appended n (job p) done.length) := by
  have enough : done.length < (diskRecords job done).length + 1 := by
    have short : done.length ≤ (diskRecords job done).length := by
      have one := List.length_le_sum_of_one_le
        (done.map fun q => (diskRecord n (job q)).length) ?_
      · rwa [List.length_map, ← List.length_flatMap] at one
      · intro k mem
        obtain ⟨q, _, rfl⟩ := List.mem_map.mp mem
        exact (length_recordEnd (job q)).trans' (by decide) |>.trans
          (recordEnd_suffix n (job q)).length_le
    omega
  have counted : countRecords ((diskRecords job done).length + 1) (diskRecords job done)
      = (done.length, eof) := countRecords_records blankless enough rfl
  have last : (done.length = n - 1) = (done.length + 1 = n) := by
    have := p.pos
    apply propext
    omega
  simp only [joinSection, counted, appended, last]
  rfl

/-! ## Positions without the trailer -/

theorem not_plus_of_mem_pad {w : Nat} {t : Text} {c : Char} (none_ : ∀ x ∈ t, x ≠ '+')
    (mem : c ∈ pad w t) : c ≠ '+' := by
  rcases List.mem_append.mp mem with blank | inside
  · rw [(List.mem_replicate.mp blank).2]
    decide
  · exact none_ c inside

theorem not_plus_of_isDigit {c : Char} (digit : c.isDigit = true) : c ≠ '+' := by
  rintro rfl
  cases digit

theorem not_plus_of_mem_fmtInt {z : Int} {c : Char} (mem : c ∈ fmtInt z) : c ≠ '+' := by
  rcases mem_fmtInt mem with digit | rfl
  · exact not_plus_of_isDigit digit
  · decide

theorem not_plus_of_mem_recordEnd {t : DiskTask} {c : Char} (mem : c ∈ recordEnd t) :
    c ≠ '+' := by
  have stamp : ∀ x ∈ fmtFixed 6 t.ipmStampStart, x ≠ '+' := by
    intro x inside
    rcases List.mem_append.mp inside with whole | rest
    · exact not_plus_of_isDigit (isDigit_of_mem_toDigits whole)
    · rcases List.mem_cons.mp rest with rfl | frac
      · decide
      · exact not_plus_of_isDigit (isDigit_of_mem_zeroPad frac)
  have word : cookie.all (fun x => x != '+') = true := rfl
  simp only [recordEnd, List.mem_append, List.mem_singleton] at mem
  rcases mem with ((((mem | rfl) | mem) | rfl) | mem) | rfl
  · exact not_plus_of_mem_pad (fun _ => not_plus_of_mem_fmtInt) mem
  · decide
  · exact not_plus_of_mem_pad stamp mem
  · decide
  · exact bne_iff_ne.mp (List.all_eq_true.mp word c mem)
  · decide

/-- What stands before the name of the host. -/
def recordStart (n : Nat) (t : DiskTask) : Text :=
  fmtInt n ++ [' '] ++ pad 8 (fmtInt t.ipmRank) ++ [' ']

theorem diskRecord_parts (n : Nat) (t : DiskTask) :
    diskRecord n t = recordStart n t ++ (t.hostname ++ ' ' :: recordEnd t) := by
  simp only [diskRecord, recordStart, recordEnd, List.append_assoc, List.cons_append,
    List.nil_append]

theorem not_plus_of_mem_recordStart {n : Nat} {t : DiskTask} {c : Char}
    (mem : c ∈ recordStart n t) : c ≠ '+' := by
  simp only [recordStart, List.mem_append, List.mem_singleton] at mem
  rcases mem with ((mem | rfl) | mem) | rfl
  · exact not_plus_of_mem_fmtInt mem
  · decide
  · exact not_plus_of_mem_pad (fun _ => not_plus_of_mem_fmtInt) mem
  · decide

theorem mem_plus {c : Char} (mem : c ∈ plus) : c = '+' := by
  simpa [plus] using mem

/-- A text around which no `+` stands has all the `+++` there are. -/
theorem plus_infix_of_append {a b c : Text} (left : ∀ x ∈ a, x ≠ '+') (right : ∀ x ∈ c, x ≠ '+')
    (inside : plus <:+: a ++ (b ++ c)) : plus <:+: b := by
  have away : ∀ {l : Text}, l ≠ [] → l ⊆ plus → ∀ {t : Text}, (∀ x ∈ t, x ≠ '+') → ¬ l ⊆ t := by
    intro l some_ within t clean sub
    obtain ⟨x, mem⟩ := List.exists_mem_of_ne_nil l some_
    exact clean x (sub mem) (mem_plus (within mem))
  have whole : plus ≠ [] := by decide
  rcases List.infix_append_iff_ne_nil.mp inside with here | later | ⟨l, r, some_, -, eq, here, -⟩
  · exact absurd here.subset (away whole (List.Subset.refl _) left)
  · rcases List.infix_append_iff_ne_nil.mp later with
      found | beyond | ⟨l, r, -, some_, eq, -, beyond⟩
    · exact found
    · exact absurd beyond.subset (away whole (List.Subset.refl _) right)
    · exact absurd beyond.subset (away some_ (eq ▸ List.subset_append_right l r) right)
  · exact absurd here.subset (away some_ (eq ▸ List.subset_append_left l r) left)

/-- A record has `+++` in the name of its host only. -/
theorem plus_infix_diskRecord {n : Nat} {t : DiskTask} (inside : plus <:+: diskRecord n t) :
    plus <:+: t.hostname := by
  rw [diskRecord_parts] at inside
  refine plus_infix_of_append (fun _ => not_plus_of_mem_recordStart) (fun x mem => ?_) inside
  rcases List.mem_cons.mp mem with rfl | mem
  · decide
  · exact not_plus_of_mem_recordEnd mem

/-- The token at a position of the records is not taken for the trailer. -/
structure NoPlusAt (records : Text) (i : Nat) : Prop where
  inside : i ≤ records.length
  quiet : ¬ plus <+: skipSpace (records.drop i)

/-- A token that starts in `x`, which ends in a blank, ends there. -/
theorem plus_prefix_append {x v : Text} (ends : ∀ c, x.getLast? = some c → isSpace c = true)
    (seen : plus <+: skipSpace (x ++ v)) :
    plus <+: skipSpace x ∨ skipSpace x = [] ∧ plus <+: skipSpace v := by
  rw [skipSpace, List.dropWhile_append] at seen
  split at seen
  · rename_i blank
    exact Or.inr ⟨List.isEmpty_iff.mp blank, seen⟩
  · rename_i more
    left
    rcases Nat.le_total plus.length (skipSpace x).length with long | short
    · exact List.prefix_of_prefix_length_le seen (List.prefix_append _ _) long
    · exfalso
      have some_ : skipSpace x ≠ [] := fun none_ => more (List.isEmpty_iff.mpr none_)
      have within : skipSpace x <+: plus :=
        List.prefix_of_prefix_length_le (List.prefix_append _ _) seen short
      have last := List.getLast_mem some_
      have same : x.getLast? = some ((skipSpace x).getLast some_) := by
        obtain ⟨y, split⟩ : skipSpace x <:+ x := List.dropWhile_suffix _
        rw [← List.getLast?_eq_some_getLast some_]
        conv_lhs => rw [← split]
        exact List.getLast?_append_of_ne_nil _ some_
      have blank := ends _ same
      rw [mem_plus (within.subset last)] at blank
      cases blank

section NoPlusAt

variable {job : Fin n → DiskTask} {done : List (Fin n)} {i : Nat}

/-- The records end with the end of a record. -/
theorem recordEnd_suffix_diskRecords (job : Fin n → DiskTask) (some_ : done ≠ []) :
    ∃ p, recordEnd (job p) <:+ diskRecords job done := by
  obtain ⟨before, p, rfl⟩ := (List.eq_nil_or_concat' done).resolve_left some_
  refine ⟨p, ?_⟩
  rw [diskRecords_snoc]
  exact (recordEnd_suffix n (job p)).trans (List.suffix_append _ _)

theorem length_diskRecords (job : Fin n → DiskTask) (some_ : done ≠ []) :
    31 ≤ (diskRecords job done).length := by
  obtain ⟨p, ends⟩ := recordEnd_suffix_diskRecords job some_
  exact (length_recordEnd (job p)).trans ends.length_le

/-- The last two characters of the records. -/
theorem diskRecords_ends (job : Fin n → DiskTask) (some_ : done ≠ []) :
    ['E', '\n'] <:+ diskRecords job done := by
  obtain ⟨p, ends⟩ := recordEnd_suffix_diskRecords job some_
  have last : ['E', '\n'] <:+ cookie ++ ['\n'] := by decide
  refine last.trans (List.IsSuffix.trans ?_ ends)
  rw [recordEnd, List.append_assoc _ cookie]
  exact List.suffix_append _ _

theorem getLast?_drop_diskRecords (c : Char)
    (last : ((diskRecords job done).drop i).getLast? = some c) : isSpace c = true := by
  rw [List.getLast?_drop] at last
  split at last
  · cases last
  · rcases eq_or_ne done [] with rfl | some_
    · cases last
    · obtain ⟨y, split⟩ := diskRecords_ends job some_
      rw [← split, List.getLast?_append_of_ne_nil _ (by decide)] at last
      cases last
      rfl

/-- No token is taken for the trailer in the last 31 bytes of the records. -/
theorem noPlusAt_recordEnd (some_ : done ≠ []) (inside : i ≤ (diskRecords job done).length)
    (close : (diskRecords job done).length ≤ i + 31) : NoPlusAt (diskRecords job done) i := by
  obtain ⟨p, ends⟩ := recordEnd_suffix_diskRecords job some_
  have window : (diskRecords job done).drop i <:+ recordEnd (job p) := by
    apply List.suffix_of_suffix_length_le (List.drop_suffix _ _) ends
    have := length_recordEnd (job p)
    rw [List.length_drop]
    omega
  refine ⟨inside, fun seen => ?_⟩
  have first : '+' ∈ skipSpace ((diskRecords job done).drop i) := seen.subset (by decide)
  exact not_plus_of_mem_recordEnd (window.subset ((List.dropWhile_suffix _).subset first)) rfl

/-- And none in a record whose host has no `+++` in its name. -/
theorem noPlusAt_plain {p : Fin n} (plain : ¬ plus <:+: (job p).hostname)
    (after : (diskRecords job done).length ≤ i)
    (inside : i ≤ (diskRecords job (done ++ [p])).length) :
    NoPlusAt (diskRecords job (done ++ [p])) i := by
  refine ⟨inside, fun seen => plain (plus_infix_diskRecord (n := n) ?_)⟩
  rw [diskRecords_snoc, List.drop_append, List.drop_eq_nil_of_le after, List.nil_append] at seen
  exact seen.isInfix.trans ((List.dropWhile_suffix _).isInfix.trans (List.drop_suffix _ _).isInfix)

/-- The records that follow do not change what a token is. -/
theorem NoPlusAt.append (quiet : NoPlusAt (diskRecords job done) i) (p : Fin n) :
    NoPlusAt (diskRecords job (done ++ [p])) i := by
  rw [diskRecords_snoc]
  refine ⟨quiet.inside.trans (List.prefix_append _ _).length_le, fun seen => ?_⟩
  rw [List.drop_append_of_le_length quiet.inside] at seen
  rcases plus_prefix_append getLast?_drop_diskRecords seen with here | ⟨-, later⟩
  · exact quiet.quiet here
  · -- a record starts with a number
    obtain ⟨c, number, digits⟩ := List.exists_cons_of_ne_nil (fmtInt_ne_nil n)
    have mem : c ∈ fmtInt n := digits ▸ List.mem_cons_self
    have record : skipSpace (diskRecord n (job p)) = diskRecord n (job p) := by
      rw [diskRecord_parts, recordStart, digits]
      exact dropWhile_of_stops (stops_cons.mpr (isSpace_of_mem_fmtInt mem))
    rw [record, diskRecord_parts, recordStart, digits] at later
    exact not_plus_of_mem_fmtInt mem (List.cons_prefix_cons.mp later).1.symm

/-- Only the end of the last line is blank. -/
theorem noPlusAt_last (some_ : done ≠ []) (blank : skipSpace ((diskRecords job done).drop i) = []) :
    (diskRecords job done).length ≤ i + 1 := by
  by_contra early
  have window : ['E', '\n'] <:+ (diskRecords job done).drop i := by
    apply List.suffix_of_suffix_length_le (diskRecords_ends job some_) (List.drop_suffix _ _)
    rw [List.length_drop]
    change 2 ≤ _
    omega
  have inside : 'E' ∈ (diskRecords job done).drop i := window.subset List.mem_cons_self
  have space := List.dropWhile_eq_nil_iff.mp blank 'E' inside
  cases space

end NoPlusAt

/-! ## Polling -/

/-- A poll takes the token for the trailer that starts with `+++`. -/
theorem scanPoll_found {text : Text} {i : Nat} :
    (scanPoll text i).found = true ↔ plus <+: skipSpace (text.drop i) := by
  rcases eq_or_ne (skipSpace (text.drop i)) [] with blank | some_
  · rw [scanPoll, fscanf_ended blank, blank]
    exact iff_of_false nofun (by decide)
  · have nonblank : ∀ c ∈ plus, (!isSpace c) = true := by
      intro c mem
      rw [mem_plus mem]
      rfl
    simp only [scanPoll, fscanf_s some_, List.isPrefixOf_iff_prefix]
    refine ⟨fun seen => seen.trans (List.takeWhile_prefix _), fun seen => ?_⟩
    obtain ⟨r, split⟩ := seen
    rw [← split, List.takeWhile_append_of_pos nonblank]
    exact List.prefix_append _ _

/-- The last 31 bytes of a file that has the trailer. -/
def IsTrailer (t : Text) : Prop := ∃ rest, rest.length = 19 ∧ t = plusLine ++ (barrierWord ++ rest)

theorem trailer_isTrailer : IsTrailer trailer := ⟨"0 0 \nreduce none 0\n".toList, rfl, rfl⟩

@[simp] theorem length_plusLine : plusLine.length = 4 := rfl

@[simp] theorem length_barrierWord : barrierWord.length = 8 := rfl

theorem IsTrailer.length {t : Text} (is : IsTrailer t) : t.length = 31 := by
  obtain ⟨rest, length, rfl⟩ := is
  rw [List.length_append, List.length_append, length]
  rfl

/-- The first line of the trailer and the word behind it. -/
theorem scanPoll_plusLine {a rest : Text} {i : Nat} (blank : skipSpace (a.drop i) = [])
    (inside : i ≤ a.length) :
    scanPoll (a ++ (plusLine ++ rest)) i = ⟨true, a.length + 3⟩ := by
  have read : (a ++ (plusLine ++ rest)).drop i = a.drop i ++ (plusLine ++ rest) :=
    List.drop_append_of_le_length inside
  have skipped : skipSpace (a.drop i ++ (plusLine ++ rest)) = plus ++ '\n' :: rest := by
    rw [skipSpace, List.dropWhile_append, ← skipSpace, if_pos (List.isEmpty_iff.mpr blank)]
    rfl
  have reads : Reads [.s] [([], plus)] ('\n' :: rest) :=
    Reads.s (List.forall_mem_nil _) (by decide)
      (fun _ => isSpace_of_all (s := plus) rfl) (stops_cons.mpr rfl) trivial
  have scan : fscanf [.s] (a.drop i ++ (plusLine ++ rest)) = ⟨[plus], false, '\n' :: rest⟩ :=
    (fscanf_congr skipped).trans (fscanf_spell reads)
  simp only [scanPoll, read, scan, List.length_append, List.length_cons, length_plusLine]
  have end_ : a.length + (4 + rest.length) - (rest.length + 1) = a.length + 3 := by omega
  rw [end_]
  rfl

/-- A part of the trailer, from its start on. -/
def TrailerPart (w : Text) : Prop := ∃ t, IsTrailer t ∧ w <+: t

/-- The word `barrier` is in a part that long. -/
theorem TrailerPart.split {w : Text} (part : TrailerPart w) (long : 12 ≤ w.length) :
    ∃ rest, w = plusLine ++ rest ∧ barrierWord <+: rest := by
  obtain ⟨t, ⟨end_, -, rfl⟩, within⟩ := part
  rw [← List.append_assoc] at within
  have head : plusLine ++ barrierWord <+: w :=
    List.prefix_of_prefix_length_le (List.prefix_append _ _) within long
  obtain ⟨rest, rfl⟩ := head
  exact ⟨barrierWord ++ rest, List.append_assoc _ _ _, List.prefix_append _ _⟩

section Scan

variable {job : Fin n → DiskTask} {done : List (Fin n)} {i : Nat} {text w : Text}

/-- No record is taken for the trailer, written whole or in part. -/
theorem scanPoll_records (quiet : NoPlusAt (diskRecords job done) i)
    (part : text <+: diskRecords job done) : (scanPoll text i).found = false := by
  rw [Bool.eq_false_iff, ne_eq, scanPoll_found]
  intro seen
  obtain ⟨more, split⟩ := part.drop i
  apply quiet.quiet
  rw [← split, skipSpace, List.dropWhile_append]
  split
  · rename_i blank
    rw [skipSpace, List.isEmpty_iff.mp blank] at seen
    exact absurd seen (by decide)
  · exact seen.trans (List.prefix_append _ _)

/-- A poll that finds the trailer stops right before the end of its first line, and the
word `barrier` is written. -/
theorem scanPoll_trailer (some_ : done ≠ []) (quiet : NoPlusAt (diskRecords job done) i)
    (part : TrailerPart w) (back : i + 31 ≤ (diskRecords job done ++ w).length)
    (found : (scanPoll (diskRecords job done ++ w) i).found = true) :
    (scanPoll (diskRecords job done ++ w) i).ftell = (diskRecords job done).length + 3 ∧
      barrierWord <+: w.drop 4 := by
  have seen := scanPoll_found.mp found
  rw [List.drop_append_of_le_length quiet.inside] at seen
  obtain ⟨blank, -⟩ :=
    (plus_prefix_append getLast?_drop_diskRecords seen).resolve_left quiet.quiet
  have last := noPlusAt_last some_ blank
  rw [List.length_append] at back
  obtain ⟨rest, rfl, word⟩ := part.split (by omega)
  rw [scanPoll_plusLine blank quiet.inside]
  exact ⟨rfl, word⟩

end Scan

/-- An arrive section leaves a trailer, if its line ends before the file does, and so does
a part of the line. -/
theorem overwrite_trailer (a : Text) {t : Text} (is : IsTrailer t) {id count : Int}
    (fits : (barrierText id count).length ≤ 27) (k : Nat) :
    ∃ t', IsTrailer t' ∧
      overwrite (a ++ t) (a.length + 4) ((barrierText id count).take k) = a ++ t' := by
  obtain ⟨rest, length, rfl⟩ := is
  have place : a.length + 4 = (a ++ plusLine).length := by
    rw [List.length_append, length_plusLine]
  rw [← List.append_assoc, place, overwrite_append, List.append_assoc a, List.append_assoc a]
  refine ⟨_, ?_, rfl⟩
  rw [List.append_assoc]
  have numbers : barrierText id count = barrierWord ++ (fmtInt id ++ [' '] ++ fmtInt count) := by
    simp only [barrierText, List.append_assoc]
  rw [numbers] at fits ⊢
  generalize fmtInt id ++ [' '] ++ fmtInt count = line at fits ⊢
  rw [List.length_append, length_barrierWord] at fits
  rcases Nat.le_total k barrierWord.length with inWord | beyond
  · have cut : (barrierWord.take k).length = k := List.length_take_of_le inWord
    refine ⟨rest, length, ?_⟩
    rw [List.take_append_of_le_length inWord, cut, List.drop_append_of_le_length inWord,
      ← List.append_assoc (barrierWord.take k), List.take_append_drop]
  · obtain ⟨more, rfl⟩ := Nat.exists_eq_add_of_le beyond
    refine ⟨line.take more ++ rest.drop (line.take more).length, ?_, ?_⟩
    · rw [List.length_append, List.length_drop, List.length_take, length]
      omega
    · rw [List.take_length_add_append, List.length_append, List.drop_length_add_append,
        List.append_assoc]

end Ipm
