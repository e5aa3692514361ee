import Ipm.Lib.Patterns
import Ipm.Parse.Tables

/-!
# The text of a log

`ipm_log_write` prints a line for each region, counter, function and hash entry, and
`ipm_parse` takes the lines apart with patterns of its own: what one writes with a format
the other finds with `(.*)` between literals, by splitting at quotes and by the names of
the attributes.  The text is that of one job, so the cookie by which the parser tells jobs
apart is not looked at, and the lines beside the regions and the hash entries, some of which
the parser passes over in loops of their own, hold no element of these.

* `split_attrText`: the attributes of an element are read as they were printed.
* `readFunc_text`, `readCounter_text`, `readHent_text`: so are the records.
* `Shows`: some lines of text are read as some lines of the log.
* `parseText_job`: so is the text of a job, and the parser does not stop in it.
-/

namespace Ipm

open Stdio Scan Patterns

/-! ## What is printed -/

/-- Attributes of an element, each with a blank behind it. -/
def attrText (attrs : List (Label × Label)) : Label :=
  attrs.flatMap fun a => a.1 ++ ("=\"".toList ++ (a.2 ++ "\" ".toList))

/-- What is printed of a task beside its regions and its hash entries. -/
structure TextRest where
  ipmVersion : Label
  cookie : Label
  mpiSize : Int
  stampInit : Label
  stampFinal : Label
  username : Label
  groupname : Label
  flags : Int
  pid : Int
  api : Label
  ncounter : Int
  eventset : Int
  gflop : RegionEntry → Label
  hashNlog : Int
  hashNkey : Int
  /-- The lines between the first one and the regions, and those behind the hash entries. -/
  before : List Label
  after : List Label

def taskText (x : TextRest) (mpiRank : Nat) : Label :=
  "<task ".toList ++ (attrText [("ipm_version".toList, x.ipmVersion), ("cookie".toList, x.cookie),
    ("mpi_rank".toList, fmtInt mpiRank), ("mpi_size".toList, fmtInt x.mpiSize),
    ("stamp_init".toList, x.stampInit), ("stamp_final".toList, x.stampFinal),
    ("username".toList, x.username), ("groupname".toList, x.groupname),
    ("flags".toList, fmtInt x.flags), ("pid".toList, fmtInt x.pid)] ++ ">\n".toList)

def regionText (text : Label) : Label := "<region label=\"".toList ++ (text ++ ['\n'])

/-- The blank before it is printed behind the line of the region. -/
def hpmText (x : TextRest) (r : RegionEntry) : Label :=
  " <hpm ".toList ++ (attrText [("api".toList, x.api), ("ncounter".toList, fmtInt x.ncounter),
    ("eventset".toList, fmtInt x.eventset), ("gflop".toList, x.gflop r)] ++ ">\n".toList)

def counterText (c : Label × Int) : Label :=
  "<counter name=\"".toList ++ (c.1 ++ ("\" > ".toList ++ (fmtInt c.2 ++
    " </counter>\n".toList)))

def funcText (f : FuncEntry) : Label :=
  "<func name=\"".toList ++ (f.name ++ ("\" count=\"".toList ++ (fmtInt f.count ++
    ("\" > ".toList ++ (f.time ++ " </func>\n".toList)))))

def hentText (h : HashEntry) : Label :=
  "<hent ".toList ++ (attrText [("key".toList, fmtInt h.key), ("call".toList, h.call),
    ("bytes".toList, fmtInt h.bytes), ("orank".toList, fmtInt h.orank),
    ("region".toList, fmtInt h.region), ("count".toList, fmtInt h.count)] ++
      ('>' :: (h.times.1 ++ (' ' :: (h.times.2.1 ++ (' ' :: (h.times.2.2 ++
        "</hent>\n".toList)))))))

namespace TaskLog

variable (t : TaskLog) (x : TextRest)

/-- The counters of a region; those of a cancelled task are one word before the line that
ends them. -/
def counterLines (r : RegionEntry) : List Label :=
  if t.hpmCanceled then ["CANCELED</hpm>\n".toList]
  else r.counters.map counterText ++ ["</hpm>\n".toList]

def regionLines : List RegionEntry → List Label
  | [] => []
  | r :: rs =>
      regionText (printRegions (r :: rs) ++ '"' :: ' ' :: r.attrs) :: hpmText x r ::
        (t.counterLines r ++ ((r.funcs.filter fun f => 0 < f.count).map funcText ++
          "</region>\n".toList :: regionLines rs))

/-- The hash entries. -/
def hashLines : List Label :=
  if t.logFull then
    ("<hash ".toList ++ (attrText [("nlog".toList, fmtInt x.hashNlog),
      ("nkey".toList, fmtInt x.hashNkey)] ++ ">\n".toList)) ::
      (t.hash.map hentText ++ ["</hash>\n".toList])
  else []

/-- The text `ipm_log_write` prints. -/
def text : List Label :=
  taskText x t.mpiRank :: (x.before ++ ("<regions n=\"".toList ++ (fmtInt t.regions.length ++
    "\" >\n".toList)) :: (t.regionLines x t.regions ++ "</regions>\n".toList ::
      (t.hashLines x ++ x.after)))

end TaskLog

/-! ## The patterns -/

/-- `$iversion` is one of those the parser knows: `0.8[56789]` or `0.[89][0-9][0-9]`, where the
point is any character. -/
def knownVersion (iversion : Label) : Bool :=
  iversion.tails.any fun t =>
    match t with
    | '0' :: _ :: d :: e :: f :: _ =>
        (d == '8' && ('5' ≤ e && e ≤ '9')) || ((d == '8' || d == '9') && e.isDigit && f.isDigit)
    | ['0', _, d, e] => d == '8' && ('5' ≤ e && e ≤ '9')
    | _ => false

/-- `/^<task ipm_version="([0-9.]+)" (.*)$/`. -/
def readVersion (line : Label) : Option Label :=
  literal "<task ipm_version=\"".toList (fun t =>
    let v := t.takeWhile fun c => c.isDigit || c == '.'
    let rest := t.dropWhile fun c => c.isDigit || c == '.'
    if v ≠ [] ∧ "\" ".toList <+: rest then some v else none) line

/-- `/^<task (.*)>/`, and the attributes in it. -/
def readTask (line : Label) : Option (List (Label × Label)) :=
  (literal "<task ".toList (captures '\n' [">".toList]) line).map fun caps =>
    (split "\" ".toList (caps.headD [])).map (splitPair "=\"".toList)

/-- `/<region label="(\S+)" (.*)>/`, from the label on. -/
def readRegion (line : Label) : Option LogLine :=
  leftmost (literal "<region label=\"".toList fun t =>
    if (regionTag t).isSome then some (.region t) else none) line

/-- `/<func name="(.*)" count="(.*)" > (.*) <\/func>/`. -/
def readFunc (line : Label) : Option LogLine :=
  match leftmost (literal "<func name=\"".toList (captures '\n'
      ["\" count=\"".toList, "\" > ".toList, " </func>".toList])) line with
  | some [name, count, time] => some (.record (.func ⟨name, (integer count).toNat, time⟩))
  | _ => none

/-- `/<counter name="(.*)" > (.*) <\/counter>/`. -/
def readCounter (line : Label) : Option LogLine :=
  match leftmost (literal "<counter name=\"".toList (captures '\n'
      ["\" > ".toList, " </counter>".toList])) line with
  | some [name, count] => some (.record (.counter name (integer count)))
  | _ => none

/-- `/<\/region>$/`. -/
def readEnd (line : Label) : Option LogLine :=
  leftmost (literal "</region>".toList fun t =>
    if t = [] ∨ t = ['\n'] then some .endRegion else none) line

/-- `$ikey` to `$icount`: an attribute that is missing leaves the value of an earlier line. -/
structure HentVars where
  ikey : Label
  icall : Label
  ibyte : Label
  iorank : Label
  iregion : Label
  icount : Label

/-- An attribute of a hash entry, without its quotes. -/
def HentVars.set (v : HentVars) (kv : Label × Label) : HentVars :=
  let value := kv.2.filter (· != '"')
  if kv.1 = "key".toList then { v with ikey := value }
  else if kv.1 = "call".toList then { v with icall := value }
  else if kv.1 = "bytes".toList then { v with ibyte := value }
  else if kv.1 = "orank".toList then { v with iorank := value }
  else if kv.1 = "region".toList then { v with iregion := value }
  else if kv.1 = "count".toList then { v with icount := value }
  else v

def HentVars.entry (v : HentVars) (times : Label × Label × Label) : HashEntry where
  key := integer v.ikey
  call := v.icall
  bytes := integer v.ibyte
  orank := integer v.iorank
  region := (integer v.iregion).toNat
  count := (integer v.icount).toNat
  times := times

/-- `/<hent (.*) >(.*) (.*) (.*)<\/hent>/`. -/
def readHent (v : HentVars) (line : Label) : Option (HentVars × LogLine) :=
  match leftmost (literal "<hent ".toList (captures '\n'
      [" >".toList, " ".toList, " ".toList, "</hent>".toList])) line with
  | some [attr, ittot, itmin, itmax] =>
      let v := ((split "\" ".toList attr).map (splitPair "=\"".toList)).foldl HentVars.set v
      some (v, .record (.hent (v.entry (ittot, itmin, itmax))))
  | _ => none

/-! ## The parser -/

/-- `$iversion`, `$global_ipm_version` and the variables of the hash entries. -/
structure TextState where
  iversion : Label
  globalVersion : Option Label
  vars : HentVars
  state : TableState

/-- The parser exits at a second version of the log, and where the regions stop it. -/
inductive TextStop
  | versions
  | parse (stop : ParseStop)
deriving DecidableEq

/-- `/^$global_ipm_version$/`, where a point is any character. -/
def sameVersion (globalVersion iversion : Label) : Bool :=
  globalVersion.length == iversion.length &&
    (globalVersion.zip iversion).all fun c => c.1 == '.' || c.1 == c.2

namespace TextState

-- `$mpi_call{$icall}{dat}`
variable (dat : Label → Option DataClass)

def checkVersion (s : TextState) (line : Label) : Except TextStop TextState :=
  match readVersion line with
  | none => .ok s
  | some v =>
      let globalVersion := s.globalVersion.getD v
      if sameVersion globalVersion v then
        .ok { s with
          iversion := v
          globalVersion := some globalVersion
          state := { s.state with parse := { s.state.parse with regionIndex := 0 } } }
      else .error .versions

/-- `$$key = $value` for the attributes of a task: `$mpi_rank` is one of them. -/
def setTask (s : TextState) (line : Label) : TextState :=
  match readTask line with
  | none => s
  | some attrs =>
      { s with
        state := { s.state with
          parse := { s.state.parse with
            mpiRank := attrs.foldl (fun rank kv =>
              if kv.1 = "mpi_rank".toList then (integer kv.2).toNat else rank)
                s.state.parse.mpiRank } } }

/-- The lines of the log that stand in a line of text. -/
def readLine (s : TextState) (line : Label) : List LogLine :=
  (readRegion line).toList ++ ((readFunc line).toList ++
    (((readHent s.vars line).map Prod.snd).toList ++ ((readCounter line).toList ++
      (readEnd line).toList)))

/-- A pass of the loop of `ipm_parse` over a line of text. -/
def parseText (s : TextState) (line : Label) : Except TextStop TextState := do
  let s ← s.checkVersion line
  if knownVersion s.iversion then
    let s := s.setTask line
    let state ← (Runs.run (TableState.parseLine dat) s.state (s.readLine line)).mapError .parse
    .ok { s with vars := ((readHent s.vars line).map Prod.fst).getD s.vars, state := state }
  else .ok s

end TextState

/-- Nothing read yet. -/
def textInit : TextState where
  iversion := []
  globalVersion := none
  vars := ⟨[], [], [], [], [], []⟩
  state := .init

/-! ## Attributes -/

/-- A text without quotes, brackets, blanks and ends of lines. -/
def PlainText (s : Label) : Prop := ∀ c ∈ s, c ≠ '"' ∧ c ≠ '<' ∧ c ≠ '>' ∧ c ≠ ' ' ∧ c ≠ '\n'

instance (s : Label) : Decidable (PlainText s) := List.decidableBAll _ s

theorem PlainText.not_mem {s : Label} (plain : PlainText s) :
    '"' ∉ s ∧ '<' ∉ s ∧ '>' ∉ s ∧ ' ' ∉ s ∧ '\n' ∉ s :=
  ⟨fun mem => (plain _ mem).1 rfl, fun mem => (plain _ mem).2.1 rfl,
    fun mem => (plain _ mem).2.2.1 rfl, fun mem => (plain _ mem).2.2.2.1 rfl,
    fun mem => (plain _ mem).2.2.2.2 rfl⟩

/-- The characters `%d` prints. -/
theorem fmtInt_ne {c : Char} (other : c.isDigit = false ∧ c ≠ '-') (z : Int) : c ∉ fmtInt z := by
  intro mem
  rcases mem_fmtInt mem with digit | minus
  · rw [other.1] at digit
    cases digit
  · exact other.2 minus

theorem plainText_fmtInt (z : Int) : PlainText (fmtInt z) := by
  intro c mem
  refine ⟨?_, ?_, ?_, ?_, ?_⟩ <;> (rintro rfl; exact fmtInt_ne (by decide) z mem)

/-- A separator of two characters does not begin in a text without the second. -/
theorem whole_pair {a b : Char} {f : Label} (differ : a ≠ b) (none_ : b ∉ f) : Whole [a, b] f := by
  intro s suffix some_ t starts
  cases s with
  | nil => exact some_ rfl
  | cons x s =>
      have second := (List.cons_prefix_cons.mp starts).2
      cases s with
      | nil => exact differ (List.cons_prefix_cons.mp second).1.symm
      | cons y s =>
          rw [(List.cons_prefix_cons.mp second).1] at none_
          exact none_ (suffix.subset (List.mem_cons_of_mem x List.mem_cons_self))

theorem not_infix_of_not_mem {b : Char} {sep f : Label} (mem : b ∈ sep) (none_ : b ∉ f) :
    ¬ sep <:+: f :=
  fun inside => none_ (inside.subset mem)

/-- An attribute up to the quote that ends it. -/
def attrField (a : Label × Label) : Label := a.1 ++ ("=\"".toList ++ a.2)

theorem attrText_eq (attrs : List (Label × Label)) :
    attrText attrs = (attrs.map attrField).flatMap fun f => f ++ "\" ".toList := by
  rw [List.flatMap_map]
  unfold attrText attrField
  simp only [List.append_assoc]

theorem attrField_blank {a : Label × Label} (name : ' ' ∉ a.1) (value : ' ' ∉ a.2) :
    ' ' ∉ attrField a := by
  unfold attrField
  rw [List.mem_append, List.mem_append, not_or, not_or]
  exact ⟨name, by decide, value⟩

/-- The name and the value of an attribute; the last one of an element may have its quote. -/
theorem splitPair_attrField {name value : Label} (plain : PlainText name)
    (unsplit : ¬ "=\"".toList <:+: value) :
    splitPair "=\"".toList (attrField (name, value)) = (name, value) := by
  have whole : Whole "=\"".toList name := whole_pair (by decide) plain.not_mem.1
  unfold splitPair attrField
  rw [breakOn_append (by decide) whole]
  dsimp only
  rw [breakOn_last unsplit]

section Attributes

variable {attrs : List (Label × Label)} (plain : ∀ a ∈ attrs, PlainText a.1 ∧ PlainText a.2)

include plain

theorem whole_attrField : ∀ f ∈ attrs.map attrField, Whole "\" ".toList f := by
  intro f mem
  rcases List.mem_map.mp mem with ⟨a, given, rfl⟩
  exact whole_pair (by decide) (attrField_blank (plain a given).1.not_mem.2.2.2.1
    (plain a given).2.not_mem.2.2.2.1)

theorem map_attrField : (attrs.map attrField).map (splitPair "=\"".toList) = attrs := by
  rw [List.map_map]
  refine (List.map_congr_left fun a mem => ?_).trans (List.map_id attrs)
  exact splitPair_attrField (plain a mem).1 (not_infix_of_not_mem (b := '"') (by decide)
    (plain a mem).2.not_mem.1)

/-- Attributes are read as they were printed. -/
theorem split_attrText :
    (split "\" ".toList (attrText attrs)).map (splitPair "=\"".toList) = attrs := by
  have filled : ∀ f ∈ attrs.map attrField, f ≠ [] := by
    intro f mem
    rcases List.mem_map.mp mem with ⟨a, _, rfl⟩
    exact List.append_ne_nil_of_right_ne_nil _ (List.cons_ne_nil _ _)
  rw [attrText_eq, split_joined (by decide) (whole_attrField plain) filled, map_attrField plain]

/-- The same when the last one is followed by no blank. -/
theorem split_attrText_last {last : Label × Label} (name : PlainText last.1)
    (blank : ' ' ∉ last.2) (unsplit : '=' ∉ last.2) :
    (split "\" ".toList (attrText attrs ++ attrField last)).map (splitPair "=\"".toList) =
      attrs ++ [last] := by
  have end_ : ¬ "\" ".toList <:+: attrField last :=
    not_infix_of_not_mem (b := ' ') (by decide) (attrField_blank name.not_mem.2.2.2.1 blank)
  have filled : attrField last ≠ [] :=
    List.append_ne_nil_of_right_ne_nil _ (List.cons_ne_nil _ _)
  rw [attrText_eq, split_fields (by decide) (whole_attrField plain) end_ filled, List.map_append,
    map_attrField plain, List.map_singleton, splitPair_attrField name]
  exact not_infix_of_not_mem (b := '=') (by decide) unsplit

theorem attrText_not_mem : '<' ∉ attrText attrs ∧ '>' ∉ attrText attrs ∧ '\n' ∉ attrText attrs := by
  have none_ : ∀ c, c ∉ "=\"".toList ∧ c ∉ "\" ".toList → (∀ s, PlainText s → c ∉ s) →
      c ∉ attrText attrs := by
    intro c format bare
    unfold attrText
    rw [List.mem_flatMap]
    rintro ⟨a, given, mem⟩
    simp only [List.mem_append] at mem
    rcases mem with mem | mem | mem | mem
    · exact bare a.1 (plain a given).1 mem
    · exact format.1 mem
    · exact bare a.2 (plain a given).2 mem
    · exact format.2 mem
  exact ⟨none_ _ (by decide) fun s bare => bare.not_mem.2.1,
    none_ _ (by decide) fun s bare => bare.not_mem.2.2.1,
    none_ _ (by decide) fun s bare => bare.not_mem.2.2.2.2⟩

end Attributes

/-! ## A record -/

/-- A line printed with a format is found by a pattern for it. -/
theorem leftmost_printed {lit rest line : Label} {lits caps : List Label}
    {fs : List (Label × Label)} (marked : Marked '\n' rest fs)
    (text : line = lit ++ printed fs rest) (behind : lits = fs.map Prod.snd)
    (between : caps = fs.map Prod.fst) :
    leftmost (literal lit (captures '\n' lits)) line = some caps := by
  subst text behind between
  apply leftmost_eq_some
  rw [literal_append]
  exact captures_printed marked

theorem readFunc_text {f : FuncEntry} (name : '\n' ∉ f.name) (time : PlainText f.time) :
    readFunc (funcText f) = some (.record (.func f)) := by
  have count := (plainText_fmtInt f.count).not_mem
  have marked : Marked '\n' ['\n'] [(f.name, "\" count=\"".toList),
      (fmtInt f.count, "\" > ".toList), (f.time, " </func>".toList)] := by
    refine ⟨name, ⟨'"', _, rfl, by decide, ?_⟩, count.2.2.2.2, ⟨'"', _, rfl, by decide, ?_⟩,
      time.not_mem.2.2.2.2, ⟨' ', _, rfl, by decide, nofun⟩, trivial⟩
    · rw [List.forall_mem_cons, List.forall_mem_singleton]
      exact ⟨count.1, time.not_mem.1⟩
    · rw [List.forall_mem_singleton]
      exact time.not_mem.1
  have found : leftmost (literal "<func name=\"".toList (captures '\n'
      ["\" count=\"".toList, "\" > ".toList, " </func>".toList])) (funcText f) =
        some [f.name, fmtInt f.count, f.time] := leftmost_printed marked rfl rfl rfl
  rw [readFunc, found]
  dsimp only
  rw [Scientific.integer_fmtInt, Int.toNat_natCast]

theorem readCounter_text {c : Label × Int} (name : '\n' ∉ c.1) :
    readCounter (counterText c) = some (.record (.counter c.1 c.2)) := by
  have count := (plainText_fmtInt c.2).not_mem
  have marked : Marked '\n' ['\n'] [(c.1, "\" > ".toList), (fmtInt c.2, " </counter>".toList)] := by
    refine ⟨name, ⟨'"', _, rfl, by decide, ?_⟩, count.2.2.2.2, ⟨' ', _, rfl, by decide, nofun⟩,
      trivial⟩
    rw [List.forall_mem_singleton]
    exact count.1
  have found : leftmost (literal "<counter name=\"".toList (captures '\n'
      ["\" > ".toList, " </counter>".toList])) (counterText c) = some [c.1, fmtInt c.2] :=
    leftmost_printed marked rfl rfl rfl
  rw [readCounter, found]
  dsimp only
  rw [Scientific.integer_fmtInt]

/-- A hash entry of plain texts. -/
def PlainEntry (h : HashEntry) : Prop :=
  PlainText h.call ∧ PlainText h.times.1 ∧ PlainText h.times.2.1 ∧ PlainText h.times.2.2

/-- The attributes of a hash entry; the pattern leaves the quote of the last one. -/
def hentAttrs (h : HashEntry) (last : Label) : List (Label × Label) :=
  [("key".toList, fmtInt h.key), ("call".toList, h.call), ("bytes".toList, fmtInt h.bytes),
    ("orank".toList, fmtInt h.orank), ("region".toList, fmtInt h.region),
    ("count".toList, fmtInt h.count ++ last)]

theorem plain_hentAttrs {h : HashEntry} (plain : PlainEntry h) :
    ∀ a ∈ hentAttrs h [], PlainText a.1 ∧ PlainText a.2 := by
  unfold hentAttrs
  simp only [List.forall_mem_cons, plainText_fmtInt, plain.1, List.append_nil, and_true]
  exact ⟨by decide, by decide, by decide, by decide, by decide, by decide, nofun⟩

theorem filter_plain {s : Label} (plain : PlainText s) : s.filter (· != '"') = s := by
  rw [List.filter_eq_self]
  intro c mem
  exact bne_iff_ne.mpr (plain c mem).1

/-- The variables after the attributes are those of the entry. -/
theorem set_hentAttrs {h : HashEntry} (plain : PlainEntry h) (v : HentVars) :
    ((hentAttrs h ['"']).foldl HentVars.set v).entry h.times = h := by
  have quoted : (fmtInt h.count ++ ['"']).filter (· != '"') = fmtInt h.count := by
    rw [List.filter_append, filter_plain (plainText_fmtInt _)]
    exact List.append_nil _
  have all : (hentAttrs h ['"']).foldl HentVars.set v =
      ⟨(fmtInt h.key).filter (· != '"'), h.call.filter (· != '"'),
        (fmtInt h.bytes).filter (· != '"'), (fmtInt h.orank).filter (· != '"'),
        (fmtInt h.region).filter (· != '"'), (fmtInt h.count ++ ['"']).filter (· != '"')⟩ := by
    rfl
  rw [all, quoted, filter_plain plain.1]
  simp only [filter_plain (plainText_fmtInt _), HentVars.entry, Scientific.integer_fmtInt,
    Int.toNat_natCast]

/-- What the pattern takes for the attributes of a hash entry. -/
def hentAttr (h : HashEntry) : Label :=
  attrText (hentAttrs h []).dropLast ++ attrField ("count".toList, fmtInt h.count ++ ['"'])

theorem hentText_eq (h : HashEntry) :
    hentText h = "<hent ".toList ++ printed [(hentAttr h, " >".toList), (h.times.1, " ".toList),
      (h.times.2.1, " ".toList), (h.times.2.2, "</hent>".toList)] ['\n'] := by
  unfold hentText hentAttr hentAttrs attrText attrField printed
  simp [printed]

theorem split_hentAttr {h : HashEntry} (plain : PlainEntry h) :
    (split "\" ".toList (hentAttr h)).map (splitPair "=\"".toList) = hentAttrs h ['"'] := by
  have attrs : ∀ a ∈ (hentAttrs h []).dropLast, PlainText a.1 ∧ PlainText a.2 :=
    fun a mem => plain_hentAttrs plain a (List.mem_of_mem_dropLast mem)
  have none_ : ∀ c : Char, c.isDigit = false ∧ c ≠ '-' → c ≠ '"' → c ∉ fmtInt h.count ++ ['"'] := by
    intro c other quote
    rw [List.mem_append, List.mem_singleton, not_or]
    exact ⟨fmtInt_ne other _, quote⟩
  have name : PlainText "count".toList := by decide
  exact split_attrText_last attrs name (none_ ' ' (by decide) (by decide))
    (none_ '=' (by decide) (by decide))

theorem hentAttr_line {h : HashEntry} (plain : PlainEntry h) : '\n' ∉ hentAttr h := by
  have printed : hentAttr h ++ [' '] = attrText (hentAttrs h []) := by
    simp [hentAttr, hentAttrs, attrText, attrField]
  have line := (attrText_not_mem (plain_hentAttrs plain)).2.2
  rw [← printed, List.mem_append, not_or] at line
  exact line.1

/-- A hash entry is read as it was printed, whatever was read before it. -/
theorem readHent_text {h : HashEntry} (plain : PlainEntry h) (v : HentVars) :
    ∃ v', readHent v (hentText h) = some (v', .record (.hent h)) := by
  rcases plain with ⟨call, total, min, max⟩
  have marked : Marked '\n' ['\n'] [(hentAttr h, " >".toList), (h.times.1, " ".toList),
      (h.times.2.1, " ".toList), (h.times.2.2, "</hent>".toList)] := by
    refine ⟨hentAttr_line ⟨call, total, min, max⟩, ⟨' ', _, rfl, by decide, ?_⟩,
      total.not_mem.2.2.2.2, ⟨' ', _, rfl, by decide, ?_⟩,
      min.not_mem.2.2.2.2, ⟨' ', _, rfl, by decide, ?_⟩,
      max.not_mem.2.2.2.2, ⟨'<', _, rfl, by decide, nofun⟩, trivial⟩
    · simp only [List.forall_mem_cons]
      exact ⟨total.not_mem.2.2.2.1, min.not_mem.2.2.2.1, max.not_mem.2.2.2.1, nofun⟩
    · simp only [List.forall_mem_cons]
      exact ⟨min.not_mem.2.2.2.1, max.not_mem.2.2.2.1, nofun⟩
    · rw [List.forall_mem_singleton]
      exact max.not_mem.2.2.2.1
  have found : leftmost (literal "<hent ".toList (captures '\n'
      [" >".toList, " ".toList, " ".toList, "</hent>".toList])) (hentText h) =
        some [hentAttr h, h.times.1, h.times.2.1, h.times.2.2] :=
    leftmost_printed marked (hentText_eq h) rfl rfl
  refine ⟨(hentAttrs h ['"']).foldl HentVars.set v, ?_⟩
  rw [readHent, found]
  dsimp only
  rw [split_hentAttr ⟨call, total, min, max⟩, set_hentAttrs ⟨call, total, min, max⟩]

/-! ## A line -/

/-- A line of elements with these names. -/
def Tagged (names : List Label) (line : Label) : Prop :=
  ∃ x els, line = x ++ elements '<' els ∧ '<' ∉ x ∧ els.map Prod.fst = names ∧
    ∀ e ∈ els, '<' ∉ e.1 ++ e.2

/-- None of these names can be taken for the other. -/
def Foreign (name : Label) (names : List Label) : Prop := ∀ n ∈ names, Clash name n

instance (name : Label) (names : List Label) : Decidable (Foreign name names) :=
  inferInstanceAs (Decidable (∀ n ∈ names, Clash name n))

section Line

variable {names : List Label} {line : Label}

theorem Tagged.fails {name : Label} {R : Type} {k : Matcher Char R} (tagged : Tagged names line)
    (foreign : Foreign name names) : Fails (literal ('<' :: name) k) line := by
  rcases tagged with ⟨x, els, rfl, before, rfl, inside⟩
  refine fails_append before (fails_elements fun e mem => ⟨inside e mem, ?_⟩)
  exact foreign e.1 (List.mem_map_of_mem mem)

theorem Tagged.region (tagged : Tagged names line)
    (foreign : Foreign "region label=\"".toList names) : readRegion line = none :=
  leftmost_eq_none (tagged.fails foreign)

theorem Tagged.func (tagged : Tagged names line)
    (foreign : Foreign "func name=\"".toList names) : readFunc line = none := by
  unfold readFunc
  erw [leftmost_eq_none (tagged.fails foreign)]

theorem Tagged.counter (tagged : Tagged names line)
    (foreign : Foreign "counter name=\"".toList names) : readCounter line = none := by
  unfold readCounter
  erw [leftmost_eq_none (tagged.fails foreign)]

theorem Tagged.end_ (tagged : Tagged names line) (foreign : Foreign "/region>".toList names) :
    readEnd line = none :=
  leftmost_eq_none (tagged.fails foreign)

theorem Tagged.hent (tagged : Tagged names line) (foreign : Foreign "hent ".toList names)
    (v : HentVars) : readHent v line = none := by
  unfold readHent
  erw [leftmost_eq_none (tagged.fails foreign)]

/-- A line that is none of a task. -/
theorem Tagged.task (tagged : Tagged names line) (foreign : Foreign "task ".toList names) :
    readVersion line = none ∧ readTask line = none := by
  have version : Foreign ("task ".toList ++ "ipm_version=\"".toList) names :=
    fun n mem => (foreign n mem).append _
  unfold readVersion readTask
  refine ⟨tagged.fails version line List.suffix_rfl, ?_⟩
  erw [tagged.fails foreign line List.suffix_rfl]
  rfl

end Line

/-- Lines of text are read as lines of the log. -/
def Shows (texts : List Label) (lines : List LogLine) : Prop :=
  ∀ (dat : Label → Option DataClass) (s : TextState) (p : TableState),
    knownVersion s.iversion = true → Runs.run (TableState.parseLine dat) s.state lines = .ok p →
      ∃ vars, Runs.run (TextState.parseText dat) s texts = .ok { s with vars := vars, state := p }

theorem shows_nil : Shows [] [] := by
  intro dat s p known ran
  cases ran
  exact ⟨s.vars, rfl⟩

theorem Shows.append {texts texts' : List Label} {lines lines' : List LogLine}
    (first : Shows texts lines) (second : Shows texts' lines') :
    Shows (texts ++ texts') (lines ++ lines') := by
  intro dat s p known ran
  rw [Runs.run_append] at ran
  cases middle : Runs.run (TableState.parseLine dat) s.state lines with
  | error stop =>
      rw [middle] at ran
      cases ran
  | ok p₁ =>
      rw [middle] at ran
      rcases first dat s p₁ known middle with ⟨vars₁, ran₁⟩
      rcases second dat { s with vars := vars₁, state := p₁ } p known ran with ⟨vars, ran'⟩
      refine ⟨vars, ?_⟩
      rw [Runs.run_append, ran₁]
      exact ran'

/-- A line that is none of a task is read by the patterns of the regions. -/
theorem Tagged.shows {names : List Label} {line : Label} {lines : List LogLine}
    (tagged : Tagged names line) (foreign : Foreign "task ".toList names)
    (read : ∀ (dat : Label → Option DataClass) (s : TextState),
      Runs.run (TableState.parseLine dat) s.state (s.readLine line) =
        Runs.run (TableState.parseLine dat) s.state lines) : Shows [line] lines := by
  intro dat s p known ran
  rcases tagged.task foreign with ⟨version, task⟩
  refine ⟨((readHent s.vars line).map Prod.fst).getD s.vars, ?_⟩
  have step : s.parseText dat line =
      .ok { s with vars := ((readHent s.vars line).map Prod.fst).getD s.vars, state := p } := by
    unfold TextState.parseText TextState.checkVersion TextState.setTask
    rw [version, task]
    change (if knownVersion s.iversion = true then _ else _) = _
    rw [if_pos known]
    dsimp only
    rw [read, ran]
    rfl
  rw [Runs.run_cons, step]
  rfl

/-- The elements the parser looks for. -/
def readNames : List Label :=
  ["task ".toList, "region label=\"".toList, "func name=\"".toList, "counter name=\"".toList,
    "/region>".toList, "hent ".toList]

/-- A line of other elements. -/
def Apart (line : Label) : Prop :=
  ∃ names, Tagged names line ∧ ∀ name ∈ readNames, Foreign name names

theorem Apart.shows {line : Label} (apart : Apart line) : Shows [line] [] := by
  rcases apart with ⟨names, tagged, foreign⟩
  unfold readNames at foreign
  simp only [List.forall_mem_cons] at foreign
  rcases foreign with ⟨task, region, func, counter, end_, hent, -⟩
  apply tagged.shows task
  intro dat s
  unfold TextState.readLine
  rw [tagged.region region, tagged.func func, tagged.hent hent, tagged.counter counter,
    tagged.end_ end_]
  rfl

theorem shows_func {f : FuncEntry} (name : '\n' ∉ f.name ∧ '<' ∉ f.name)
    (time : PlainText f.time) : Shows [funcText f] [.record (.func f)] := by
  have tagged : Tagged ["func name=\"".toList, "/func>\n".toList] (funcText f) := by
    refine ⟨[], [("func name=\"".toList, f.name ++ ("\" count=\"".toList ++ (fmtInt f.count ++
      ("\" > ".toList ++ (f.time ++ " ".toList))))), ("/func>\n".toList, [])], ?_,
      List.not_mem_nil, rfl, ?_⟩
    · unfold funcText elements
      simp only [List.flatMap_cons, List.flatMap_nil, List.append_assoc, List.cons_append,
        List.nil_append, List.append_nil]
      rfl
    · have count := (plainText_fmtInt f.count).not_mem
      simp only [List.forall_mem_cons, List.mem_append, not_or, name.2, count.2.1,
        time.not_mem.2.1, not_false_eq_true, true_and]
      exact ⟨by decide, by decide, nofun⟩
  apply tagged.shows (by decide)
  intro dat s
  unfold TextState.readLine
  rw [tagged.region (by decide), readFunc_text name.1 time, tagged.hent (by decide),
    tagged.counter (by decide), tagged.end_ (by decide)]
  rfl

theorem shows_counter {c : Label × Int} (name : '\n' ∉ c.1 ∧ '<' ∉ c.1) :
    Shows [counterText c] [.record (.counter c.1 c.2)] := by
  have tagged : Tagged ["counter name=\"".toList, "/counter>\n".toList] (counterText c) := by
    refine ⟨[], [("counter name=\"".toList, c.1 ++ ("\" > ".toList ++ (fmtInt c.2 ++
      " ".toList))), ("/counter>\n".toList, [])], ?_, List.not_mem_nil, rfl, ?_⟩
    · unfold counterText elements
      simp only [List.flatMap_cons, List.flatMap_nil, List.append_assoc, List.cons_append,
        List.nil_append, List.append_nil]
      rfl
    · simp only [List.forall_mem_cons, List.mem_append, not_or, name.2,
        (plainText_fmtInt c.2).not_mem.2.1, not_false_eq_true, true_and]
      exact ⟨by decide, by decide, nofun⟩
  apply tagged.shows (by decide)
  intro dat s
  unfold TextState.readLine
  rw [tagged.region (by decide), tagged.func (by decide), tagged.hent (by decide),
    readCounter_text name.1, tagged.end_ (by decide)]
  rfl

theorem shows_hent {h : HashEntry} (plain : PlainEntry h) :
    Shows [hentText h] [.record (.hent h)] := by
  have attrs := (attrText_not_mem (plain_hentAttrs plain)).1
  rcases plain with ⟨call, total, min, max⟩
  have tagged : Tagged ["hent ".toList, "/hent>\n".toList] (hentText h) := by
    refine ⟨[], [("hent ".toList, attrText (hentAttrs h []) ++ ('>' :: (h.times.1 ++ (' ' ::
      (h.times.2.1 ++ (' ' :: h.times.2.2)))))), ("/hent>\n".toList, [])], ?_,
      List.not_mem_nil, rfl, ?_⟩
    · unfold hentText elements hentAttrs
      simp only [List.flatMap_cons, List.flatMap_nil, List.append_assoc, List.cons_append,
        List.nil_append, List.append_nil]
      rfl
    · rw [List.forall_mem_cons, List.forall_mem_singleton]
      simp only [List.mem_append, List.mem_cons, not_or, attrs, total.not_mem.2.1,
        min.not_mem.2.1, max.not_mem.2.1, not_false_eq_true, true_and, and_true]
      exact ⟨by decide, by decide, nofun⟩
  apply tagged.shows (by decide)
  intro dat s
  rcases readHent_text ⟨call, total, min, max⟩ s.vars with ⟨v', read⟩
  unfold TextState.readLine
  rw [tagged.region (by decide), tagged.func (by decide), read, tagged.counter (by decide),
    tagged.end_ (by decide)]
  rfl

theorem shows_end : Shows ["</region>\n".toList] [.endRegion] := by
  have tagged : Tagged ["/region>\n".toList] "</region>\n".toList :=
    ⟨[], [("/region>\n".toList, [])], rfl, List.not_mem_nil, rfl, by decide⟩
  apply tagged.shows (by decide)
  intro dat s
  have read : readEnd "</region>\n".toList = some .endRegion := rfl
  unfold TextState.readLine
  rw [tagged.region (by decide), tagged.func (by decide), tagged.hent (by decide),
    tagged.counter (by decide), read]
  rfl

theorem apart_element {x n c : Label} (before : '<' ∉ x) (inside : '<' ∉ n ++ c)
    (foreign : ∀ name ∈ readNames, Clash name n) : Apart (x ++ '<' :: (n ++ c)) := by
  refine ⟨[n], ⟨x, [(n, c)], ?_, before, rfl, ?_⟩, ?_⟩
  · unfold elements
    rw [List.flatMap_singleton]
  · rw [List.forall_mem_singleton]
    exact inside
  · intro name mem
    unfold Foreign
    rw [List.forall_mem_singleton]
    exact foreign name mem

theorem shows_apart {lines : List Label} (apart : ∀ line ∈ lines, Apart line) :
    Shows lines [] := by
  induction lines with
  | nil => exact shows_nil
  | cons line lines ih =>
      rw [List.forall_mem_cons] at apart
      exact apart.1.shows.append (ih apart.2)

/-! ## A region -/

theorem regionTag_newline {p attrs : Label} (plain : '"' ∉ p)
    (closed : '>' ∈ attrs.takeWhile (· != '\n')) :
    regionTag (p ++ '"' :: ' ' :: attrs ++ ['\n']) = regionTag (p ++ '"' :: ' ' :: attrs) := by
  have still : '>' ∈ (attrs ++ ['\n']).takeWhile (· != '\n') := by
    rw [List.takeWhile_append]
    split
    · exact List.mem_append_left _ ((List.takeWhile_sublist _).subset closed)
    · exact closed
  rw [regionTag_print plain closed, List.append_assoc]
  exact regionTag_print plain still

/-- The line of the first of these regions. -/
theorem shows_region {r : RegionEntry} (rs : List RegionEntry) (plain : '<' ∉ r.attrs) :
    Shows [regionText (printRegions (r :: rs) ++ '"' :: ' ' :: r.attrs)]
      [.region (printRegions (r :: rs) ++ '"' :: ' ' :: r.attrs)] := by
  have labels : ∀ c, (∀ r' : RegionEntry, c ∉ r'.label) → c ∉ printRegions (r :: rs) := by
    intro c none_
    apply printLabel_plain
    intro row mem
    rcases List.mem_map.mp mem with ⟨r', _, rfl⟩
    exact none_ r'
  have same := regionTag_newline (labels '"' fun r' => r'.plain.1) r.closed
  have bracket : '<' ∉ printRegions (r :: rs) := labels '<' fun r' => r'.plain.2.1
  have inside : '<' ∉ printRegions (r :: rs) ++ '"' :: ' ' :: r.attrs := by
    simp only [List.mem_append, List.mem_cons, not_or, bracket, plain, not_false_eq_true,
      true_and, and_true]
    exact ⟨by decide, by decide⟩
  generalize printRegions (r :: rs) ++ '"' :: ' ' :: r.attrs = text at same inside ⊢
  have unlisted : '<' ∉ "region label=\"".toList ++ (text ++ ['\n']) := by
    rw [List.mem_append, List.mem_append, not_or, not_or]
    exact ⟨by decide, inside, by decide⟩
  have tagged : Tagged ["region label=\"".toList] (regionText text) := by
    refine ⟨[], [("region label=\"".toList, text ++ ['\n'])], ?_, List.not_mem_nil, rfl, ?_⟩
    · unfold elements
      rw [List.flatMap_singleton]
      rfl
    · rw [List.forall_mem_singleton]
      exact unlisted
  have read : readRegion (regionText text) =
      if (regionTag text).isSome then some (.region (text ++ ['\n'])) else none := by
    rw [← same]
    exact leftmost_literal unlisted
  apply tagged.shows (by decide)
  intro dat s
  unfold TextState.readLine
  rw [read, tagged.func (by decide), tagged.hent (by decide), tagged.counter (by decide),
    tagged.end_ (by decide)]
  change Runs.run _ _ ((if _ then _ else _ : Option LogLine).toList ++ []) = _
  rw [List.append_nil]
  cases tag : regionTag text with
  | none =>
      have skipped : s.state.parseLine dat (.region text) = .ok s.state := by
        unfold TableState.parseLine ParseState.parseLine ParseState.filings
        dsimp only
        rw [tag]
        rfl
      rw [Runs.run_cons, skipped]
      rfl
  | some tag' =>
      have read' : s.state.parseLine dat (.region (text ++ ['\n'])) =
          s.state.parseLine dat (.region text) := by
        unfold TableState.parseLine ParseState.parseLine ParseState.filings
        dsimp only
        rw [same]
      change Runs.run _ _ [LogLine.region (text ++ ['\n'])] = _
      rw [Runs.run_cons, Runs.run_cons, read']

/-! ## A task -/

/-- The texts printed of a task have no characters of the format. -/
structure PlainTask (t : TaskLog) (x : TextRest) : Prop where
  rest : ∀ s ∈ [x.cookie, x.stampInit, x.stampFinal, x.username, x.groupname, x.api], PlainText s
  attrs : ∀ r ∈ t.regions, '<' ∉ r.attrs
  gflop : ∀ r ∈ t.regions, PlainText (x.gflop r)
  counters : ∀ r ∈ t.regions, ∀ c ∈ r.counters, '\n' ∉ c.1 ∧ '<' ∉ c.1
  funcs : ∀ r ∈ t.regions, ∀ f ∈ r.funcs, ('\n' ∉ f.name ∧ '<' ∉ f.name) ∧ PlainText f.time
  hash : ∀ h ∈ t.hash, PlainEntry h
  apart : ∀ line ∈ x.before ++ x.after, Apart line

theorem shows_map {α : Type} {print : α → Label} {f : α → LogRecord} {l : List α}
    (each : ∀ a ∈ l, Shows [print a] [.record (f a)]) :
    Shows (l.map print) ((l.map f).map .record) := by
  induction l with
  | nil => exact shows_nil
  | cons a l ih =>
      rw [List.forall_mem_cons] at each
      exact each.1.append (ih each.2)

section Task

variable {t : TaskLog} {x : TextRest} (plain : PlainTask t x)

include plain

theorem shows_hpm {r : RegionEntry} (mem : r ∈ t.regions) : Shows [hpmText x r] [] := by
  have api : PlainText x.api := plain.rest _ (by simp)
  have given : ∀ a ∈ [("api".toList, x.api), ("ncounter".toList, fmtInt x.ncounter),
      ("eventset".toList, fmtInt x.eventset), ("gflop".toList, x.gflop r)],
        PlainText a.1 ∧ PlainText a.2 := by
    simp only [List.forall_mem_cons, plainText_fmtInt, api, plain.gflop r mem, and_true]
    exact ⟨by decide, by decide, by decide, by decide, nofun⟩
  have attrs := attrText_not_mem given
  refine (apart_element (x := [' ']) (n := "hpm ".toList) (by decide) ?_ (by decide)).shows
  rw [List.mem_append, List.mem_append, not_or, not_or]
  exact ⟨by decide, attrs.1, by decide⟩

theorem shows_counters {r : RegionEntry} (mem : r ∈ t.regions) :
    Shows (t.counterLines r)
      ((if t.hpmCanceled then [] else r.counters.map fun c => LogRecord.counter c.1 c.2).map
        .record) := by
  unfold TaskLog.counterLines
  split
  · exact (apart_element (x := "CANCELED".toList) (n := "/hpm>\n".toList) (c := [])
      (by decide) (by decide) (by decide)).shows
  · have end_ := (apart_element (x := []) (n := "/hpm>\n".toList) (c := [])
      (by decide) (by decide) (by decide)).shows
    have all := (shows_map (l := r.counters) (f := fun c => .counter c.1 c.2) fun c mem' =>
      shows_counter (plain.counters r mem c mem')).append end_
    rw [List.append_nil, List.append_nil] at all
    exact all

theorem shows_regions {rs : List RegionEntry} (behind : rs <:+ t.regions) :
    Shows (t.regionLines x rs) (t.writeRegions rs) := by
  induction rs with
  | nil => exact shows_nil
  | cons r rs ih =>
      have mem : r ∈ t.regions := behind.subset List.mem_cons_self
      have funcs := shows_map (l := r.funcs.filter fun f => 0 < f.count) (f := .func)
        fun f mem' =>
          have given := plain.funcs r mem f (List.mem_of_mem_filter mem')
          shows_func given.1 given.2
      have rest := shows_end.append (ih ((List.suffix_cons r rs).trans behind))
      have all := (shows_region rs (plain.attrs r mem)).append ((shows_hpm plain mem).append
        ((shows_counters plain mem).append (funcs.append rest)))
      unfold TaskLog.writeRegions TaskLog.records
      rw [List.map_append, List.append_assoc]
      exact all

theorem shows_hash : Shows (t.hashLines x) (t.entries.map fun h => .record (.hent h)) := by
  unfold TaskLog.hashLines TaskLog.entries
  split
  · have given : ∀ a ∈ [("nlog".toList, fmtInt x.hashNlog), ("nkey".toList, fmtInt x.hashNkey)],
        PlainText a.1 ∧ PlainText a.2 := by
      simp only [List.forall_mem_cons, plainText_fmtInt, and_true]
      exact ⟨by decide, by decide, nofun⟩
    have attrs := attrText_not_mem given
    have inside : '<' ∉ "hash ".toList ++ (attrText [("nlog".toList, fmtInt x.hashNlog),
        ("nkey".toList, fmtInt x.hashNkey)] ++ ">\n".toList) := by
      rw [List.mem_append, List.mem_append, not_or, not_or]
      exact ⟨by decide, attrs.1, by decide⟩
    have start := (apart_element (x := []) (by decide) inside (by decide)).shows
    have end_ := (apart_element (x := []) (n := "/hash>\n".toList) (c := [])
      (by decide) (by decide) (by decide)).shows
    have all := start.append ((shows_map (l := t.hash) (f := .hent) fun h mem =>
      shows_hent (plain.hash h mem)).append end_)
    rw [List.append_nil, List.append_nil, List.map_map] at all
    exact all
  · exact shows_nil

/-- The lines of a task behind its first one. -/
theorem shows_task : ∃ texts lines, t.text x = taskText x t.mpiRank :: texts ∧
    t.write = .task t.mpiRank :: lines ∧ Shows texts lines := by
  have inside : '<' ∉ "regions n=\"".toList ++ (fmtInt t.regions.length ++ "\" >\n".toList) := by
    rw [List.mem_append, List.mem_append, not_or, not_or]
    exact ⟨by decide, (plainText_fmtInt _).not_mem.2.1, by decide⟩
  have start := (apart_element (x := []) (by decide) inside (by decide)).shows
  have end_ := (apart_element (x := []) (n := "/regions>\n".toList) (c := [])
    (by decide) (by decide) (by decide)).shows
  have others := plain.apart
  rw [List.forall_mem_append] at others
  have all := (shows_apart others.1).append (start.append ((shows_regions plain
    List.suffix_rfl).append (end_.append ((shows_hash plain).append (shows_apart others.2)))))
  rw [List.append_nil, List.append_nil] at all
  exact ⟨_, _, rfl, rfl, all⟩

end Task

/-! ## A job -/

/-- A version the pattern of the task line takes. -/
def Version (v : Label) : Prop := v ≠ [] ∧ ∀ c ∈ v, (c.isDigit || c == '.') = true

theorem sameVersion_self (v : Label) : sameVersion v v = true := by
  unfold sameVersion
  rw [beq_self_eq_true, Bool.true_and]
  induction v with
  | nil => rfl
  | cons c v ih =>
      rw [List.zip_cons_cons, List.all_cons, ih, beq_self_eq_true, Bool.or_true]
      rfl

section TaskLine

variable {t : TaskLog} {x : TextRest} (version : Version x.ipmVersion) (rank : Nat)

/-- The attributes of a task. -/
def taskAttrs (x : TextRest) (mpiRank : Nat) : List (Label × Label) :=
  [("ipm_version".toList, x.ipmVersion), ("cookie".toList, x.cookie),
    ("mpi_rank".toList, fmtInt mpiRank), ("mpi_size".toList, fmtInt x.mpiSize),
    ("stamp_init".toList, x.stampInit), ("stamp_final".toList, x.stampFinal),
    ("username".toList, x.username), ("groupname".toList, x.groupname),
    ("flags".toList, fmtInt x.flags), ("pid".toList, fmtInt x.pid)]

include version

theorem readVersion_text : readVersion (taskText x rank) = some x.ipmVersion := by
  have run : ∀ rest : Label, (x.ipmVersion ++ '"' :: rest).takeWhile
      (fun c => c.isDigit || c == '.') = x.ipmVersion ∧
      (x.ipmVersion ++ '"' :: rest).dropWhile (fun c => c.isDigit || c == '.') = '"' :: rest := by
    intro rest
    rw [List.takeWhile_append_of_pos version.2, List.dropWhile_append_of_pos version.2]
    exact ⟨List.append_nil _, rfl⟩
  have line : ∃ rest, taskText x rank =
      "<task ipm_version=\"".toList ++ (x.ipmVersion ++ '"' :: ' ' :: rest) := by
    refine ⟨attrText (taskAttrs x rank).tail ++ ">\n".toList, ?_⟩
    unfold taskText attrText taskAttrs
    simp only [List.flatMap_cons, List.append_assoc, List.tail_cons]
    rfl
  rcases line with ⟨rest, line⟩
  unfold readVersion
  rw [line, literal_append]
  dsimp only
  rw [(run _).1, (run _).2, if_pos]
  exact ⟨version.1, rest, rfl⟩

theorem plain_taskAttrs (plain : PlainTask t x) :
    ∀ a ∈ taskAttrs x rank, PlainText a.1 ∧ PlainText a.2 := by
  have plainVersion : PlainText x.ipmVersion := by
    intro c mem
    have digits := version.2 c mem
    refine ⟨?_, ?_, ?_, ?_, ?_⟩ <;> (rintro rfl; exact absurd digits (by decide))
  have rest := plain.rest
  simp only [List.forall_mem_cons] at rest
  unfold taskAttrs
  simp only [List.forall_mem_cons, plainText_fmtInt, plainVersion, rest, and_true]
  exact ⟨by decide, by decide, by decide, by decide, by decide, by decide, by decide,
    by decide, by decide, by decide, nofun⟩

theorem readTask_text (plain : PlainTask t x) :
    readTask (taskText x rank) = some (taskAttrs x rank) := by
  have attrs := plain_taskAttrs version rank plain
  have caps : literal "<task ".toList (captures '\n' [">".toList]) (taskText x rank) =
      some [attrText (taskAttrs x rank)] := by
    have marked : Marked '\n' ['\n'] [(attrText (taskAttrs x rank), ">".toList)] :=
      ⟨(attrText_not_mem attrs).2.2, ⟨'>', _, rfl, by decide, nofun⟩, trivial⟩
    have line : taskText x rank =
        "<task ".toList ++ printed [(attrText (taskAttrs x rank), ">".toList)] ['\n'] := rfl
    rw [line, literal_append]
    exact captures_printed marked
  unfold readTask
  rw [caps]
  exact congrArg some (split_attrText attrs)

theorem tagged_task (plain : PlainTask t x) : Tagged ["task ".toList] (taskText x rank) := by
  have attrs := (attrText_not_mem (plain_taskAttrs version rank plain)).1
  refine ⟨[], [("task ".toList, attrText (taskAttrs x rank) ++ ">\n".toList)], ?_,
    List.not_mem_nil, rfl, ?_⟩
  · unfold elements
    rw [List.flatMap_singleton]
    rfl
  · rw [List.forall_mem_singleton, List.mem_append, List.mem_append, not_or, not_or]
    exact ⟨show '<' ∉ "task ".toList by decide, attrs, by decide⟩

end TaskLine

theorem rank_taskAttrs (x : TextRest) (rank old : Nat) :
    (taskAttrs x rank).foldl (fun r kv =>
      if kv.1 = "mpi_rank".toList then (integer kv.2).toNat else r) old = rank := by
  have last : (taskAttrs x rank).foldl (fun r kv =>
      if kv.1 = "mpi_rank".toList then (integer kv.2).toNat else r) old =
        (integer (fmtInt rank)).toNat := rfl
  rw [last, Scientific.integer_fmtInt, Int.toNat_natCast]

/-- The parser behind the line of a task. -/
def TextState.ofTask (s : TextState) (x : TextRest) (rank : Nat) : TextState :=
  { s with
    iversion := x.ipmVersion
    globalVersion := some x.ipmVersion
    state := { s.state with parse := { s.state.parse with regionIndex := 0, mpiRank := rank } } }

/-- The line of a task says whose lines come behind it. -/
theorem parseText_task (dat : Label → Option DataClass) {t : TaskLog} {x : TextRest}
    (plain : PlainTask t x) (version : Version x.ipmVersion)
    (known : knownVersion x.ipmVersion = true) {s : TextState}
    (one : s.globalVersion.getD x.ipmVersion = x.ipmVersion) :
    s.parseText dat (taskText x t.mpiRank) = .ok (s.ofTask x t.mpiRank) := by
  have read := readTask_text version t.mpiRank plain
  have tagged := tagged_task version t.mpiRank plain
  have none_ : ∀ s : TextState, s.readLine (taskText x t.mpiRank) = [] ∧
      readHent s.vars (taskText x t.mpiRank) = none := by
    intro s
    refine ⟨?_, tagged.hent (by decide) _⟩
    unfold TextState.readLine
    rw [tagged.region (by decide), tagged.func (by decide), tagged.hent (by decide),
      tagged.counter (by decide), tagged.end_ (by decide)]
    rfl
  unfold TextState.parseText TextState.checkVersion
  rw [readVersion_text version]
  dsimp only
  rw [one, sameVersion_self, if_pos rfl]
  change (if knownVersion x.ipmVersion = true then _ else _) = _
  rw [if_pos known]
  unfold TextState.setTask
  rw [read]
  dsimp only
  rw [rank_taskAttrs, (none_ _).1, (none_ _).2]
  rfl

/-- The lines of a task. -/
theorem run_taskText {dat : Label → Option DataClass} {t : TaskLog} {x : TextRest}
    (plain : PlainTask t x) (version : Version x.ipmVersion)
    (known : knownVersion x.ipmVersion = true) {s : TextState} {p : TableState}
    (one : s.globalVersion.getD x.ipmVersion = x.ipmVersion)
    (ran : Runs.run (TableState.parseLine dat) s.state t.write = .ok p) :
    ∃ s', Runs.run (TextState.parseText dat) s (t.text x) = .ok s' ∧ s'.state = p ∧
      s'.globalVersion = some x.ipmVersion := by
  rcases shows_task plain with ⟨texts, lines, text, write, shows_⟩
  rw [write, Runs.run_cons] at ran
  rcases shows_ dat (s.ofTask x t.mpiRank) p known ran with ⟨vars, ran'⟩
  rw [text, Runs.run_cons, parseText_task dat plain version known one]
  exact ⟨_, ran', rfl, rfl⟩

/-- The lines of some tasks of one version. -/
theorem run_tasksText {dat : Label → Option DataClass} {x : Nat → TextRest} {v : Label}
    (version : Version v) (known : knownVersion v = true) {ts : List TaskLog}
    (plain : ∀ t ∈ ts, PlainTask t (x t.mpiRank) ∧ (x t.mpiRank).ipmVersion = v)
    {s : TextState} {p : TableState} (one : s.globalVersion.getD v = v)
    (ran : Runs.run (TableState.parseLine dat) s.state (ts.flatMap TaskLog.write) = .ok p) :
    ∃ s', Runs.run (TextState.parseText dat) s (ts.flatMap fun t => t.text (x t.mpiRank)) =
      .ok s' ∧ s'.state = p := by
  induction ts generalizing s with
  | nil =>
      cases ran
      exact ⟨s, rfl, rfl⟩
  | cons t ts ih =>
      rw [List.forall_mem_cons] at plain
      rcases plain with ⟨⟨first, same⟩, others⟩
      rw [List.flatMap_cons] at ran
      rcases Runs.run_append_eq_ok ran with ⟨p₁, middle, rest⟩
      rcases run_taskText first (same ▸ version) (same ▸ known) (same ▸ one) middle with
        ⟨s₁, ran₁, rfl, global⟩
      rw [List.flatMap_cons, Runs.run_append, ran₁]
      exact ih others (by rw [global, same]; rfl) rest

/-- The text of a job is read as its log, with the tables filled on the way. -/
theorem run_jobText (dat : Label → Option DataClass) {job : JobLog} {x : Nat → TextRest}
    {v : Label} (version : Version v) (known : knownVersion v = true)
    (plain : ∀ t ∈ job.tasks, PlainTask t (x t.mpiRank) ∧ (x t.mpiRank).ipmVersion = v) :
    ∃ s, Runs.run (TextState.parseText dat) textInit
        (job.tasks.flatMap fun t => t.text (x t.mpiRank)) = .ok s ∧
      readLog job.write = .ok s.state.parse.filed ∧
      s.state.tables =
        (runFilings parseInit job.write).foldl (JobTables.file dat) TableState.init.tables := by
  rcases readLog_eq job with ⟨filed, read, -⟩
  rw [readLog] at read ⊢
  cases ran : Runs.run ParseState.parseLine parseInit job.write with
  | error stop =>
      rw [ran] at read
      cases read
  | ok p =>
      rcases run_tasksText version known plain (s := textInit) rfl
        (run_fill dat (s := .init) ran) with ⟨s, ran', state⟩
      refine ⟨s, ran', ?_, ?_⟩
      · rw [state]
        rfl
      · rw [state]
        rfl

/-- **The text of a job is read as its log**: the parser does not stop in it, and it files the
records of the tasks under their regions exactly when each task is read back. -/
theorem parseText_job (dat : Label → Option DataClass) {job : JobLog} {x : Nat → TextRest}
    {v : Label} (version : Version v) (known : knownVersion v = true)
    (plain : ∀ t ∈ job.tasks, PlainTask t (x t.mpiRank) ∧ (x t.mpiRank).ipmVersion = v) :
    ∃ s, Runs.run (TextState.parseText dat) textInit
        (job.tasks.flatMap fun t => t.text (x t.mpiRank)) = .ok s ∧
      (s.state.parse.filed = job.tasks.flatMap TaskLog.given ↔
        ∀ pre t post, job.tasks = pre ++ t :: post → ReadBack pre t) := by
  rcases run_jobText dat version known plain with ⟨s, ran, filed, _⟩
  rcases readLog_eq job with ⟨filed', read, right⟩
  rw [filed, Except.ok.injEq] at read
  subst read
  exact ⟨s, ran, right⟩

/-- What the tasks of `twoOrders` print beside their regions. -/
def smallRest : TextRest where
  ipmVersion := "0.983".toList
  cookie := "unknown".toList
  mpiSize := 2
  stampInit := "1.0".toList
  stampFinal := "2.0".toList
  username := "u".toList
  groupname := "g".toList
  flags := 0
  pid := 7
  api := "DISABLED".toList
  ncounter := 8
  eventset := 0
  gflop := fun _ => "0.0000e+00".toList
  hashNlog := 1
  hashNkey := 1
  before := ["<env>A=b</env>\n".toList]
  after := ["</task>\n".toList]

theorem smallRest_apart : ∀ line ∈ smallRest.before ++ smallRest.after, Apart line := by
  have before : Apart "<env>A=b</env>\n".toList :=
    ⟨["env>".toList, "/env>\n".toList],
      ⟨[], [("env>".toList, "A=b".toList), ("/env>\n".toList, [])], rfl, List.not_mem_nil, rfl,
        by decide⟩, by decide⟩
  have after : Apart "</task>\n".toList :=
    ⟨["/task>\n".toList], ⟨[], [("/task>\n".toList, [])], rfl, List.not_mem_nil, rfl, by decide⟩,
      by decide⟩
  change ∀ line ∈ [_, _], Apart line
  rw [List.forall_mem_cons, List.forall_mem_singleton]
  exact ⟨before, after⟩

theorem smallRest_version :
    Version smallRest.ipmVersion ∧ knownVersion smallRest.ipmVersion = true :=
  ⟨⟨by decide, List.all_eq_true.mp (by decide)⟩, by decide⟩

/-- The hash entry of the second task is filed under another region than its own. -/
theorem parseText_twoOrders :
    ∃ s, Runs.run (TextState.parseText sendDat) textInit
        (twoOrders.tasks.flatMap fun t => t.text smallRest) = .ok s ∧
      (s.state.parse.filed = twoOrders.tasks.flatMap TaskLog.given ↔
        ∀ pre t post, twoOrders.tasks = pre ++ t :: post → ReadBack pre t) := by
  have gflop : PlainText "0.0000e+00".toList := by decide
  have plain : ∀ t ∈ twoOrders.tasks,
      PlainTask t smallRest ∧ smallRest.ipmVersion = smallRest.ipmVersion := by
    change ∀ t ∈ [_, _], _
    rw [List.forall_mem_cons, List.forall_mem_singleton]
    refine ⟨⟨⟨by decide, by decide, ?_, by decide, by decide, nofun, smallRest_apart⟩, rfl⟩,
      ⟨by decide, by decide, ?_, by decide, by decide, ?_, smallRest_apart⟩, rfl⟩
    · exact fun _ _ => gflop
    · exact fun _ _ => gflop
    · change ∀ h ∈ [sendEntry], PlainEntry h
      rw [List.forall_mem_singleton]
      exact ⟨by decide, by decide, by decide, by decide⟩
  exact parseText_job sendDat (x := fun _ => smallRest) smallRest_version.1 smallRest_version.2
    plain

end Ipm
