import Mathlib.Data.List.Infix
import Ipm.Lib.OpenAddressing
import Ipm.Lib.Runs
import Ipm.Region.State

/-!
# The buckets of `files`

`pfile` (`src/files.c`) puts every file that passes the filters in the bucket of its type, which
it looks for from the hash of the type on, one bucket after the other.  It gives up at
`ftypes_max-1` collisions, before it has looked at the last bucket.

* `searchLoop_ok`, `searchLoop_full`, `searchLoop_hangs`: how a search ends.
* `Placing.Ok.step`: every type stays where the search finds it.
* `searchRight_iff`: a search does what it should unless the bucket it needs is the last one.
* `buckets_iff`: so for every run.
-/

namespace Ipm

open OpenAddressing

/-! ## Types -/

/-- `MAXLEN_FTYPE`. -/
def maxlenFtype : Nat := 80

/-- `MAXLEN_FNAME`. -/
def maxlenFname : Nat := 800

/-- `truncate_prefix`. -/
def truncatePrefix : List Label := ["symbolic link".toList, "broken symbolic link".toList]

/-- `truncate_abbriv`. -/
def truncateAbbriv : List Label := ["script text".toList, "ELF 32-bit LSB executable".toList]

/-- `strstr`. -/
def hasPart (s part : Label) : Bool := s.tails.any part.isPrefixOf

/-- `ftype_local` for what `magic_file` says.  Without a comma `strchr` goes on to the end of the
string, which is behind the array when it does not fit. -/
def fileType (ftype : Label) : Option Label :=
  let ftypeLocal := ftype.take maxlenFtype
  if ',' ∈ ftypeLocal ∨ ftype.length < maxlenFtype then
    let ftypeLocal := ftypeLocal.takeWhile (· ≠ ',')
    let ftypeLocal := (truncatePrefix.find? (·.isPrefixOf ftypeLocal)).getD ftypeLocal
    some ((truncateAbbriv.find? (hasPart ftypeLocal)).getD ftypeLocal)
  else none

/-- A `char` as an unsigned integer. -/
def charWord (c : Char) : Nat :=
  if c.toNat < 128 then c.toNat else 2 ^ 32 - 256 + c.toNat % 256

def strhash (s : Label) : Nat :=
  s.foldl (fun sum c => (sum <<< 4) % 2 ^ 32 ^^^ sum >>> 28 ^^^ charWord c) 0

/-! ## Files and buckets -/

/-- A file as `ftw` and `magic_file` describe it. -/
structure VisitedFile where
  fname : Label
  ftype : Label
  uid : Nat
  gid : Nat
  size : Nat
  blocks : Nat
  ctime : Int
  mtime : Int

/-- A least or greatest value and the file it is from. -/
structure Mark (V : Type) where
  value : V
  fname : Label
deriving DecidableEq

/-- `if(new < old)`. -/
def Mark.lower {V : Type} [LinearOrder V] (new old : Mark V) : Mark V :=
  if new.value < old.value then new else old

/-- `if(new > old)`. -/
def Mark.higher {V : Type} [LinearOrder V] (new old : Mark V) : Mark V :=
  if old.value < new.value then new else old

/-- `ftype_ent`. -/
structure FtypeEnt where
  desc : Label
  nfile : Nat
  nbyte : Nat
  nblock : Nat
  cageMin : Mark Int
  cageMax : Mark Int
  mageMin : Mark Int
  mageMax : Mark Int
  byteMin : Mark Nat
  byteMax : Mark Nat
  blockMin : Mark Nat
  blockMax : Mark Nat
deriving DecidableEq

/-- `CLEAR_FTYPE`. -/
def FtypeEnt.clear : FtypeEnt where
  desc := []
  nfile := 0
  nbyte := 0
  nblock := 0
  cageMin := ⟨0, []⟩
  cageMax := ⟨0, []⟩
  mageMin := ⟨0, []⟩
  mageMax := ⟨0, []⟩
  byteMin := ⟨0, []⟩
  byteMax := ⟨0, []⟩
  blockMin := ⟨0, []⟩
  blockMax := ⟨0, []⟩

/-- An `unsigned long long`. -/
def toULL (n : Nat) : Nat := n % 2 ^ 64

/-- A value of a file with its name. -/
def VisitedFile.mark {V : Type} (f : VisitedFile) (value : V) : Mark V :=
  ⟨value, f.fname.take maxlenFname⟩

/-- The first file of a bucket; the names at the blocks are not set. -/
def FtypeEnt.first (e : FtypeEnt) (ftypeLocal : Label) (f : VisitedFile) : FtypeEnt where
  desc := ftypeLocal
  nfile := 1
  nbyte := toULL f.size
  nblock := toULL f.blocks
  cageMin := f.mark f.ctime
  cageMax := f.mark f.ctime
  mageMin := f.mark f.mtime
  mageMax := f.mark f.mtime
  byteMin := f.mark f.size
  byteMax := f.mark f.size
  blockMin := ⟨f.blocks, e.blockMin.fname⟩
  blockMax := ⟨f.blocks, e.blockMax.fname⟩

/-- Another file of a bucket. -/
def FtypeEnt.next (e : FtypeEnt) (f : VisitedFile) : FtypeEnt where
  desc := e.desc
  nfile := e.nfile + 1
  nbyte := toULL (e.nbyte + f.size)
  nblock := toULL (e.nblock + f.blocks)
  cageMin := (f.mark f.ctime).lower e.cageMin
  cageMax := (f.mark f.ctime).higher e.cageMax
  mageMin := (f.mark f.mtime).lower e.mageMin
  mageMax := (f.mark f.mtime).higher e.mageMax
  byteMin := (f.mark f.size).lower e.byteMin
  byteMax := (f.mark f.size).higher e.byteMax
  blockMin := (f.mark f.blocks).lower e.blockMin
  blockMax := (f.mark f.blocks).higher e.blockMax

def FtypeEnt.add (e : FtypeEnt) (ftypeLocal : Label) (f : VisitedFile) : FtypeEnt :=
  if e.nfile = 0 then e.first ftypeLocal f else e.next f

/-- The type of the files in a bucket, which is free without any. -/
def FtypeEnt.type (e : FtypeEnt) : Option Label := if e.nfile = 0 then none else some e.desc

/-! ## The search -/

inductive FilesStop
  | pastType
  | tableFull
  | outOfFuel
deriving DecidableEq

/-- The loop that looks for the type or a free bucket. -/
def searchLoop (ftypesMax : Nat) (t : Nat → Option Label) (ftypeLocal : Label) :
    Nat → Nat → Nat → Except FilesStop Nat
  | 0, _, _ => .error .outOfFuel
  | fuel + 1, key, collisions =>
      if t key ≠ none ∧ t key ≠ some ftypeLocal then
        let key := if key < ftypesMax - 1 then key + 1 else 0
        if collisions + 1 = ftypesMax - 1 then .error .tableFull
        else searchLoop ftypesMax t ftypeLocal fuel key (collisions + 1)
      else .ok key

/-- The bucket where a search begins. -/
def homeKey (ftypesMax : Nat) (ftypeLocal : Label) : Nat := strhash ftypeLocal % ftypesMax

def search (ftypesMax : Nat) (t : Nat → Option Label) (ftypeLocal : Label) (fuel : Nat) :
    Except FilesStop Nat :=
  searchLoop ftypesMax t ftypeLocal fuel (homeKey ftypesMax ftypeLocal) 0

/-- The types in the buckets, `ftype_last` and `key_last`. -/
structure Placing where
  t : Nat → Option Label
  ftypeLast : Label
  keyLast : Nat

def Placing.init : Placing := ⟨fun _ => none, "NULL".toList, 0⟩

/-- The bucket for a type.  A search that ends has looked at no more than `ftypes_max` buckets. -/
def Placing.findKey (ftypesMax : Nat) (p : Placing) (ftypeLocal : Label) : Except FilesStop Nat :=
  if ftypeLocal = p.ftypeLast then .ok p.keyLast
  else search ftypesMax p.t ftypeLocal ftypesMax

/-- A file of the type is in the bucket. -/
def Placing.put (p : Placing) (key : Nat) (ftypeLocal : Label) : Placing :=
  ⟨Function.update p.t key (some ((p.t key).getD ftypeLocal)), ftypeLocal, key⟩

/-! ## `pfile` -/

/-- `ftypes_max` and the filters. -/
structure FilesSetup where
  ftypesMax : Nat
  pos : 0 < ftypesMax
  justCore : Bool
  uidSelect : Option (List Nat)
  gidSelect : Option (List Nat)

def FilesSetup.passes (env : FilesSetup) (f : VisitedFile) : Bool :=
  !env.justCore && env.uidSelect.all (·.contains f.uid) && env.gidSelect.all (·.contains f.gid)

structure FilesState where
  t : Nat → FtypeEnt
  ftypeLast : Label
  keyLast : Nat

def FilesState.init : FilesState := ⟨fun _ => .clear, "NULL".toList, 0⟩

def FilesState.placing (s : FilesState) : Placing :=
  ⟨fun key => (s.t key).type, s.ftypeLast, s.keyLast⟩

def pfile (env : FilesSetup) (s : FilesState) (f : VisitedFile) : Except FilesStop FilesState :=
  if env.passes f then
    match fileType f.ftype with
    | none => .error .pastType
    | some ftypeLocal => do
        let key ← s.placing.findKey env.ftypesMax ftypeLocal
        .ok ⟨Function.update s.t key ((s.t key).add ftypeLocal f), ftypeLocal, key⟩
  else .ok s

/-! ## What is asked of a search -/

/-- Some bucket has the type. -/
def HasType (ftypesMax : Nat) (t : Nat → Option Label) (type : Label) : Prop :=
  ∃ key < ftypesMax, t key = some type

/-- A search ends, in the bucket of the type or, if it has none, in a free one; it says that the
table is full exactly when it is; and `ftype_last` saves no search that would end elsewhere. -/
structure SearchRight (ftypesMax : Nat) (p : Placing) (type : Label) : Prop where
  terminates : ∃ fuel, search ftypesMax p.t type fuel ≠ .error .outOfFuel
  found : ∀ fuel key, search ftypesMax p.t type fuel = .ok key → key < ftypesMax ∧
    (HasType ftypesMax p.t type → p.t key = some type) ∧
    (¬ HasType ftypesMax p.t type → p.t key = none)
  full : (∃ fuel, search ftypesMax p.t type fuel = .error .tableFull) ↔
    ¬ HasType ftypesMax p.t type ∧ ∀ key < ftypesMax, p.t key ≠ none
  shortcut : type = p.ftypeLast → ∃ fuel, search ftypesMax p.t type fuel = .ok p.keyLast

/-- No type has two buckets. -/
def OneBucket (ftypesMax : Nat) (t : Nat → Option Label) : Prop :=
  ∀ i < ftypesMax, ∀ j < ftypesMax, t i ≠ none → t i = t j → i = j

/-- Every file that passes the filters is looked for as it should be, and every table on the way
has one bucket for a type. -/
def BucketsRight (env : FilesSetup) (files : List VisitedFile) : Prop :=
  (∀ s, Runs.Reached (pfile env) .init files s → OneBucket env.ftypesMax s.placing.t) ∧
    ∀ s f, Runs.Visit (pfile env) .init files s f → env.passes f = true →
      ∃ type, fileType f.ftype = some type ∧ SearchRight env.ftypesMax s.placing type

/-- The bucket after some collisions. -/
def probeKey (ftypesMax : Nat) (type : Option Label) (collisions : Nat) : Nat :=
  doubleHash ftypesMax (homeKey ftypesMax (type.getD [])) 1 collisions

/-- The buckets that a search looks at: all but the last one. -/
def Probed (ftypesMax collisions : Nat) : Prop := collisions = 0 ∨ collisions + 1 < ftypesMax

/-- The type has a bucket, or one that is looked at is free, or none is free in a table of two or
more; and a first file of the type "NULL" belongs in the first bucket. -/
structure SearchFits (ftypesMax : Nat) (p : Placing) (type : Label) : Prop where
  room : HasType ftypesMax p.t type ∨
    (∃ c, Probed ftypesMax c ∧ p.t (probeKey ftypesMax (some type) c) = none) ∨
    2 ≤ ftypesMax ∧ ∀ key < ftypesMax, p.t key ≠ none
  first : (∀ key, p.t key = none) → type = p.ftypeLast → homeKey ftypesMax type = p.keyLast

def BucketsFit (env : FilesSetup) (files : List VisitedFile) : Prop :=
  ∀ s f, Runs.Visit (pfile env) .init files s f → env.passes f = true →
    ∃ type, fileType f.ftype = some type ∧ SearchFits env.ftypesMax s.placing type

/-! ## How a search ends -/

section Search

variable {ftypesMax : Nat} {t : Nat → Option Label} {type : Label} {n : Nat}

/-- The table as the search for it goes through. -/
abbrev CrowdedKeys (ftypesMax : Nat) (t : Nat → Option Label) (type : Label) (n : Nat) : Prop :=
  Crowded (probeKey ftypesMax) none t (some type) n

theorem probeKey_lt (pos : 0 < ftypesMax) (type : Option Label) (c : Nat) :
    probeKey ftypesMax type c < ftypesMax := Nat.mod_lt _ pos

theorem probeKey_zero (ftypesMax : Nat) (type : Label) :
    probeKey ftypesMax (some type) 0 = homeKey ftypesMax type := by
  unfold probeKey doubleHash homeKey
  simp

/-- The next key. -/
theorem probeKey_succ (pos : 0 < ftypesMax) (type : Option Label) (c : Nat) :
    (if probeKey ftypesMax type c < ftypesMax - 1 then probeKey ftypesMax type c + 1 else 0) =
      probeKey ftypesMax type (c + 1) := by
  unfold probeKey doubleHash
  generalize homeKey ftypesMax (type.getD []) = home
  rw [Nat.mul_one, Nat.mul_one, ← Nat.add_assoc]
  have below := Nat.mod_lt (home + c) pos
  have next := Nat.mod_add_mod (home + c) ftypesMax 1
  rw [← next]
  split_ifs with inner
  · exact (Nat.mod_eq_of_lt (by omega)).symm
  · have last : (home + c) % ftypesMax = ftypesMax - 1 := by omega
    rw [last, Nat.sub_add_cancel pos, Nat.mod_self]

/-- One bucket more that holds another type. -/
theorem searchLoop_crowded (pos : 0 < ftypesMax) {c : Nat}
    (full : t (probeKey ftypesMax (some type) c) ≠ none)
    (other : t (probeKey ftypesMax (some type) c) ≠ some type) (fuel : Nat) :
    searchLoop ftypesMax t type (fuel + 1) (probeKey ftypesMax (some type) c) c =
      if c + 1 = ftypesMax - 1 then .error .tableFull
      else searchLoop ftypesMax t type fuel (probeKey ftypesMax (some type) (c + 1)) (c + 1) := by
  rw [searchLoop, if_pos ⟨full, other⟩, probeKey_succ pos]

/-- A search that is not given up ends at the first bucket that is free or has the type. -/
theorem search_ok (pos : 0 < ftypesMax) (probed : Probed ftypesMax n)
    (crowded : CrowdedKeys ftypesMax t type n)
    (stops : t (probeKey ftypesMax (some type) n) = none ∨
      t (probeKey ftypesMax (some type) n) = some type) (fuel : Nat) :
    search ftypesMax t type fuel =
      if fuel ≤ n then .error .outOfFuel else .ok (probeKey ftypesMax (some type) n) := by
  have loop : ∀ fuel c, c ≤ n →
      searchLoop ftypesMax t type fuel (probeKey ftypesMax (some type) c) c =
        if fuel ≤ n - c then .error .outOfFuel else .ok (probeKey ftypesMax (some type) n) := by
    intro fuel
    induction fuel with
    | zero =>
        intro c _
        rw [if_pos (Nat.zero_le _)]
        rfl
    | succ fuel ih =>
        intro c le
        rcases Nat.lt_or_eq_of_le le with before | same
        · have goesOn : c + 1 ≠ ftypesMax - 1 := by
            rcases probed with zero | below <;> omega
          rw [searchLoop_crowded pos (crowded c before).1 (crowded c before).2, if_neg goesOn,
            ih (c + 1) before]
          congr 1
          rw [eq_iff_iff]
          omega
        · subst same
          rw [searchLoop, if_neg, if_neg (by omega)]
          intro both
          rcases stops with free | here
          · exact both.1 free
          · exact both.2 here
  have start := loop fuel 0 (Nat.zero_le n)
  rw [probeKey_zero] at start
  exact start

/-- It gives up when all buckets but the last one hold other types. -/
theorem search_full (two : 2 ≤ ftypesMax) (crowded : CrowdedKeys ftypesMax t type (ftypesMax - 1))
    (fuel : Nat) : search ftypesMax t type fuel =
      if fuel < ftypesMax - 1 then .error .outOfFuel else .error .tableFull := by
  have loop : ∀ fuel c, c < ftypesMax - 1 →
      searchLoop ftypesMax t type fuel (probeKey ftypesMax (some type) c) c =
        if fuel < ftypesMax - 1 - c then .error .outOfFuel else .error .tableFull := by
    intro fuel
    induction fuel with
    | zero =>
        intro c below
        rw [if_pos (by omega)]
        rfl
    | succ fuel ih =>
        intro c below
        rw [searchLoop_crowded (by omega) (crowded c below).1 (crowded c below).2]
        split_ifs with last short long
        · omega
        · rfl
        · rw [ih (c + 1) (by omega), if_pos (by omega)]
        · rw [ih (c + 1) (by omega), if_neg (by omega)]
  have start := loop fuel 0 (by omega)
  rw [probeKey_zero] at start
  exact start

/-- In a table of one bucket that holds another type it goes on for ever. -/
theorem search_hangs (crowded : CrowdedKeys 1 t type 1) (fuel : Nat) :
    search 1 t type fuel = .error .outOfFuel := by
  have loop : ∀ fuel c, searchLoop 1 t type fuel (probeKey 1 (some type) c) c =
      .error .outOfFuel := by
    intro fuel
    induction fuel with
    | zero => exact fun _ => rfl
    | succ fuel ih =>
        intro c
        have same : probeKey 1 (some type) c = probeKey 1 (some type) 0 := by
          unfold probeKey doubleHash
          rw [Nat.mod_one, Nat.mod_one]
        have met := crowded 0 Nat.one_pos
        rw [← same] at met
        rw [searchLoop_crowded Nat.one_pos met.1 met.2, if_neg (Nat.succ_ne_zero c)]
        exact ih (c + 1)
  have start := loop fuel 0
  rw [probeKey_zero] at start
  exact start

/-- The three ways a search can go. -/
theorem search_cases (pos : 0 < ftypesMax) (t : Nat → Option Label) (type : Label) :
    (∃ n, Probed ftypesMax n ∧ CrowdedKeys ftypesMax t type n ∧
      (t (probeKey ftypesMax (some type) n) = none ∨
        t (probeKey ftypesMax (some type) n) = some type)) ∨
    2 ≤ ftypesMax ∧ CrowdedKeys ftypesMax t type (ftypesMax - 1) ∨
    ftypesMax = 1 ∧ CrowdedKeys 1 t type 1 := by
  rcases Nat.lt_or_ge 1 ftypesMax with two | one
  · rcases crowded_or_exists (probeKey ftypesMax) none t (some type) (ftypesMax - 1) with
      crowded | stops
    · exact Or.inr (Or.inl ⟨two, crowded⟩)
    · rcases stops with ⟨n, below, crowded, stops⟩
      exact Or.inl ⟨n, Or.inr (by omega), crowded, stops⟩
  · have same : ftypesMax = 1 := by omega
    subst same
    rcases crowded_or_exists (probeKey 1) none t (some type) 1 with crowded | stops
    · exact Or.inr (Or.inr ⟨rfl, crowded⟩)
    · rcases stops with ⟨n, below, crowded, stops⟩
      exact Or.inl ⟨n, Or.inl (by omega), crowded, stops⟩

end Search

/-! ## Tables on the way -/

/-- Every type is where a search finds it, and the last one in the last bucket. -/
structure Placing.Ok (ftypesMax : Nat) (p : Placing) : Prop where
  placed : PlacedBy (Probed ftypesMax) (probeKey ftypesMax) none p.t
  last : p.t p.keyLast = some p.ftypeLast ∨ ∀ key, p.t key = none

section Ok

variable {ftypesMax : Nat} {p : Placing} {type : Label}

theorem Placing.Ok.init (ftypesMax : Nat) : Placing.init.Ok ftypesMax where
  placed _ full := absurd rfl full
  last := Or.inr fun _ => rfl

/-- The search meets the type of a bucket. -/
theorem Placing.Ok.met (ok : p.Ok ftypesMax) {key : Nat} (here : p.t key = some type) :
    ∃ n, Probed ftypesMax n ∧ probeKey ftypesMax (some type) n = key ∧
      CrowdedKeys ftypesMax p.t type n := by
  have occupied : p.t key ≠ none := by
    rw [here]
    exact Option.some_ne_none type
  have stored := ok.placed key occupied
  rw [here] at stored
  exact stored

theorem Placing.Ok.lt (ok : p.Ok ftypesMax) (pos : 0 < ftypesMax) {key : Nat}
    (here : p.t key = some type) : key < ftypesMax := by
  rcases ok.met here with ⟨n, -, rfl, -⟩
  exact probeKey_lt pos (some type) n

/-- A search that has passed other types only has not passed that of a bucket. -/
theorem Placing.Ok.le_of_crowded (ok : p.Ok ftypesMax) {n : Nat}
    (crowded : CrowdedKeys ftypesMax p.t type n) (has : HasType ftypesMax p.t type) :
    ∃ m, n ≤ m ∧ Probed ftypesMax m ∧ CrowdedKeys ftypesMax p.t type m ∧
      p.t (probeKey ftypesMax (some type) m) = some type := by
  rcases has with ⟨key, -, here⟩
  rcases ok.met here with ⟨m, probed, rfl, before⟩
  exact ⟨m, crowded.le_of_hit here, probed, before, here⟩

/-- A search that stops does so at the type, if a bucket has it. -/
theorem Placing.Ok.stops (ok : p.Ok ftypesMax) {n : Nat}
    (crowded : CrowdedKeys ftypesMax p.t type n)
    (stops : p.t (probeKey ftypesMax (some type) n) = none ∨
      p.t (probeKey ftypesMax (some type) n) = some type)
    (has : HasType ftypesMax p.t type) :
    p.t (probeKey ftypesMax (some type) n) = some type := by
  rcases ok.le_of_crowded crowded has with ⟨m, le, -, before, here⟩
  rcases Nat.lt_or_eq_of_le le with less | same
  · have met := before n less
    rcases stops with free | found
    · exact absurd free met.1
    · exact absurd found met.2
  · rw [same]
    exact here

/-- A search that fits is not given up too soon. -/
theorem SearchFits.cases (pos : 0 < ftypesMax) (ok : p.Ok ftypesMax)
    (fits : SearchFits ftypesMax p type) :
    (∃ n, Probed ftypesMax n ∧ CrowdedKeys ftypesMax p.t type n ∧
      (p.t (probeKey ftypesMax (some type) n) = none ∨
        p.t (probeKey ftypesMax (some type) n) = some type)) ∨
    2 ≤ ftypesMax ∧ CrowdedKeys ftypesMax p.t type (ftypesMax - 1) ∧
      ¬ HasType ftypesMax p.t type ∧ ∀ key < ftypesMax, p.t key ≠ none := by
  -- what is passed is neither the type nor free
  have passed : ∀ n, (∀ c, Probed ftypesMax c → c < n) → CrowdedKeys ftypesMax p.t type n →
      ¬ HasType ftypesMax p.t type ∧ 2 ≤ ftypesMax ∧ ∀ key < ftypesMax, p.t key ≠ none := by
    intro n all crowded
    have absent : ¬ HasType ftypesMax p.t type := by
      intro has
      rcases ok.le_of_crowded crowded has with ⟨m, le, probed, -, -⟩
      exact absurd (all m probed) (Nat.not_lt.mpr le)
    refine ⟨absent, ?_⟩
    rcases fits.room with has | free | full
    · exact absurd has absent
    · rcases free with ⟨c, probed, free⟩
      exact absurd free (crowded c (all c probed)).1
    · exact full
  rcases search_cases pos p.t type with stops | ⟨two, crowded⟩ | ⟨one, crowded⟩
  · exact Or.inl stops
  · rcases passed _ (fun c probed => by rcases probed with zero | below <;> omega) crowded with
      ⟨absent, -, full⟩
    exact Or.inr ⟨two, crowded, absent, full⟩
  · subst one
    rcases passed 1 (fun c probed => by rcases probed with zero | below <;> omega) crowded with
      ⟨-, two, -⟩
    omega

/-- In an empty table a search ends where it begins. -/
theorem search_empty (pos : 0 < ftypesMax) (empty : ∀ key, p.t key = none) :
    search ftypesMax p.t type 1 = .ok (homeKey ftypesMax type) := by
  rw [← probeKey_zero]
  exact search_ok pos (Or.inl rfl) Crowded.zero (Or.inl (empty _)) 1

theorem SearchRight.fits (pos : 0 < ftypesMax) (right : SearchRight ftypesMax p type) :
    SearchFits ftypesMax p type where
  room := by
    rcases search_cases pos p.t type with ⟨n, probed, -, stops⟩ | ⟨two, crowded⟩ | ⟨one, crowded⟩
    · rcases stops with free | here
      · exact Or.inr (Or.inl ⟨n, probed, free⟩)
      · exact Or.inl ⟨_, probeKey_lt pos _ n, here⟩
    · have given : search ftypesMax p.t type (ftypesMax - 1) = .error .tableFull := by
        rw [search_full two crowded, if_neg (Nat.lt_irrefl _)]
      exact Or.inr (Or.inr ⟨two, (right.full.mp ⟨_, given⟩).2⟩)
    · subst one
      rcases right.terminates with ⟨fuel, ends⟩
      exact absurd (search_hangs crowded fuel) ends
  first := by
    intro empty last
    rcases right.shortcut last with ⟨fuel, ended⟩
    rw [search_ok pos (Or.inl rfl) Crowded.zero (Or.inl (empty _)), probeKey_zero] at ended
    split_ifs at ended
    exact Except.ok.inj ended

/-- A search that stops at the type or a free bucket. -/
theorem Placing.Ok.right_of_stops (pos : 0 < ftypesMax) (ok : p.Ok ftypesMax) {n : Nat}
    (probed : Probed ftypesMax n) (crowded : CrowdedKeys ftypesMax p.t type n)
    (stops : p.t (probeKey ftypesMax (some type) n) = none ∨
      p.t (probeKey ftypesMax (some type) n) = some type)
    (first : (∀ key, p.t key = none) → type = p.ftypeLast →
      homeKey ftypesMax type = p.keyLast) : SearchRight ftypesMax p type := by
  have ends := search_ok pos probed crowded stops
  have ended : search ftypesMax p.t type (n + 1) = .ok (probeKey ftypesMax (some type) n) := by
    rw [ends, if_neg (by omega)]
  refine ⟨⟨n + 1, ?_⟩, fun fuel key found => ?_, ?_, fun last => ?_⟩
  · rw [ended]
    exact fun same => by cases same
  · rw [ends] at found
    split_ifs at found
    cases found
    refine ⟨probeKey_lt pos _ n, ok.stops crowded stops, fun absent => ?_⟩
    exact stops.resolve_right fun here => absent ⟨_, probeKey_lt pos _ n, here⟩
  · refine iff_of_false (fun given => ?_) fun full => ?_
    · rcases given with ⟨fuel, given⟩
      rw [ends] at given
      split_ifs at given
      cases given
    · rcases stops with free | here
      · exact full.2 _ (probeKey_lt pos _ n) free
      · exact full.1 ⟨_, probeKey_lt pos _ n, here⟩
  · rcases ok.last with there | empty
    · rw [← last] at there
      have here := ok.stops crowded stops ⟨_, ok.lt pos there, there⟩
      have occupied : p.t p.keyLast ≠ none := by
        rw [there]
        exact Option.some_ne_none type
      have same := ok.placed.placed.slot_unique occupied (there.trans here.symm)
      exact ⟨n + 1, ended.trans (congrArg Except.ok same.symm)⟩
    · refine ⟨1, ?_⟩
      rw [search_empty pos empty, first empty last]

/-- A search through a full table. -/
theorem Placing.Ok.right_of_full (pos : 0 < ftypesMax) (ok : p.Ok ftypesMax)
    (two : 2 ≤ ftypesMax) (crowded : CrowdedKeys ftypesMax p.t type (ftypesMax - 1))
    (absent : ¬ HasType ftypesMax p.t type) (full : ∀ key < ftypesMax, p.t key ≠ none) :
    SearchRight ftypesMax p type := by
  have ends := search_full two crowded
  have given : search ftypesMax p.t type (ftypesMax - 1) = .error .tableFull := by
    rw [ends, if_neg (Nat.lt_irrefl _)]
  refine ⟨⟨ftypesMax - 1, ?_⟩, fun fuel key found => ?_, ?_, fun last => ?_⟩
  · rw [given]
    exact fun same => by cases same
  · rw [ends] at found
    split_ifs at found
  · exact iff_of_true ⟨_, given⟩ ⟨absent, full⟩
  · rcases ok.last with there | empty
    · rw [← last] at there
      exact absurd ⟨_, ok.lt pos there, there⟩ absent
    · exact absurd (empty 0) (full 0 pos)

/-- A search does what is asked of it exactly when it fits. -/
theorem searchRight_iff (pos : 0 < ftypesMax) (ok : p.Ok ftypesMax) :
    SearchRight ftypesMax p type ↔ SearchFits ftypesMax p type := by
  constructor
  · exact SearchRight.fits pos
  · intro fits
    rcases fits.cases pos ok with ⟨n, probed, crowded, stops⟩ | ⟨two, crowded, absent, full⟩
    · exact ok.right_of_stops pos probed crowded stops fits.first
    · exact ok.right_of_full pos two crowded absent full

/-- A type that is put where it belongs. -/
theorem Placing.Ok.step (pos : 0 < ftypesMax) (ok : p.Ok ftypesMax)
    (fits : SearchFits ftypesMax p type) {key : Nat}
    (found : p.findKey ftypesMax type = .ok key) : (p.put key type).Ok ftypesMax := by
  have kept : p.t key = some type → (p.put key type).Ok ftypesMax := by
    intro here
    have same : (p.put key type).t = p.t := by
      unfold Placing.put
      rw [here, Option.getD_some, ← here, Function.update_eq_self]
    refine ⟨?_, Or.inl ?_⟩
    · rw [same]
      exact ok.placed
    · rw [same]
      exact here
  have placed : ∀ n, Probed ftypesMax n → CrowdedKeys ftypesMax p.t type n →
      probeKey ftypesMax (some type) n = key → p.t key = none →
      (p.put key type).Ok ftypesMax := by
    intro n probed crowded here free
    subst here
    have put : (p.put (probeKey ftypesMax (some type) n) type).t =
        Function.update p.t (probeKey ftypesMax (some type) n) (some type) := by
      unfold Placing.put
      rw [free, Option.getD_none]
    refine ⟨?_, Or.inl ?_⟩
    · rw [put]
      exact ok.placed.insert probed crowded free
    · rw [put]
      exact Function.update_self _ _ _
  unfold Placing.findKey at found
  split_ifs at found with last
  · have here := Except.ok.inj found
    rcases ok.last with there | empty
    · rw [here, ← last] at there
      exact kept there
    · have home := fits.first empty last
      rw [here, ← probeKey_zero] at home
      exact placed 0 (Or.inl rfl) Crowded.zero home (empty key)
  · rcases fits.cases pos ok with ⟨n, probed, crowded, stops⟩ | ⟨two, crowded, -, -⟩
    · rw [search_ok pos probed crowded stops] at found
      split_ifs at found
      have here := Except.ok.inj found
      rw [here] at stops
      rcases stops with free | there
      · exact placed n probed crowded here free
      · exact kept there
    · rw [search_full two crowded] at found
      split_ifs at found

/-- No type has two buckets. -/
theorem Placing.Ok.oneBucket (ok : p.Ok ftypesMax) : OneBucket ftypesMax p.t :=
  fun _ _ _ _ full same => ok.placed.placed.slot_unique full same

end Ok

/-! ## Runs -/

/-- A bucket has a type from its first file on, and keeps it. -/
theorem FtypeEnt.type_add (e : FtypeEnt) (type : Label) (f : VisitedFile) :
    (e.add type f).type = some (e.type.getD type) := by
  unfold FtypeEnt.add FtypeEnt.type
  split_ifs with free filled filled
  · exact absurd filled Nat.one_ne_zero
  · rfl
  · exact absurd filled (Nat.succ_ne_zero _)
  · rfl

/-- What `pfile` does with a file that passes. -/
theorem pfile_eq_ok {env : FilesSetup} {s s' : FilesState} {f : VisitedFile}
    (passes : env.passes f = true) (ok : pfile env s f = .ok s') :
    ∃ type key, fileType f.ftype = some type ∧ s.placing.findKey env.ftypesMax type = .ok key ∧
      s' = ⟨Function.update s.t key ((s.t key).add type f), type, key⟩ := by
  unfold pfile at ok
  rw [if_pos passes] at ok
  cases typed : fileType f.ftype with
  | none =>
      rw [typed] at ok
      cases ok
  | some type =>
      rw [typed] at ok
      rcases Runs.bind_eq_ok ok with ⟨key, found, done⟩
      cases done
      exact ⟨type, key, rfl, found, rfl⟩

/-- The types in the buckets go by themselves. -/
theorem pfile_placing {env : FilesSetup} {s s' : FilesState} {f : VisitedFile}
    (passes : env.passes f = true) (ok : pfile env s f = .ok s') :
    ∃ type key, fileType f.ftype = some type ∧ s.placing.findKey env.ftypesMax type = .ok key ∧
      s'.placing = s.placing.put key type := by
  rcases pfile_eq_ok passes ok with ⟨type, key, typed, found, rfl⟩
  refine ⟨type, key, typed, found, ?_⟩
  unfold FilesState.placing Placing.put
  congr 1
  funext i
  rcases eq_or_ne i key with rfl | other
  · simp only [Function.update_self, FtypeEnt.type_add]
  · simp only [Function.update_of_ne other]

theorem pfile_of_not_passes {env : FilesSetup} {f : VisitedFile} (filtered : env.passes f = false)
    (s : FilesState) : pfile env s f = .ok s := by
  unfold pfile
  rw [filtered, if_neg Bool.false_ne_true]

/-- A file fits the table, or does not pass the filters. -/
def FileFits (env : FilesSetup) (s : FilesState) (f : VisitedFile) : Prop :=
  env.passes f = true →
    ∃ type, fileType f.ftype = some type ∧ SearchFits env.ftypesMax s.placing type

theorem ok_pfile {env : FilesSetup} {s s' : FilesState} {f : VisitedFile}
    (ok : s.placing.Ok env.ftypesMax) (fits : FileFits env s f) (done : pfile env s f = .ok s') :
    s'.placing.Ok env.ftypesMax := by
  cases passes : env.passes f with
  | false =>
      rw [pfile_of_not_passes passes] at done
      cases done
      exact ok
  | true =>
      rcases fits passes with ⟨type, typed, room⟩
      rcases pfile_placing passes done with ⟨type', key, typed', found, placed⟩
      rw [typed] at typed'
      cases typed'
      rw [placed]
      exact ok.step env.pos room found

theorem ok_reached {env : FilesSetup} {files : List VisitedFile} {s : FilesState}
    (fits : ∀ s f, Runs.Visit (pfile env) .init files s f → FileFits env s f)
    (reached : Runs.Reached (pfile env) .init files s) : s.placing.Ok env.ftypesMax :=
  Runs.reached_invariant (I := fun s => s.placing.Ok env.ftypesMax) (Placing.Ok.init env.ftypesMax)
    (fun ok fits done => ok_pfile ok fits done) fits reached

/-- A run looks for every type as it should, and no type has two buckets, exactly when every
file fits the table it meets. -/
theorem buckets_iff (env : FilesSetup) (files : List VisitedFile) :
    BucketsRight env files ↔ BucketsFit env files := by
  constructor
  · intro right s f visit passes
    have fits : ∀ s f, Runs.Visit (pfile env) .init files s f → FileFits env s f := by
      intro s f visit passes
      rcases right.2 s f visit passes with ⟨type, typed, found⟩
      exact ⟨type, typed, found.fits env.pos⟩
    exact fits s f visit passes
  · intro fits
    have ok : ∀ s, Runs.Reached (pfile env) .init files s → s.placing.Ok env.ftypesMax :=
      fun s reached => ok_reached (fun s f visit => fits s f visit) reached
    refine ⟨fun s reached => (ok s reached).oneBucket, fun s f visit passes => ?_⟩
    rcases fits s f visit passes with ⟨type, typed, room⟩
    exact ⟨type, typed, (searchRight_iff env.pos (ok s visit.reached)).mpr room⟩

/-- A table of two buckets, and no filter. -/
def FilesSetup.two : FilesSetup where
  ftypesMax := 2
  pos := Nat.two_pos
  justCore := false
  uidSelect := none
  gidSelect := none

/-- A file of some bytes and blocks. -/
def VisitedFile.sized (ftype : String) (size blocks : Nat) : VisitedFile :=
  ⟨"f".toList, ftype.toList, 0, 0, size, blocks, 0, 0⟩

/-- Two types that the search begins with at the same bucket: the second is refused although the
other bucket is free. -/
theorem bucketsRight_two : ¬ BucketsRight .two [.sized "data" 1 8, .sized "empty" 0 0] := by
  have ran : Runs.run (pfile .two) .init [.sized "data" 1 8] =
      .ok ⟨Function.update FilesState.init.t 1
        (FtypeEnt.clear.add "data".toList (.sized "data" 1 8)), "data".toList, 1⟩ := by
    rfl
  intro right
  rcases right.2 _ (.sized "empty" 0 0) ⟨[.sized "data" 1 8], List.prefix_refl _, ran⟩ rfl with
    ⟨type, typed, found⟩
  have short : fileType "empty".toList = some "empty".toList := by decide
  cases short.symm.trans typed
  have given : search FilesSetup.two.ftypesMax (FilesState.placing ⟨Function.update
      FilesState.init.t 1 (FtypeEnt.clear.add "data".toList (.sized "data" 1 8)),
        "data".toList, 1⟩).t "empty".toList 1 = .error .tableFull := by
    rfl
  exact (found.full.mp ⟨1, given⟩).2 0 Nat.two_pos rfl

end Ipm
