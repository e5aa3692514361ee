import Mathlib.Data.List.TakeWhile
import Mathlib.Data.Rat.Defs
import Mathlib.Tactic.NormNum
import Mathlib.Tactic.Ring

/-!
# Scanning strings

The functions of the C library that programs take strings apart with, on the bytes before
the terminating zero.

* `tokens`: the successive results of `strtok_r` with one delimiter.
* `scanInt`, `scanWord`, `scanNumeral`: the input items of `%d`, `%s` and `%lf` of `sscanf`,
  with the rest of the string; `atoi`.
* `scanInteger`, `scanDecimal`: numbers of any size, without conversion to a machine type.
* `tokens_intercalate`, `scanWord_append`, `scanInteger_append`: what has been written is read
  back.
-/

namespace Scan

/-- `strtok_r` with the delimiter `d`, called until it returns NULL. -/
def tokens (d : Char) (s : List Char) : List (List Char) := (s.splitOn d).filter fun t => !t.isEmpty

/-- `isspace` in the C locale. -/
def isSpace (c : Char) : Bool :=
  c == ' ' || c == '\t' || c == '\n' || c == '\x0b' || c == '\x0c' || c == '\r'

def skipSpace (s : List Char) : List Char := s.dropWhile isSpace

/-! ## Integers and words -/

/-- The value of a string of decimal digits. -/
def digitsVal (s : List Char) : Nat := s.foldl (fun n c => 10 * n + (c.toNat - '0'.toNat)) 0

/-- The digits a string starts with. -/
def scanNat (s : List Char) : Option (Nat × List Char) :=
  let digits := s.takeWhile Char.isDigit
  if digits.isEmpty then none else some (digitsVal digits, s.dropWhile Char.isDigit)

def scanSign : List Char → Int × List Char
  | '-' :: s => (-1, s)
  | '+' :: s => (1, s)
  | s => (1, s)

/-- An integer of any size. -/
def scanInteger (s : List Char) : Option (Int × List Char) :=
  let (sign, s) := scanSign (skipSpace s)
  (scanNat s).map fun (n, rest) => (sign * n, rest)

/-- The integer a string starts with, or 0. -/
def integer (s : List Char) : Int := ((scanInteger s).map Prod.fst).getD 0

/-- `strtol` gives the nearest long, which becomes an int modulo 2 ^ 32. -/
def longToInt (z : Int) : Int := (max (-2 ^ 63) (min z (2 ^ 63 - 1))).bmod (2 ^ 32)

/-- `%d`. -/
def scanInt (s : List Char) : Option (Int × List Char) :=
  (scanInteger s).map fun (z, rest) => (longToInt z, rest)

def atoi (s : List Char) : Int := longToInt (integer s)

/-- `%s`. -/
def scanWord (s : List Char) : Option (List Char × List Char) :=
  let s := skipSpace s
  let word := s.takeWhile fun c => !isSpace c
  if word.isEmpty then none else some (word, s.dropWhile fun c => !isSpace c)

/-! ## Floating-point numbers -/

/-- The digits behind a point, if there is one. -/
def scanFraction (digit : Char → Bool) : List Char → List Char × List Char
  | '.' :: s => (s.takeWhile digit, s.dropWhile digit)
  | s => ([], s)

/-- The digits before and behind the point, at least one, and the rest. -/
def scanMantissa (digit : Char → Bool) (s : List Char) :
    Option (List Char × List Char × List Char) :=
  let whole := s.takeWhile digit
  let (frac, rest) := scanFraction digit (s.dropWhile digit)
  if whole.isEmpty && frac.isEmpty then none else some (whole, frac, rest)

/-- The exponent behind its letter, or 0; a letter with no integer behind it fails. -/
def scanExponent (letter : Char) : List Char → Option (Int × List Char)
  | c :: s =>
      if c.toLower == letter then
        let (sign, digits) := scanSign s
        (scanNat digits).map fun (n, rest) => (sign * n, rest)
      else some (0, c :: s)
  | [] => some (0, [])

/-- The value of decimal digits before and behind the point, with an exponent. -/
def decimalVal (whole frac : List Char) (e : Int) : Rat :=
  (digitsVal (whole ++ frac) : Rat) / 10 ^ frac.length * 10 ^ e

/-- The decimal number a string starts with; an `e` with no integer behind it is not part of
it. -/
def scanDecimal (s : List Char) : Option (Rat × List Char) :=
  let (sign, s) := scanSign (skipSpace s)
  (scanMantissa Char.isDigit s).map fun (whole, frac, rest) =>
    let (e, rest) := (scanExponent 'e' rest).getD (0, rest)
    (sign * decimalVal whole frac e, rest)

/-- A floating-point number as it is written. -/
inductive Numeral
  | decimal (sign : Int) (whole frac : List Char) (exponent : Int)
  | hex (sign : Int) (whole frac : List Char) (exponent : Int)
  | inf (sign : Int)
  | nan
  deriving DecidableEq, Repr

def isHexDigit (c : Char) : Bool := c.isDigit || ('a' ≤ c.toLower && c.toLower ≤ 'f')

/-- How much of a word a string starts with, in upper or lower case. -/
def matched : List Char → List Char → Nat
  | w :: word, c :: s => if c.toLower == w then matched word s + 1 else 0
  | _, _ => 0

/-- The parenthesis behind a NaN, if there is one; it has to be closed. -/
def scanNanRest : List Char → Option (List Char)
  | '(' :: s =>
      match s.dropWhile fun c => c.isAlphanum || c == '_' with
      | ')' :: rest => some rest
      | _ => none
  | s => some s

/-- `%lf`: the longest beginning of a number, if that is a number. -/
def scanNumeral (s : List Char) : Option (Numeral × List Char) :=
  let (sign, s) := scanSign (skipSpace s)
  if matched ['0', 'x'] s = 2 then
    (scanMantissa isHexDigit (s.drop 2)).bind fun (whole, frac, rest) =>
      (scanExponent 'p' rest).map fun (e, rest) => (.hex sign whole frac e, rest)
  else if 0 < matched "infinity".toList s then
    if matched "infinity".toList s = 3 ∨ matched "infinity".toList s = 8 then
      some (.inf sign, s.drop (matched "infinity".toList s))
    else none
  else if 0 < matched "nan".toList s then
    if matched "nan".toList s = 3 then (scanNanRest (s.drop 3)).map fun rest => (.nan, rest)
    else none
  else
    (scanMantissa Char.isDigit s).bind fun (whole, frac, rest) =>
      (scanExponent 'e' rest).map fun (e, rest) => (.decimal sign whole frac e, rest)

/-! ## Tokens -/

/-- A string without the delimiter is its own only token. -/
theorem tokens_of_not_mem {d : Char} {s : List Char} (some : s ≠ []) (none : d ∉ s) :
    tokens d s = [s] := by
  rw [tokens, List.splitOn_eq_singleton none]
  simp [some]

/-- Nonempty strings without the delimiter are the tokens of what they are joined to. -/
theorem tokens_intercalate {d : Char} {ts : List (List Char)}
    (words : ∀ t ∈ ts, t ≠ [] ∧ d ∉ t) : tokens d ([d].intercalate ts) = ts := by
  rcases eq_or_ne ts [] with rfl | some
  · rfl
  · rw [tokens, List.splitOn_intercalate d (fun t mem => (words t mem).2) some]
    refine List.filter_eq_self.2 fun t mem => ?_
    simp [(words t mem).1]

/-! ## Runs of a class -/

/-- The string is at its end, or goes on with no character of the class. -/
def Stops (p : Char → Bool) (r : List Char) : Prop := ∀ c, r.head? = some c → p c = false

@[simp] theorem stops_cons {p : Char → Bool} {c : Char} {r : List Char} :
    Stops p (c :: r) ↔ p c = false := by
  simp [Stops]

theorem takeWhile_of_stops {p : Char → Bool} {r : List Char} (stops : Stops p r) :
    r.takeWhile p = [] := by
  cases r with
  | nil => rfl
  | cons c r =>
      rw [List.takeWhile_cons, stops_cons.mp stops]
      rfl

theorem dropWhile_of_stops {p : Char → Bool} {r : List Char} (stops : Stops p r) :
    r.dropWhile p = r := by
  cases r with
  | nil => rfl
  | cons c r =>
      rw [List.dropWhile_cons, stops_cons.mp stops]
      rfl

/-- A run up to where it stops. -/
theorem takeWhile_run {p : Char → Bool} {a r : List Char} (all : ∀ c ∈ a, p c = true)
    (stops : Stops p r) : (a ++ r).takeWhile p = a := by
  rw [List.takeWhile_append_of_pos all, takeWhile_of_stops stops, List.append_nil]

theorem dropWhile_run {p : Char → Bool} {a r : List Char} (all : ∀ c ∈ a, p c = true)
    (stops : Stops p r) : (a ++ r).dropWhile p = r := by
  rw [List.dropWhile_append_of_pos all, dropWhile_of_stops stops]

/-! ## Words -/

/-- The characters of a word. -/
def IsWord (word : List Char) : Prop := word ≠ [] ∧ ∀ c ∈ word, isSpace c = false

/-- A string checked character by character has no white space. -/
theorem isSpace_of_all {s : List Char} (all : s.all (fun c => !isSpace c) = true) {c : Char}
    (mem : c ∈ s) : isSpace c = false := by
  have free := List.all_eq_true.mp all c mem
  rwa [Bool.not_eq_true'] at free

/-- A word starts with no white space. -/
theorem IsWord.stops {word : List Char} (isWord : IsWord word) (rest : List Char) :
    Stops isSpace (word ++ rest) := by
  obtain ⟨c, word, rfl⟩ := List.exists_cons_of_ne_nil isWord.1
  exact stops_cons.mpr (isWord.2 c List.mem_cons_self)

/-- A word is read up to white space or the end. -/
theorem scanWord_append {word rest : List Char} (isWord : IsWord word)
    (stops : Stops (fun c => !isSpace c) rest) : scanWord (word ++ rest) = some (word, rest) := by
  have chars : ∀ c ∈ word, (!isSpace c) = true := by
    intro c mem
    rw [isWord.2 c mem]
    rfl
  unfold scanWord skipSpace
  simp only [dropWhile_of_stops (isWord.stops rest), takeWhile_run chars stops,
    dropWhile_run chars stops]
  simp [isWord.1]

/-! ## Digits -/

/-- A string of decimal digits. -/
def IsDigits (digits : List Char) : Prop := digits ≠ [] ∧ ∀ c ∈ digits, c.isDigit = true

/-- A digit is neither a blank nor a sign. -/
theorem isDigit_plain {c : Char} (isDigit : c.isDigit = true) :
    isSpace c = false ∧ c ≠ '-' ∧ c ≠ '+' := by
  refine ⟨?_, ?_, ?_⟩
  · by_contra space
    rw [Bool.not_eq_false] at space
    simp only [isSpace, Bool.or_eq_true, beq_iff_eq] at space
    rcases space with ((((rfl | rfl) | rfl) | rfl) | rfl) | rfl <;>
      exact absurd isDigit (by decide)
  · rintro rfl
    exact absurd isDigit (by decide)
  · rintro rfl
    exact absurd isDigit (by decide)

theorem IsDigits.digit {digits : List Char} (isDigits : IsDigits digits) {c : Char}
    (mem : c ∈ digits) : isSpace c = false ∧ c ≠ '-' ∧ c ≠ '+' :=
  isDigit_plain (isDigits.2 c mem)

/-- No blank in front of digits. -/
theorem IsDigits.skipSpace_append {digits : List Char} (isDigits : IsDigits digits)
    (rest : List Char) : skipSpace (digits ++ rest) = digits ++ rest :=
  dropWhile_of_stops (IsWord.stops ⟨isDigits.1, fun _ mem => (isDigits.digit mem).1⟩ rest)

theorem scanSign_cons {c : Char} (minus : c ≠ '-') (plus : c ≠ '+') (s : List Char) :
    scanSign (c :: s) = (1, c :: s) := by
  unfold scanSign
  split
  · rename_i same
    cases same
    exact absurd rfl minus
  · rename_i same
    cases same
    exact absurd rfl plus
  · rfl

/-- No sign in front of digits. -/
theorem IsDigits.scanSign_append {digits : List Char} (isDigits : IsDigits digits)
    (rest : List Char) : scanSign (digits ++ rest) = (1, digits ++ rest) := by
  obtain ⟨c, digits, rfl⟩ := List.exists_cons_of_ne_nil isDigits.1
  have sign := (isDigits.digit List.mem_cons_self).2
  exact scanSign_cons sign.1 sign.2 _

theorem scanNat_append {digits rest : List Char} (isDigits : IsDigits digits)
    (stops : Stops Char.isDigit rest) :
    scanNat (digits ++ rest) = some (digitsVal digits, rest) := by
  unfold scanNat
  simp only [takeWhile_run isDigits.2 stops, dropWhile_run isDigits.2 stops]
  rw [if_neg]
  rw [List.isEmpty_iff]
  exact isDigits.1

/-- Digits are read as their value, with the blanks before them passed over. -/
theorem scanInteger_append {digits rest : List Char} (isDigits : IsDigits digits)
    (stops : Stops Char.isDigit rest) :
    scanInteger (digits ++ rest) = some ((digitsVal digits : Int), rest) := by
  unfold scanInteger
  simp only [isDigits.skipSpace_append, isDigits.scanSign_append, scanNat_append isDigits stops,
    Option.map_some, Int.one_mul]

theorem scanInteger_blank (s : List Char) : scanInteger (' ' :: s) = scanInteger s := rfl

/-- `atoi` of digits converts their value. -/
theorem atoi_digits {digits : List Char} (isDigits : IsDigits digits) :
    atoi digits = longToInt (digitsVal digits) := by
  have read : scanInteger (digits ++ []) = some ((digitsVal digits : Int), []) :=
    scanInteger_append isDigits nofun
  rw [List.append_nil] at read
  rw [atoi, integer, read]
  rfl

/-- A number below 2 ^ 31 is not changed by the conversion. -/
theorem longToInt_of_lt {n : Nat} (small : n < 2 ^ 31) : longToInt n = n := by
  have fits : max (-2 ^ 63) (min (n : Int) (2 ^ 63 - 1)) = n := by omega
  rw [longToInt, fits]
  exact Int.bmod_eq_of_le_mul_two (by omega) (by omega)

/-! ## The digits of a number -/

theorem foldl_digits (s : List Char) (n : Nat) :
    s.foldl (fun n c => 10 * n + (c.toNat - '0'.toNat)) n = n * 10 ^ s.length + digitsVal s := by
  unfold digitsVal
  induction s generalizing n with
  | nil => simp
  | cons c s ih =>
      rw [List.foldl_cons, List.foldl_cons, ih, ih (10 * 0 + _), List.length_cons]
      ring

theorem digitsVal_append (s t : List Char) :
    digitsVal (s ++ t) = digitsVal s * 10 ^ t.length + digitsVal t := by
  rw [digitsVal, List.foldl_append, foldl_digits t]
  rfl

/-- The digits of a number have its value. -/
theorem digitsVal_toDigits (n : Nat) : digitsVal (Nat.toDigits 10 n) = n := by
  induction n using Nat.strong_induction_on with
  | h n ih =>
      rw [Nat.toDigits_eq_if (by norm_num)]
      split
      · rename_i small
        change 10 * 0 + (n.digitChar.toNat - 48) = n
        rw [Nat.toNat_digitChar_sub_48_of_lt_ten small]
        omega
      · rename_i large
        have last : digitsVal [(n % 10).digitChar] = n % 10 := by
          change 10 * 0 + ((n % 10).digitChar.toNat - 48) = n % 10
          rw [Nat.toNat_digitChar_sub_48_of_lt_ten (Nat.mod_lt n (by norm_num))]
          omega
        rw [digitsVal_append, ih (n / 10) (by omega), last, List.length_singleton, pow_one]
        omega

theorem digitsVal_leftpad (k : Nat) (s : List Char) :
    digitsVal (s.leftpad k '0') = digitsVal s := by
  have zeros : ∀ m, digitsVal (List.replicate m '0') = 0 := by
    intro m
    induction m with
    | zero => rfl
    | succ m ih =>
        rw [List.replicate_succ', digitsVal_append, ih]
        rfl
  rw [List.leftpad, digitsVal_append, zeros, zero_mul, zero_add]

theorem isDigits_toDigits (n : Nat) : IsDigits (Nat.toDigits 10 n) :=
  ⟨Nat.toDigits_ne_nil, fun _ mem => Nat.isDigit_of_mem_toDigits (by decide) (by decide) mem⟩

theorem isDigits_leftpad {s : List Char} (k : Nat) (digits : IsDigits s) :
    IsDigits (s.leftpad k '0') := by
  refine ⟨?_, fun c mem => ?_⟩
  · rw [List.leftpad]
    exact List.append_ne_nil_of_right_ne_nil _ digits.1
  · rw [List.leftpad, List.mem_append] at mem
    rcases mem with zero | old
    · rw [List.eq_of_mem_replicate zero]
      rfl
    · exact digits.2 c old

/-! ## Numbers with a point -/

/-- Digits, a point and digits; those before the point may be missing. -/
theorem scanMantissa_append {digit : Char → Bool} {whole frac rest : List Char}
    (point : digit '.' = false) (wholeDigits : ∀ c ∈ whole, digit c = true)
    (fracDigits : ∀ c ∈ frac, digit c = true) (some_ : frac ≠ []) (stops : Stops digit rest) :
    scanMantissa digit (whole ++ '.' :: (frac ++ rest)) = some (whole, frac, rest) := by
  have pointed : Stops digit ('.' :: (frac ++ rest)) := stops_cons.mpr point
  unfold scanMantissa
  simp only [takeWhile_run wholeDigits pointed, dropWhile_run wholeDigits pointed, scanFraction,
    takeWhile_run fracDigits stops, dropWhile_run fracDigits stops]
  rw [if_neg]
  simp [some_]

/-- No exponent. -/
theorem scanExponent_of_stops {letter : Char} {rest : List Char}
    (plain : Stops (fun c => c.toLower == letter) rest) :
    scanExponent letter rest = some (0, rest) := by
  cases rest with
  | nil => rfl
  | cons c rest =>
      have other : (c.toLower == letter) = false := plain c rfl
      rw [scanExponent, other, if_neg Bool.false_ne_true]

/-- A digit has no upper case. -/
theorem toLower_of_isDigit {c : Char} (digit : c.isDigit = true) : c.toLower = c := by
  simp only [Char.isDigit, Bool.and_eq_true, decide_eq_true_eq] at digit
  have upper : ¬('A'.val ≤ c.val ∧ c.val ≤ 'Z'.val) := by
    intro letter
    exact absurd (UInt32.le_trans letter.1 digit.2) (by decide)
  exact dif_neg upper

theorem matched_of_ne {w c : Char} (other : c.toLower ≠ w) (word s : List Char) :
    matched (w :: word) (c :: s) = 0 := by
  rw [matched, if_neg]
  rwa [beq_iff_eq]

/-- Digits, a point and digits are read as a decimal number. -/
theorem scanNumeral_append {whole frac rest : List Char}
    (wholeDigits : ∀ c ∈ whole, c.isDigit = true) (fracDigits : ∀ c ∈ frac, c.isDigit = true)
    (some_ : frac ≠ []) (stops : Stops Char.isDigit rest)
    (plain : Stops (fun c => c.toLower == 'e') rest) :
    scanNumeral (whole ++ '.' :: (frac ++ rest)) = some (.decimal 1 whole frac 0, rest) := by
  -- a digit or a point in front
  have first : ∃ c s, whole ++ '.' :: (frac ++ rest) = c :: s ∧ (c.isDigit = true ∨ c = '.') ∧
      ∃ d s', s = d :: s' ∧ (d.isDigit = true ∨ d = '.') := by
    obtain ⟨f, frac, rfl⟩ := List.exists_cons_of_ne_nil some_
    have digit : f.isDigit = true := fracDigits f List.mem_cons_self
    rcases whole with - | ⟨c, - | ⟨d, whole⟩⟩
    · exact ⟨_, _, rfl, Or.inr rfl, _, _, rfl, Or.inl digit⟩
    · exact ⟨_, _, rfl, Or.inl (wholeDigits c (by simp)), _, _, rfl, Or.inr rfl⟩
    · exact ⟨_, _, rfl, Or.inl (wholeDigits c (by simp)), _, _, rfl,
        Or.inl (wholeDigits d (by simp))⟩
  have plainChar : ∀ {c : Char}, c.isDigit = true ∨ c = '.' →
      isSpace c = false ∧ c ≠ '-' ∧ c ≠ '+' ∧ c.toLower = c ∧ c ≠ 'x' ∧ c ≠ 'i' ∧ c ≠ 'n' := by
    rintro c (digit | rfl)
    · refine ⟨(isDigit_plain digit).1, (isDigit_plain digit).2.1, (isDigit_plain digit).2.2,
        toLower_of_isDigit digit, ?_, ?_, ?_⟩ <;> rintro rfl <;> exact absurd digit (by decide)
    · decide
  have mantissa := scanMantissa_append rfl wholeDigits fracDigits some_ stops
  obtain ⟨c, s, text, digit, d, s', rfl, digit'⟩ := first
  rw [text] at mantissa ⊢
  obtain ⟨space, minus, plus, lower, -, notI, notN⟩ := plainChar digit
  obtain ⟨-, -, -, lower', notX, -, -⟩ := plainChar digit'
  have signed : scanSign (skipSpace (c :: d :: s')) = (1, c :: d :: s') := by
    rw [skipSpace, dropWhile_of_stops (stops_cons.mpr space), scanSign_cons minus plus]
  have notHex : matched ['0', 'x'] (c :: d :: s') ≠ 2 := by
    rw [matched, matched_of_ne (by rwa [lower'])]
    split <;> omega
  have notInf : matched "infinity".toList (c :: d :: s') = 0 :=
    matched_of_ne (by rwa [lower]) _ _
  have notNan : matched "nan".toList (c :: d :: s') = 0 := matched_of_ne (by rwa [lower]) _ _
  unfold scanNumeral
  simp only [signed, if_neg notHex, notInf, notNan, Nat.lt_irrefl, if_false, mantissa,
    Option.bind_some, scanExponent_of_stops plain, Option.map_some]

end Scan
