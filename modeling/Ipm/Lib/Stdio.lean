import Ipm.Lib.Scan

/-!
# Text files through stdio

A file is its text.  `fscanf` reads a list of conversions from a text, each of them
skipping white space and taking the longest input item, and stops at the first
conversion that fails or meets the end of the file.  `fmtInt` and `fmtFixed` are what
`%d` and `%f` print, `overwrite` is a write in the middle of a file.

* `scanInteger_fmtInt`: an integer that has been printed is read back.
* `fscanf_spell`: a text printed field by field is scanned into its fields.
* `item_s`, `item_d`, `item_lf`: the input items of a token, of a printed integer and
  of a printed fixed-point number.
* `overwrite_append`: a write inside a text keeps what stands before it.
-/

namespace Stdio

abbrev Text := List Char

open Scan

/-! ## Input items -/

/-- The conversions `%d`, `%s` and `%lf`. -/
inductive Conv
  | d
  | s
  | lf
  deriving DecidableEq, Repr

/-- What a conversion leaves of a text. -/
def Conv.scan : Conv → Text → Option Text
  | .d, t => (scanInteger t).map Prod.snd
  | .s, t => (scanWord t).map Prod.snd
  | .lf, t => (scanNumeral t).map Prod.snd

/-- The input item of a conversion at a text, and the rest. -/
def Conv.item (c : Conv) (t : Text) : Option (Text × Text) :=
  (c.scan t).map fun rest => (t.take (t.length - rest.length), rest)

/-! ## Scanning -/

/-- What a scan has read, whether it met the end of the file, and the rest. -/
structure Scanned where
  items : List Text
  ended : Bool
  rest : Text
  deriving DecidableEq, Repr

/-- The value of `EOF`. -/
def eof : Int := -1

/-- The value `fscanf` returns: the number of items, and `EOF` for the end of the
file before the first. -/
def Scanned.rv (s : Scanned) : Int := if s.items = [] ∧ s.ended then eof else s.items.length

/-- Scan the conversions of a format one after the other. -/
def fscanf : List Conv → Text → Scanned
  | [], t => ⟨[], false, t⟩
  | c :: cs, t =>
      if skipSpace t = [] then ⟨[], true, []⟩
      else
        match c.item (skipSpace t) with
        | none => ⟨[], false, skipSpace t⟩
        | some (i, r) => { fscanf cs r with items := i :: (fscanf cs r).items }

/-! ## Printing -/

/-- `%d`. -/
def fmtInt : Int → Text
  | .ofNat k => Nat.toDigits 10 k
  | .negSucc k => '-' :: Nat.toDigits 10 (k + 1)

/-- `%.<d>f` of the number `x / 10 ^ d`. -/
def fmtFixed (d x : Nat) : Text :=
  Nat.toDigits 10 (x / 10 ^ d) ++ '.' :: (Nat.toDigits 10 (x % 10 ^ d)).leftpad d '0'

/-- A minimum field width. -/
def pad (w : Nat) (t : Text) : Text := t.leftpad w ' '

/-- Write over the text from a position on, which a gap before it fills with NULs. -/
def overwrite (t : Text) (pos : Nat) (line : Text) : Text :=
  (t.rightpad pos (Char.ofNat 0)).take pos ++ line ++ t.drop (pos + line.length)

/-! ## Rules -/

@[simp] theorem isSpace_blank : isSpace ' ' = true := rfl

theorem isDigit_of_mem_toDigits {n : Nat} {c : Char} (mem : c ∈ Nat.toDigits 10 n) :
    c.isDigit = true := (isDigits_toDigits n).2 c mem

/-- The item is what was read in front of the rest. -/
theorem item_eq {c : Conv} {item rest : Text} (scan : c.scan (item ++ rest) = some rest) :
    c.item (item ++ rest) = some (item, rest) := by
  have length : (item ++ rest).length - rest.length = item.length := by
    rw [List.length_append]
    omega
  rw [Conv.item, scan, Option.map_some, length, List.take_left]

/-- An integer that has been printed is read back. -/
theorem scanInteger_fmtInt (z : Int) {r : Text} (stops : Stops Char.isDigit r) :
    scanInteger (fmtInt z ++ r) = some (z, r) := by
  cases z with
  | ofNat k =>
      have read := scanInteger_append (isDigits_toDigits k) stops
      rwa [digitsVal_toDigits] at read
  | negSucc k =>
      have digits := scanNat_append (isDigits_toDigits (k + 1)) stops
      rw [digitsVal_toDigits] at digits
      have signed : scanSign (skipSpace (fmtInt (Int.negSucc k) ++ r)) =
          (-1, Nat.toDigits 10 (k + 1) ++ r) := rfl
      simp only [scanInteger, signed, digits, Option.map_some]
      rw [Int.negSucc_eq]
      congr 2
      omega

/-- `%d` takes what `%d` has printed. -/
theorem item_d (z : Int) {r : Text} (stops : Stops Char.isDigit r) :
    Conv.d.item (fmtInt z ++ r) = some (fmtInt z, r) := by
  apply item_eq
  rw [Conv.scan, scanInteger_fmtInt z stops, Option.map_some]

/-- `%s` takes a token up to white space or the end of the file. -/
theorem item_s {a r : Text} (blankless : ∀ c ∈ a, isSpace c = false) (some_ : a ≠ [])
    (stops : Stops (fun c => !isSpace c) r) : Conv.s.item (a ++ r) = some (a, r) := by
  apply item_eq
  rw [Conv.scan, scanWord_append ⟨some_, blankless⟩ stops, Option.map_some]

/-- `%lf` takes digits, a point and digits; those before the point may be missing. -/
theorem item_lf {whole frac r : Text} (wholeDigits : ∀ c ∈ whole, c.isDigit = true)
    (fracDigits : ∀ c ∈ frac, c.isDigit = true) (some_ : frac ≠ [])
    (stops : Stops Char.isDigit r) (plain : Stops (fun c => c.toLower == 'e') r) :
    Conv.lf.item (whole ++ '.' :: frac ++ r) = some (whole ++ '.' :: frac, r) := by
  apply item_eq
  rw [Conv.scan, List.append_assoc, List.cons_append,
    scanNumeral_append wholeDigits fracDigits some_ stops plain, Option.map_some]

/-- What `%d` prints is a nonempty text without white space. -/
theorem fmtInt_ne_nil (z : Int) : fmtInt z ≠ [] := by
  cases z with
  | ofNat k => exact Nat.toDigits_ne_nil
  | negSucc k => exact List.cons_ne_nil _ _

/-- The characters `%d` prints are digits and the minus sign. -/
theorem mem_fmtInt {z : Int} {c : Char} (mem : c ∈ fmtInt z) : c.isDigit = true ∨ c = '-' := by
  cases z with
  | ofNat k => exact Or.inl (isDigit_of_mem_toDigits mem)
  | negSucc k =>
      rcases List.mem_cons.mp mem with rfl | digit
      · exact Or.inr rfl
      · exact Or.inl (isDigit_of_mem_toDigits digit)

theorem isSpace_of_mem_fmtInt {z : Int} {c : Char} (mem : c ∈ fmtInt z) : isSpace c = false := by
  rcases mem_fmtInt mem with digit | rfl
  · exact (isDigit_plain digit).1
  · rfl

/-- A nonempty text without white space starts with none. -/
theorem stops_isSpace_append {f r : Text} (some_ : f ≠ [])
    (blankless : ∀ c ∈ f, isSpace c = false) : Stops isSpace (f ++ r) := by
  cases f with
  | nil => exact absurd rfl some_
  | cons c f => exact stops_cons.mpr (blankless c List.mem_cons_self)

/-- A text printed field by field, each with the blanks before it. -/
def spell : List (Text × Text) → Text → Text
  | [], r => r
  | (blanks, f) :: fs, r => blanks ++ (f ++ spell fs r)

/-- Each conversion reads its field, up to the blanks before the next one. -/
def Reads : List Conv → List (Text × Text) → Text → Prop
  | [], [], _ => True
  | c :: cs, (blanks, f) :: fs, r =>
      (∀ x ∈ blanks, isSpace x = true) ∧ f ≠ [] ∧ (∀ x ∈ f, isSpace x = false) ∧
        c.item (f ++ spell fs r) = some (f, spell fs r) ∧ Reads cs fs r
  | _, _, _ => False

/-- A scan reads the fields a text was printed with, and stops after the last. -/
theorem fscanf_spell {cs : List Conv} {fs : List (Text × Text)} {r : Text}
    (reads : Reads cs fs r) : fscanf cs (spell fs r) = ⟨fs.map Prod.snd, false, r⟩ := by
  induction cs generalizing fs with
  | nil =>
      cases fs with
      | nil => rfl
      | cons f fs => exact reads.elim
  | cons c cs ih =>
      cases fs with
      | nil => exact reads.elim
      | cons bf fs =>
          obtain ⟨blank, some_, blankless, read, rest⟩ := reads
          have skipped : skipSpace (spell (bf :: fs) r) = bf.2 ++ spell fs r :=
            dropWhile_run blank (stops_isSpace_append some_ blankless)
          have more : bf.2 ++ spell fs r ≠ [] := List.append_ne_nil_of_left_ne_nil some_ _
          simp only [fscanf, skipped, if_neg more, read, ih rest, List.map_cons]

section Reads

variable {cs : List Conv} {b : Text} {fs : List (Text × Text)} {r : Text}

theorem Reads.s {f : Text} (blank : ∀ x ∈ b, isSpace x = true) (some_ : f ≠ [])
    (blankless : ∀ x ∈ f, isSpace x = false) (stops : Stops (fun c => !isSpace c) (spell fs r))
    (rest : Reads cs fs r) : Reads (.s :: cs) ((b, f) :: fs) r :=
  ⟨blank, some_, blankless, item_s blankless some_ stops, rest⟩

theorem Reads.d {z : Int} (blank : ∀ x ∈ b, isSpace x = true)
    (stops : Stops Char.isDigit (spell fs r)) (rest : Reads cs fs r) :
    Reads (.d :: cs) ((b, fmtInt z) :: fs) r :=
  ⟨blank, fmtInt_ne_nil z, fun _ => isSpace_of_mem_fmtInt, item_d z stops, rest⟩

theorem Reads.lf {whole frac : Text} (blank : ∀ x ∈ b, isSpace x = true)
    (wholeDigits : ∀ c ∈ whole, c.isDigit = true) (fracDigits : ∀ c ∈ frac, c.isDigit = true)
    (some_ : frac ≠ []) (stops : Stops Char.isDigit (spell fs r))
    (plain : Stops (fun c => c.toLower == 'e') (spell fs r)) (rest : Reads cs fs r) :
    Reads (.lf :: cs) ((b, whole ++ '.' :: frac) :: fs) r := by
  refine ⟨blank, List.append_ne_nil_of_right_ne_nil _ (List.cons_ne_nil _ _), ?_,
    item_lf wholeDigits fracDigits some_ stops plain, rest⟩
  intro c mem
  rcases List.mem_append.mp mem with inWhole | inFrac
  · exact (isDigit_plain (wholeDigits c inWhole)).1
  · rcases List.mem_cons.mp inFrac with rfl | digit
    · rfl
    · exact (isDigit_plain (fracDigits c digit)).1

end Reads

/-- Only blanks before the end of the file. -/
theorem fscanf_ended {c : Conv} {cs : List Conv} {t : Text} (blank : skipSpace t = []) :
    fscanf (c :: cs) t = ⟨[], true, []⟩ := by
  rw [fscanf, if_pos blank]

/-- A scan depends on its text only after the blanks it starts with. -/
theorem fscanf_congr {c : Conv} {cs : List Conv} {t t' : Text} (same : skipSpace t = skipSpace t') :
    fscanf (c :: cs) t = fscanf (c :: cs) t' := by
  rw [fscanf, fscanf, same]

/-- `%s` reads the characters up to the next blank. -/
theorem fscanf_s {t : Text} (some_ : skipSpace t ≠ []) :
    fscanf [.s] t = ⟨[(skipSpace t).takeWhile fun c => !isSpace c], false,
      (skipSpace t).dropWhile fun c => !isSpace c⟩ := by
  obtain ⟨c, s, split⟩ := List.exists_cons_of_ne_nil some_
  have nonblank : isSpace c = false := by
    have head := List.head?_dropWhile_not isSpace t
    rw [← skipSpace, split] at head
    exact head
  have word : (skipSpace t).takeWhile (fun c => !isSpace c) ≠ [] := by
    rw [split, List.takeWhile_cons_of_pos (by simp [nonblank])]
    exact List.cons_ne_nil _ _
  have item := item_s (a := (skipSpace t).takeWhile fun c => !isSpace c)
    (r := (skipSpace t).dropWhile fun c => !isSpace c) (fun c mem => ?_) word ?_
  · rw [List.takeWhile_append_dropWhile] at item
    rw [fscanf, if_neg some_, item]
    rfl
  · simpa using List.mem_takeWhile_imp mem
  · intro c head
    have stops := List.head?_dropWhile_not (fun c => !isSpace c) (skipSpace t)
    rw [head] at stops
    exact stops

/-- A padded field is blanks and the field. -/
theorem pad_eq (w : Nat) (t : Text) : pad w t = List.replicate (w - t.length) ' ' ++ t := rfl

theorem length_pad (w : Nat) (t : Text) : w ≤ (pad w t).length := by
  rw [pad, List.length_leftpad]
  exact Nat.le_max_left w t.length

/-- A write inside a text keeps what stands before it. -/
theorem overwrite_append {a b line : Text} :
    overwrite (a ++ b) a.length line = a ++ line ++ b.drop line.length := by
  have short : a.length - (a ++ b).length = 0 := by
    rw [List.length_append]
    omega
  rw [overwrite, List.rightpad, short, List.replicate_zero, List.append_nil,
    List.take_left, ← List.drop_drop, List.drop_left]

end Stdio
