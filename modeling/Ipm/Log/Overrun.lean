import Ipm.Log.Write

/-!
# The bounds of the record's buffer

`ipm_log` measures the record of a task in a first pass and writes it in a second one, into
a buffer of one byte more than was measured.  `ipmprintf` gives `vsnprintf` the whole limit
for every piece, whatever stands before it.

* `foldl_short`: pieces shorter than the limit are stored one behind the other.
* `BufferAgrees.within`: where nothing is stored behind the buffer, every piece, cut to the
  limit, ends inside of it.
* `bufferAgrees_iff`: nothing is stored behind the buffer, and what is stored is what a file
  would begin with, exactly when the pieces fit or only the last one is cut.
-/

namespace Ipm

open Stdio

/-- `ipmprintf` into a file. -/
def ipmprintfFile (file out : Text) : Text := file ++ out

/-- The record in a file. -/
def fileMode (pieces : List Text) : Text := pieces.foldl ipmprintfFile []

theorem fileMode_eq (pieces : List Text) : fileMode pieces = pieces.flatten := by
  have behind : ∀ file, pieces.foldl ipmprintfFile file = file ++ pieces.flatten := by
    induction pieces with
    | nil => exact fun file => (List.append_nil file).symm
    | cons out pieces ih =>
        intro file
        rw [List.foldl_cons, ih, ipmprintfFile, List.flatten_cons, List.append_assoc]
  exact behind []

/-- The buffer keeps its length, and all that is stored into it is a text and its NUL: the
first part of what a file gets, all of it if it is not longer than the limit. -/
structure BufferAgrees (buffIn : Nat) (pieces : List Text) (buffer : Text) : Prop where
  inside : (fill buffIn buffer pieces).buffer.length = buffer.length
  stored : ∃ text, text <+: fileMode pieces ∧
    ((fileMode pieces).length ≤ buffIn → text = fileMode pieces) ∧
    ((fill buffIn buffer pieces).buffer = overwrite buffer 0 (text ++ [Char.ofNat 0]) ∨
      (fill buffIn buffer pieces).buffer = buffer ∧ text = [])

/-- The limit is zero, or the pieces fit, or the last one is cut behind one byte at most. -/
def Fits (buffIn : Nat) (pieces : List Text) : Prop :=
  buffIn = 0 ∨
    (∀ out ∈ pieces, out.length < buffIn) ∧ pieces.flatten.length ≤ buffIn ∨
    (∀ out ∈ pieces.dropLast, out.length < buffIn) ∧ pieces.dropLast.flatten.length ≤ 1 ∧
      buffIn < pieces.flatten.length

instance (buffIn : Nat) (pieces : List Text) : Decidable (Fits buffIn pieces) :=
  inferInstanceAs (Decidable (_ ∨ _))

theorem fill_append (buffIn : Nat) (buffer : Text) (before after : List Text) :
    fill buffIn buffer (before ++ after) =
      after.foldl (ipmprintf buffIn) (fill buffIn buffer before) := by
  rw [fill, List.foldl_append]
  rfl

theorem bsize_fill (buffIn : Nat) (buffer : Text) (pieces : List Text) :
    (fill buffIn buffer pieces).bsize = pieces.flatten.length := by
  rw [fill, bsize_foldl, Nat.zero_add]

/-! ## One piece -/

/-- What `vsnprintf` stores of a piece. -/
def cut (buffIn : Nat) (out : Text) : Text := out.take (buffIn - 1) ++ [Char.ofNat 0]

theorem length_cut (buffIn : Nat) (out : Text) :
    (cut buffIn out).length = min (buffIn - 1) out.length + 1 := by
  rw [cut, List.length_append, List.length_take, List.length_singleton]

section

variable {buffIn : Nat} (limit : buffIn ≠ 0)
include limit

theorem ipmprintf_buffer (s : LogBuf) (out : Text) :
    (ipmprintf buffIn s out).buffer = overwrite s.buffer s.bsize (cut buffIn out) :=
  if_neg limit

/-- A piece is stored behind a text that ends where the counter stands. -/
theorem ipmprintf_behind (before rest out : Text) :
    (ipmprintf buffIn ⟨before ++ rest, before.length⟩ out).buffer =
      before ++ out.take (buffIn - 1) ++ Char.ofNat 0 :: rest.drop (cut buffIn out).length := by
  rw [ipmprintf_buffer limit, overwrite_append, cut]
  simp

/-- Pieces shorter than the limit are stored one behind the other, with one NUL behind the
last of them. -/
theorem foldl_short {pieces : List Text} (nonempty : pieces ≠ [])
    (short : ∀ out ∈ pieces, out.length < buffIn) (before rest : Text) :
    (pieces.foldl (ipmprintf buffIn) ⟨before ++ rest, before.length⟩).buffer =
      before ++ pieces.flatten ++ Char.ofNat 0 :: rest.drop (pieces.flatten.length + 1) := by
  induction pieces generalizing before rest with
  | nil => exact absurd rfl nonempty
  | cons out pieces ih =>
      have fits := short out List.mem_cons_self
      have uncut : out.take (buffIn - 1) = out := List.take_of_length_le (by omega)
      have size : (cut buffIn out).length = out.length + 1 := by
        rw [length_cut]
        omega
      have step : ipmprintf buffIn ⟨before ++ rest, before.length⟩ out =
          ⟨(before ++ out) ++ Char.ofNat 0 :: rest.drop (out.length + 1),
            (before ++ out).length⟩ := by
        have buffer := ipmprintf_behind limit before rest out
        rw [uncut, size] at buffer
        rw [List.length_append, ← buffer]
        rfl
      rw [List.foldl_cons, step]
      rcases eq_or_ne pieces [] with rfl | more
      · simp
      · rw [ih more (fun x mem => short x (List.mem_cons_of_mem out mem)), List.flatten_cons,
          List.length_append, List.drop_succ_cons, List.drop_drop, List.append_assoc before]
        congr 3
        omega

theorem length_ipmprintf (s : LogBuf) (out : Text) :
    (ipmprintf buffIn s out).buffer.length =
      max s.buffer.length (s.bsize + (min (buffIn - 1) out.length + 1)) := by
  rw [ipmprintf_buffer limit, length_overwrite, length_cut]

/-- Nothing is taken from the buffer. -/
theorem length_foldl_le (pieces : List Text) (s : LogBuf) :
    s.buffer.length ≤ (pieces.foldl (ipmprintf buffIn) s).buffer.length := by
  induction pieces generalizing s with
  | nil => exact Nat.le_refl _
  | cons out pieces ih =>
      refine Nat.le_trans ?_ (ih (ipmprintf buffIn s out))
      rw [length_ipmprintf limit]
      exact Nat.le_max_left _ _

/-- What stands before the counter is not stored over. -/
theorem foldl_below (pieces : List Text) {s : LogBuf} {k : Nat} (below : k < s.bsize)
    (there : k < s.buffer.length) :
    (pieces.foldl (ipmprintf buffIn) s).buffer[k]? = s.buffer[k]? := by
  induction pieces generalizing s with
  | nil => rfl
  | cons out pieces ih =>
      rw [List.foldl_cons, ih (Nat.lt_add_right _ below) (by
        rw [length_ipmprintf limit]
        exact Nat.lt_of_lt_of_le there (Nat.le_max_left _ _)), ipmprintf_buffer limit,
        getElem?_overwrite_outside there (Or.inl below)]

/-- The end of every piece is a NUL until the next one is stored. -/
theorem fill_end (buffer : Text) (pieces : List Text) (out : Text) :
    (fill buffIn buffer (pieces ++ [out])).buffer[pieces.flatten.length +
      min (buffIn - 1) out.length]? = some (Char.ofNat 0) := by
  have size := length_cut buffIn out
  rw [fill_append, List.foldl_cons, List.foldl_nil, ipmprintf_buffer limit, bsize_fill,
    getElem?_overwrite_inside (by omega) (by omega), cut, Nat.add_sub_cancel_left,
    List.getElem?_append_right (by rw [List.length_take]), List.length_take, Nat.sub_self]
  rfl

/-- Where a piece has been cut, the NUL stays: the next one is stored behind all of the piece. -/
theorem fill_end_cut (buffer : Text) (before after : List Text) {out : Text}
    (long : buffIn ≤ out.length) :
    (fill buffIn buffer (before ++ out :: after)).buffer[before.flatten.length +
      min (buffIn - 1) out.length]? = some (Char.ofNat 0) := by
  have split : before ++ out :: after = (before ++ [out]) ++ after := by
    rw [List.append_assoc, List.singleton_append]
  have ends := fill_end limit buffer before out
  rw [split, fill_append, foldl_below limit]
  · exact ends
  · rw [bsize_fill, List.flatten_append, List.flatten_singleton, List.length_append]
    omega
  · exact (List.getElem?_eq_some_iff.mp ends).1

/-- Short pieces leave their text, and behind it a NUL and what stood there. -/
theorem fill_short {before : List Text} (short : ∀ out ∈ before, out.length < buffIn)
    (buffer : Text) :
    ∃ rest, fill buffIn buffer before = ⟨before.flatten ++ rest, before.flatten.length⟩ ∧
      rest.drop buffIn = buffer.drop (before.flatten.length + buffIn) := by
  rcases eq_or_ne before [] with rfl | more
  · exact ⟨buffer, rfl, by simp⟩
  · refine ⟨Char.ofNat 0 :: buffer.drop (before.flatten.length + 1), ?_, ?_⟩
    · have stored := foldl_short limit more short [] buffer
      rw [List.nil_append, List.nil_append] at stored
      rw [← stored, ← bsize_fill buffIn buffer before]
      rfl
    · obtain ⟨n, rfl⟩ := Nat.exists_eq_succ_of_ne_zero limit
      rw [List.drop_succ_cons, List.drop_drop]
      congr 1
      omega

end

/-- With a limit of zero nothing is stored. -/
theorem fill_zero (buffer : Text) (pieces : List Text) :
    (fill 0 buffer pieces).buffer = buffer := by
  have kept : ∀ s : LogBuf, (pieces.foldl (ipmprintf 0) s).buffer = s.buffer := by
    induction pieces with
    | nil => exact fun s => rfl
    | cons out pieces ih => exact fun s => ih (ipmprintf 0 s out)
  exact kept ⟨buffer, 0⟩

/-! ## Where the pieces fit -/

/-- A text and its NUL at the start of a buffer. -/
theorem overwrite_start (buffer text : Text) :
    overwrite buffer 0 (text ++ [Char.ofNat 0]) =
      text ++ Char.ofNat 0 :: buffer.drop (text.length + 1) := by
  have start : overwrite ([] ++ buffer) 0 (text ++ [Char.ofNat 0]) =
      [] ++ (text ++ [Char.ofNat 0]) ++ buffer.drop (text ++ [Char.ofNat 0]).length :=
    overwrite_append
  rw [List.nil_append, List.nil_append, List.length_append] at start
  rw [start, List.append_assoc]
  rfl

theorem exists_concat {pieces : List Text} (nonempty : pieces ≠ []) :
    ∃ before last, pieces = before ++ [last] :=
  ⟨pieces.dropLast, pieces.getLast nonempty, (List.dropLast_append_getLast nonempty).symm⟩

/-- A text that is stored with its NUL inside of the buffer. -/
theorem BufferAgrees.of_text {buffIn : Nat} {pieces : List Text} {buffer text : Text}
    (first : text <+: pieces.flatten)
    (all : pieces.flatten.length ≤ buffIn → text = pieces.flatten)
    (room : text.length + 1 ≤ buffer.length)
    (stored : (fill buffIn buffer pieces).buffer =
      text ++ Char.ofNat 0 :: buffer.drop (text.length + 1)) :
    BufferAgrees buffIn pieces buffer := by
  refine ⟨?_, text, ?_, ?_, Or.inl ?_⟩
  · rw [stored, List.length_append, List.length_cons, List.length_drop]
    omega
  · rwa [fileMode_eq]
  · rwa [fileMode_eq]
  · rw [stored, overwrite_start]

theorem flatten_concat (before : List Text) (last : Text) :
    (before ++ [last]).flatten = before.flatten ++ last := by
  rw [List.flatten_append, List.flatten_singleton]

/-- The last piece is cut, and what stands before it is one byte at most. -/
theorem bufferAgrees_of_cut {buffIn : Nat} (limit : buffIn ≠ 0) {before : List Text}
    {last : Text} (short : ∀ out ∈ before, out.length < buffIn)
    (one : before.flatten.length ≤ 1) (long : buffIn < before.flatten.length + last.length)
    {buffer : Text} (size : buffer.length = buffIn + 1) :
    BufferAgrees buffIn (before ++ [last]) buffer := by
  have cutSize : (cut buffIn last).length = buffIn := by
    rw [length_cut]
    omega
  have text : (before.flatten ++ last.take (buffIn - 1)).length + 1 =
      before.flatten.length + buffIn := by
    rw [List.length_append, List.length_take]
    omega
  have first : before.flatten ++ last.take (buffIn - 1) <+: (before ++ [last]).flatten := by
    rw [flatten_concat]
    exact (List.prefix_append_right_inj _).mpr (List.take_prefix _ _)
  refine .of_text first (fun whole => ?_) (by omega) ?_
  · rw [flatten_concat, List.length_append] at whole
    omega
  · obtain ⟨rest, behind, tail⟩ := fill_short limit short buffer
    rw [fill_append, List.foldl_cons, List.foldl_nil, behind, text, ← tail]
    have stored := ipmprintf_behind limit before.flatten rest last
    rwa [cutSize] at stored

theorem bufferAgrees_of_fits {buffIn : Nat} {pieces : List Text} (fits : Fits buffIn pieces)
    {buffer : Text} (size : buffer.length = buffIn + 1) : BufferAgrees buffIn pieces buffer := by
  rcases eq_or_ne buffIn 0 with rfl | limit
  · refine ⟨by rw [fill_zero], [], List.nil_prefix, fun empty => ?_,
      Or.inr ⟨fill_zero buffer pieces, rfl⟩⟩
    exact (List.eq_nil_of_length_eq_zero (Nat.le_zero.mp empty)).symm
  rcases eq_or_ne pieces [] with rfl | nonempty
  · exact ⟨rfl, [], List.nil_prefix, fun _ => rfl, Or.inr ⟨rfl, rfl⟩⟩
  rcases fits with zero | ⟨short, whole⟩ | ⟨short, one, long⟩
  · exact absurd zero limit
  · refine .of_text (List.prefix_refl _) (fun _ => rfl) (by omega) ?_
    have stored := foldl_short limit nonempty short [] buffer
    rwa [List.nil_append, List.nil_append] at stored
  · obtain ⟨before, last, rfl⟩ := exists_concat nonempty
    rw [List.dropLast_concat] at short one
    rw [flatten_concat, List.length_append] at long
    exact bufferAgrees_of_cut limit short one long size

/-! ## Where they do not -/

/-- Where nothing is stored behind the buffer, every piece ends inside of it. -/
theorem BufferAgrees.within {buffIn : Nat} {pieces : List Text} {buffer : Text}
    (limit : buffIn ≠ 0) (agrees : BufferAgrees buffIn pieces buffer)
    {before after : List Text} {out : Text} (split : pieces = before ++ out :: after) :
    before.flatten.length + min (buffIn - 1) out.length + 1 ≤ buffer.length := by
  have inside := agrees.inside
  subst split
  rw [fill_append, List.foldl_cons] at inside
  have later := length_foldl_le limit after (ipmprintf buffIn (fill buffIn buffer before) out)
  rw [inside, length_ipmprintf limit, bsize_fill] at later
  omega

/-- A NUL is at the end of what was stored, or behind it. -/
theorem BufferAgrees.nul {buffIn : Nat} {pieces : List Text} {n : Nat}
    (agrees : BufferAgrees buffIn pieces (List.replicate n 'x'))
    (texts : ∀ out ∈ pieces, Char.ofNat 0 ∉ out) {k k' : Nat}
    (first : (fill buffIn (List.replicate n 'x') pieces).buffer[k]? = some (Char.ofNat 0))
    (second : (fill buffIn (List.replicate n 'x') pieces).buffer[k']? = some (Char.ofNat 0)) :
    k = k' ∧ ((fileMode pieces).length ≤ buffIn → (fileMode pieces).length = k) := by
  obtain ⟨text, isFirst, all, stored | ⟨stored, -⟩⟩ := agrees.stored
  · rw [fileMode_eq] at isFirst all ⊢
    have printable : Char.ofNat 0 ∉ text := by
      intro mem
      obtain ⟨out, mem', inOut⟩ := List.mem_flatten.mp (isFirst.subset mem)
      exact texts out mem' inOut
    have place : ∀ {k}, (overwrite (List.replicate n 'x') 0 (text ++ [Char.ofNat 0]))[k]? =
        some (Char.ofNat 0) → text.length = k := by
      intro k nul
      rw [overwrite_start] at nul
      rcases Nat.lt_trichotomy k text.length with below | same | above
      · rw [List.getElem?_append_left below] at nul
        exact absurd (List.mem_of_getElem? nul) printable
      · exact same.symm
      · obtain ⟨i, rfl⟩ : ∃ i, k = text.length + (i + 1) := ⟨k - text.length - 1, by omega⟩
        rw [List.getElem?_append_right (by omega), Nat.add_sub_cancel_left,
          List.getElem?_cons_succ] at nul
        have fresh := List.mem_of_mem_drop (List.mem_of_getElem? nul)
        exact absurd (List.eq_of_mem_replicate fresh) (by decide)
    rw [stored] at first second
    refine ⟨(place first).symm.trans (place second), fun whole => ?_⟩
    rw [← place first, all whole]
  · rw [stored] at first
    exact absurd (List.eq_of_mem_replicate (List.mem_of_getElem? first)) (by decide)

/-- No piece before the last one is cut: its NUL would stay, and so does that of the last one
behind it. -/
theorem BufferAgrees.uncut {buffIn : Nat} (limit : buffIn ≠ 0) {before : List Text} {last : Text}
    (texts : ∀ out ∈ before ++ [last], Char.ofNat 0 ∉ out)
    (agrees : BufferAgrees buffIn (before ++ [last]) (List.replicate (buffIn + 1) 'x')) :
    ∀ out ∈ before, out.length < buffIn := by
  by_contra cut_
  push Not at cut_
  obtain ⟨out, mem, long⟩ := cut_
  obtain ⟨front, back, rfl⟩ := List.append_of_mem mem
  have split : (front ++ out :: back) ++ [last] = front ++ out :: (back ++ [last]) :=
    List.append_assoc front (out :: back) [last]
  have within := agrees.within limit split
  have behind : (front ++ out :: back).flatten.length =
      front.flatten.length + out.length + back.flatten.length := by
    simp [Nat.add_assoc]
  have outNul := fill_end_cut limit (List.replicate (buffIn + 1) 'x') front (back ++ [last]) long
  rw [← split] at outNul
  have lastNul := fill_end limit (List.replicate (buffIn + 1) 'x') (front ++ out :: back) last
  have same := (agrees.nul texts outNul lastNul).1
  rw [List.length_replicate] at within
  omega

theorem fits_of_bufferAgrees {buffIn : Nat} {pieces : List Text}
    (texts : ∀ out ∈ pieces, Char.ofNat 0 ∉ out)
    (agrees : BufferAgrees buffIn pieces (List.replicate (buffIn + 1) 'x')) :
    Fits buffIn pieces := by
  rcases eq_or_ne buffIn 0 with zero | limit
  · exact Or.inl zero
  rcases eq_or_ne pieces [] with rfl | nonempty
  · exact Or.inr (Or.inl ⟨by simp, by simp⟩)
  obtain ⟨before, last, rfl⟩ := exists_concat nonempty
  have short := agrees.uncut limit texts
  have within : before.flatten.length + min (buffIn - 1) last.length + 1 ≤ _ :=
    agrees.within limit rfl
  rw [List.length_replicate] at within
  have total : (before ++ [last]).flatten.length = before.flatten.length + last.length := by
    rw [flatten_concat, List.length_append]
  by_cases shortLast : last.length < buffIn
  · refine Or.inr (Or.inl ⟨?_, by omega⟩)
    intro out mem
    rcases List.mem_append.mp mem with inFront | isLast
    · exact short out inFront
    · rw [List.mem_singleton.mp isLast]
      exact shortLast
  · refine Or.inr (Or.inr ⟨by rwa [List.dropLast_concat], ?_, ?_⟩)
    · rw [List.dropLast_concat]
      omega
    · by_contra whole
      have lastNul := fill_end limit (List.replicate (buffIn + 1) 'x') before last
      have all := (agrees.nul texts lastNul lastNul).2
      rw [fileMode_eq, total] at all
      rw [total] at whole
      have := all (by omega)
      omega

/-- Buffer mode stays inside of its buffer and agrees with file mode exactly when the pieces
fit, or only the last one is cut. -/
theorem bufferAgrees_iff {buffIn : Nat} {pieces : List Text}
    (texts : ∀ out ∈ pieces, Char.ofNat 0 ∉ out) :
    (∀ buffer, buffer.length = buffIn + 1 → BufferAgrees buffIn pieces buffer) ↔
      Fits buffIn pieces :=
  ⟨fun agrees => fits_of_bufferAgrees texts (agrees _ List.length_replicate),
    fun fits _ size => bufferAgrees_of_fits fits size⟩

/-- Two pieces of the measured length. -/
theorem bufferAgrees_measured :
    BufferAgrees 4 ["ab".toList, "cd".toList] "xxxxx".toList :=
  (bufferAgrees_iff (by decide)).mpr (by decide) _ rfl

/-- Two pieces that grew by one byte after they were measured: the last byte is stored behind
the buffer. -/
theorem bufferAgrees_grown :
    ¬ ∀ buffer, buffer.length = 4 → BufferAgrees 3 ["ab".toList, "cd".toList] buffer := by
  intro agrees
  have inside := (agrees "xxxx".toList (by decide)).inside
  exact absurd inside (by decide)

end Ipm
