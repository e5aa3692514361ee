import Mathlib.Data.List.OfFn
import Mathlib.Data.List.FinRange
import Ipm.Lib.Stdio

/-!
# A file written slice by slice

Several writers put slices of a text into one file, each at its own place and in any
order.

* `overlay_slices`: if every slice is the part of the text that belongs at its place,
  and the slices cover the text, the file is the text, whatever the order.
* `overlay_records`: records one behind the other, each at the sum of the lengths of
  those before it.
-/

namespace Stdio

/-- Write slices, each at its place, one after the other. -/
def overlay (slices : List (Nat × Text)) (file : Text) : Text :=
  slices.foldl (fun f s => overwrite f s.1 s.2) file

/-- The text has this part at this place. -/
def PartAt (text : Text) (s : Nat × Text) : Prop :=
  ∃ before after, text = before ++ s.2 ++ after ∧ before.length = s.1

/-! ## One write -/

theorem length_overwrite (t : Text) (pos : Nat) (bytes : Text) :
    (overwrite t pos bytes).length = max t.length (pos + bytes.length) := by
  rw [overwrite, List.length_append, List.length_append, List.length_take, List.rightpad,
    List.length_append, List.length_replicate, List.length_drop]
  omega

/-- Inside the slice stands the slice. -/
theorem getElem?_overwrite_inside {t bytes : Text} {pos k : Nat} (from_ : pos ≤ k)
    (to_ : k < pos + bytes.length) : (overwrite t pos bytes)[k]? = bytes[k - pos]? := by
  have cut : ((t.rightpad pos (Char.ofNat 0)).take pos).length = pos := by
    rw [List.length_take, List.rightpad, List.length_append, List.length_replicate]
    omega
  rw [overwrite, List.append_assoc, List.getElem?_append_right (by omega), cut,
    List.getElem?_append_left (by omega)]

/-- Outside the slice the file is what it was. -/
theorem getElem?_overwrite_outside {t bytes : Text} {pos k : Nat} (old : k < t.length)
    (outside : k < pos ∨ pos + bytes.length ≤ k) : (overwrite t pos bytes)[k]? = t[k]? := by
  have cut : ((t.rightpad pos (Char.ofNat 0)).take pos).length = pos := by
    rw [List.length_take, List.rightpad, List.length_append, List.length_replicate]
    omega
  rw [overwrite, List.append_assoc]
  rcases outside with before | behind
  · rw [List.getElem?_append_left (by omega), List.getElem?_take_of_lt before, List.rightpad,
      List.getElem?_append_left old]
  · rw [List.getElem?_append_right (by omega), cut, List.getElem?_append_right (by omega),
      List.getElem?_drop]
    congr 1
    omega

/-! ## All writes -/

/-- A file no longer than the text, which has the text at the places of `written`. -/
structure Partial (text : Text) (written : List (Nat × Text)) (file : Text) : Prop where
  short : file.length ≤ text.length
  agrees : ∀ s ∈ written, ∀ k, s.1 ≤ k → k < s.1 + s.2.length → file[k]? = text[k]?

theorem PartAt.getElem? {text : Text} {s : Nat × Text} (part : PartAt text s) {k : Nat}
    (from_ : s.1 ≤ k) (to_ : k < s.1 + s.2.length) : s.2[k - s.1]? = text[k]? := by
  obtain ⟨before, after, rfl, start⟩ := part
  rw [List.append_assoc, List.getElem?_append_right (by omega), start,
    List.getElem?_append_left (by omega)]

theorem PartAt.within {text : Text} {s : Nat × Text} (part : PartAt text s) :
    s.1 + s.2.length ≤ text.length := by
  obtain ⟨before, after, rfl, start⟩ := part
  rw [List.length_append, List.length_append]
  omega

/-- One more slice of the text is written. -/
theorem Partial.write {text file : Text} {written : List (Nat × Text)} {s : Nat × Text}
    (sofar : Partial text written file) (part : PartAt text s) :
    Partial text (s :: written) (overwrite file s.1 s.2) where
  short := by
    rw [length_overwrite]
    exact Nat.max_le.mpr ⟨sofar.short, part.within⟩
  agrees x mem k from_ to_ := by
    rcases List.mem_cons.mp mem with rfl | old
    · rw [getElem?_overwrite_inside from_ to_, part.getElem? from_ to_]
    · have was := sofar.agrees x old k from_ to_
      by_cases inside : s.1 ≤ k ∧ k < s.1 + s.2.length
      · rw [getElem?_overwrite_inside inside.1 inside.2, part.getElem? inside.1 inside.2]
      · by_cases there : k < file.length
        · rw [getElem?_overwrite_outside there (by omega), was]
        · -- the file already ended where the text does
          rw [List.getElem?_eq_none (by omega)] at was
          have beyond := List.getElem?_eq_none_iff.mp was.symm
          have le := part.within
          rw [← was, List.getElem?_eq_none]
          rw [length_overwrite]
          have := sofar.short
          omega

theorem Partial.overlay {text : Text} {slices : List (Nat × Text)} :
    ∀ {written : List (Nat × Text)} {file : Text}, Partial text written file →
      (∀ s ∈ slices, PartAt text s) →
        Partial text (slices.reverse ++ written) (overlay slices file) := by
  induction slices with
  | nil =>
      intro written file sofar _
      exact sofar
  | cons s slices ih =>
      intro written file sofar parts
      have next := ih (sofar.write (parts s List.mem_cons_self))
        fun x mem => parts x (List.mem_cons_of_mem s mem)
      rw [List.reverse_cons, List.append_assoc, List.singleton_append]
      exact next

/-- Slices of a text that cover it make the text, in whatever order they are written. -/
theorem overlay_slices {text : Text} {slices : List (Nat × Text)}
    (parts : ∀ s ∈ slices, PartAt text s)
    (cover : ∀ k, k < text.length → ∃ s ∈ slices, s.1 ≤ k ∧ k < s.1 + s.2.length) :
    overlay slices [] = text := by
  have start : Partial text [] [] := ⟨Nat.zero_le _, fun x mem => (List.not_mem_nil mem).elim⟩
  have all := start.overlay parts
  apply List.ext_getElem?
  intro k
  by_cases inside : k < text.length
  · obtain ⟨s, mem, from_, to_⟩ := cover k inside
    exact all.agrees s (List.mem_append_left _ (List.mem_reverse.mpr mem)) k from_ to_
  · have short := all.short
    rw [List.getElem?_eq_none (by omega), List.getElem?_eq_none (by omega)]

/-! ## Records one behind the other -/

/-- Where a record begins. -/
def offset {n : Nat} (record : Fin n → Text) (i : Fin n) : Nat :=
  ((List.ofFn record).take i).flatten.length

theorem partAt_record {n : Nat} (record : Fin n → Text) (i : Fin n) :
    PartAt (List.ofFn record).flatten (offset record i, record i) := by
  refine ⟨((List.ofFn record).take i).flatten, ((List.ofFn record).drop (i + 1)).flatten, ?_, rfl⟩
  have at_ : (i : Nat) < (List.ofFn record).length := by simp
  have split := List.take_append_drop i (List.ofFn record)
  rw [List.drop_eq_getElem_cons at_, List.getElem_ofFn] at split
  have flat := congrArg List.flatten split
  rw [List.flatten_append, List.flatten_cons, ← List.append_assoc] at flat
  exact flat.symm

/-- Every place of a flattened list lies in one of its parts. -/
theorem exists_part {X : Type*} (parts : List (List X)) {k : Nat}
    (inside : k < parts.flatten.length) :
    ∃ i, ∃ at_ : i < parts.length, (parts.take i).flatten.length ≤ k ∧
      k < (parts.take i).flatten.length + (parts.get ⟨i, at_⟩).length := by
  induction parts generalizing k with
  | nil => simp at inside
  | cons part parts ih =>
      rw [List.flatten_cons, List.length_append] at inside
      by_cases first : k < part.length
      · exact ⟨0, Nat.succ_pos _, Nat.zero_le k, by simpa using first⟩
      · obtain ⟨i, at_, from_, to_⟩ := ih (k := k - part.length) (by omega)
        refine ⟨i + 1, Nat.succ_lt_succ at_, ?_, ?_⟩
        · rw [List.take_succ_cons, List.flatten_cons, List.length_append]
          omega
        · rw [List.take_succ_cons, List.flatten_cons, List.length_append]
          simp only [List.get_eq_getElem, List.getElem_cons_succ] at to_ ⊢
          omega

/-- Records written at their offsets, in whatever order, follow one another. -/
theorem overlay_records {n : Nat} (record : Fin n → Text) {order : List (Fin n)}
    (every : ∀ i, i ∈ order) :
    overlay (order.map fun i => (offset record i, record i)) [] = (List.ofFn record).flatten := by
  apply overlay_slices
  · intro s mem
    obtain ⟨i, _, rfl⟩ := List.mem_map.mp mem
    exact partAt_record record i
  · intro k inside
    obtain ⟨i, at_, from_, to_⟩ := exists_part (List.ofFn record) inside
    have bound : i < n := by simpa using at_
    refine ⟨_, List.mem_map.mpr ⟨⟨i, bound⟩, every _, rfl⟩, from_, ?_⟩
    rw [List.get_eq_getElem, List.getElem_ofFn] at to_
    exact to_

/-- The records before the next one are those before this one, and this one. -/
theorem flatten_take_succ {n : Nat} (record : Fin n → Text) (i : Fin n) :
    ((List.ofFn record).take (i + 1)).flatten =
      ((List.ofFn record).take i).flatten ++ record i := by
  have at_ : (i : Nat) < (List.ofFn record).length := by simp
  rw [List.take_add_one, List.getElem?_eq_getElem at_, List.getElem_ofFn, List.flatten_append]
  simp

/-- Each record begins where the one before it ends. -/
theorem offset_succ {n : Nat} (record : Fin n → Text) (i : Fin n) (next : (i : Nat) + 1 < n) :
    offset record ⟨i + 1, next⟩ = offset record i + (record i).length := by
  rw [offset, flatten_take_succ, List.length_append, offset]

end Stdio
