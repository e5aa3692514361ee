import Mathlib.Data.List.Basic
import Mathlib.Data.List.TakeDrop

/-!
# Fields with a zero behind each

A list of fields laid out in memory, each with a zero (`none`) behind it, and the scan that joins
them where they lie: it writes `gap` over every zero, up to one that has another in front of it.

* `filled_image`: the fields joined by `gap`, and one more behind.
* `joinScan_append`: the scan over memory in which no two zeros are next to each other.
* `Gapless.image`: so it is where no field is empty.
-/

namespace Fields

universe u

variable {A : Type u}

def image (fields : List (List A)) : List (Option A) := fields.flatMap fun f => f.map some ++ [none]

/-- The text with `gap` for every zero. -/
def filled (gap : A) (mem : List (Option A)) : List A := mem.map fun b => b.getD gap

/-- The scan; `ii` is whether there is a zero in front. -/
def joinScan (gap : A) : Bool → List (Option A) → List (Option A)
  | _, [] => []
  | _, some c :: mem => some c :: joinScan gap false mem
  | false, none :: mem => some gap :: joinScan gap true mem
  | true, none :: mem => none :: mem

/-- No two zeros are next to each other, `ii` being whether there is one in front and `ii'` whether
the last element is one. -/
inductive Gapless : Bool → List (Option A) → Bool → Prop
  | nil (ii : Bool) : Gapless ii [] ii
  | char {ii ii' : Bool} {mem : List (Option A)} (c : A) (rest : Gapless false mem ii') :
      Gapless ii (some c :: mem) ii'
  | zero {ii' : Bool} {mem : List (Option A)} (rest : Gapless true mem ii') :
      Gapless false (none :: mem) ii'

/-! ## Images -/

@[simp] theorem image_cons (f : List A) (fields : List (List A)) :
    image (f :: fields) = f.map some ++ none :: image fields := by
  unfold image
  rw [List.flatMap_cons, List.append_assoc]
  rfl

@[simp] theorem image_append (fields more : List (List A)) :
    image (fields ++ more) = image fields ++ image more := List.flatMap_append

@[simp] theorem filled_append (gap : A) (mem more : List (Option A)) :
    filled gap (mem ++ more) = filled gap mem ++ filled gap more := List.map_append

@[simp] theorem length_filled (gap : A) (mem : List (Option A)) :
    (filled gap mem).length = mem.length := List.length_map _

@[simp] theorem filled_some (gap : A) (f : List A) : filled gap (f.map some) = f := by
  unfold filled
  rw [List.map_map]
  exact List.map_id f

theorem filled_image_cons (gap : A) (f : List A) (fields : List (List A)) :
    filled gap (image (f :: fields)) = f ++ gap :: filled gap (image fields) := by
  rw [image_cons, filled_append, filled_some]
  rfl

/-- An empty field is a zero alone. -/
theorem image_append_nil_cons (front back : List (List A)) :
    image (front ++ [] :: back) = image front ++ none :: image back := by
  rw [image_append, image_cons]
  rfl

theorem image_ne_nil {fields : List (List A)} (some : fields ≠ []) : image fields ≠ [] := by
  cases fields with
  | nil => exact absurd rfl some
  | cons f fields =>
      rw [image_cons]
      exact List.append_ne_nil_of_right_ne_nil _ (List.cons_ne_nil _ _)

/-- With `gap` for its zeros an image is the fields joined, and one more behind. -/
theorem filled_image (gap : A) {fields : List (List A)} (some : fields ≠ []) :
    filled gap (image fields) = [gap].intercalate fields ++ [gap] := by
  induction fields with
  | nil => exact absurd rfl some
  | cons f fields ih =>
      cases fields with
      | nil =>
          rw [filled_image_cons]
          simp [List.intercalate, image, filled]
      | cons g fields =>
          rw [filled_image_cons, ih (List.cons_ne_nil g fields)]
          simp [List.intercalate]

/-! ## The scan -/

theorem length_joinScan (gap : A) (ii : Bool) (mem : List (Option A)) :
    (joinScan gap ii mem).length = mem.length := by
  induction mem generalizing ii with
  | nil => rfl
  | cons b mem ih =>
      cases b with
      | some c => exact congrArg Nat.succ (ih false)
      | none =>
          cases ii with
          | false => exact congrArg Nat.succ (ih true)
          | true => rfl

/-- The scan fills memory without two zeros next to each other, and goes on behind it. -/
theorem joinScan_append (gap : A) {ii ii' : Bool} {mem : List (Option A)}
    (gapless : Gapless ii mem ii') (rest : List (Option A)) :
    joinScan gap ii (mem ++ rest) = (filled gap mem).map some ++ joinScan gap ii' rest := by
  induction gapless with
  | nil ii => rfl
  | char c _ ih => exact congrArg (List.cons (some c)) ih
  | zero _ ih => exact congrArg (List.cons (some gap)) ih

theorem Gapless.append {ii ii' ii'' : Bool} {mem rest : List (Option A)}
    (front : Gapless ii mem ii') (back : Gapless ii' rest ii'') :
    Gapless ii (mem ++ rest) ii'' := by
  induction front with
  | nil => exact back
  | char c _ ih => exact .char c (ih back)
  | zero _ ih => exact .zero (ih back)

/-- A field that is not empty. -/
theorem Gapless.field (ii : Bool) {f : List A} (some : f ≠ []) :
    Gapless ii (f.map Option.some ++ [none]) true := by
  induction f generalizing ii with
  | nil => exact absurd rfl some
  | cons c f ih =>
      refine .char c ?_
      cases f with
      | nil => exact .zero (.nil true)
      | cons d f => exact ih false (List.cons_ne_nil d f)

/-- Fields of which none is empty. -/
theorem Gapless.image {fields : List (List A)} (full : [] ∉ fields) :
    Gapless true (image fields) true := by
  induction fields with
  | nil => exact .nil true
  | cons f fields ih =>
      rw [List.mem_cons, not_or] at full
      rw [image_cons, List.append_cons]
      exact (Gapless.field true (Ne.symm full.1)).append (ih full.2)

theorem Gapless.take {ii ii' : Bool} {mem : List (Option A)} (gapless : Gapless ii mem ii')
    (n : Nat) : ∃ ii'', Gapless ii (mem.take n) ii'' := by
  induction gapless generalizing n with
  | nil ii =>
      rw [List.take_nil]
      exact ⟨ii, .nil ii⟩
  | @char ii _ mem c _ ih =>
      cases n with
      | zero => exact ⟨ii, .nil ii⟩
      | succ n =>
          rcases ih n with ⟨ii'', front⟩
          exact ⟨ii'', .char c front⟩
  | zero _ ih =>
      cases n with
      | zero => exact ⟨false, .nil false⟩
      | succ n =>
          rcases ih n with ⟨ii'', front⟩
          exact ⟨ii'', .zero front⟩

theorem Gapless.last {ii ii' : Bool} {mem : List (Option A)} {b : Option A}
    (gapless : Gapless ii (mem ++ [b]) ii') : ii' = b.isNone := by
  induction mem generalizing ii with
  | nil =>
      cases gapless with
      | char c rest => cases rest; rfl
      | zero rest => cases rest; rfl
  | cons a mem ih =>
      cases gapless with
      | char c rest => exact ih rest
      | zero rest => exact ih rest

theorem image_eq_nil_or_append (fields : List (List A)) :
    Fields.image fields = [] ∨ ∃ mem, Fields.image fields = mem ++ [none] := by
  induction fields with
  | nil => exact Or.inl rfl
  | cons f fields ih =>
      refine Or.inr ?_
      rw [image_cons]
      rcases ih with nothing | ⟨mem, more⟩
      · exact ⟨f.map some, by rw [nothing]⟩
      · exact ⟨f.map some ++ none :: mem, by rw [more, List.append_assoc]; rfl⟩

/-- The scan of the front of an image ends with a zero exactly when the front is all of it or is
cut behind a zero. -/
theorem Gapless.front_iff {fields : List (List A)} {n : Nat} {ii' : Bool}
    (gapless : Gapless true ((Fields.image fields).take (n + 1)) ii') :
    ((Fields.image fields).length ≤ n + 1 ∨ (Fields.image fields)[n]? = some none) ↔
      ii' = true := by
  rcases Nat.lt_or_ge (n + 1) (Fields.image fields).length with cut | whole
  · rw [List.take_succ_eq_append_getElem (Nat.lt_of_succ_lt cut)] at gapless
    rw [or_iff_right (Nat.not_le.mpr cut), List.getElem?_eq_getElem (Nat.lt_of_succ_lt cut),
      gapless.last, Option.isNone_iff_eq_none, Option.some_inj]
  · rw [List.take_of_length_le whole] at gapless
    refine iff_of_true (Or.inl whole) ?_
    rcases image_eq_nil_or_append fields with nothing | ⟨mem, last⟩
    · rw [nothing] at gapless
      cases gapless
      rfl
    · rw [last] at gapless
      exact gapless.last

/-- Memory that ends with a zero has one. -/
theorem Gapless.mem_of_last {ii : Bool} {mem : List (Option A)} (gapless : Gapless ii mem true)
    (some : mem ≠ []) : none ∈ mem := by
  rcases List.eq_nil_or_concat mem with nothing | ⟨front, b, rfl⟩
  · exact absurd nothing some
  · rw [List.concat_eq_append] at gapless ⊢
    have zero : b = none := Option.isNone_iff_eq_none.mp gapless.last.symm
    rw [zero]
    exact List.mem_append_right front List.mem_cons_self

end Fields
