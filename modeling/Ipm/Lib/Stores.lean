import Mathlib.Data.List.Basic
import Mathlib.Data.List.Pairwise
import Mathlib.Algebra.Group.Int.Defs
import Mathlib.Algebra.Group.Basic

/-!
# Arrays with a record of the stores

Named arrays of one kind of values, and the stores made into them, each of some values from one
place on.  What an array holds is what was stored there last.

* `read_of_apart`: where the stores keep apart, each of them is still there at the end.
* `loop_stores`: a loop stores what its rounds store, one after the other.
-/

namespace Stores

universe u v

/-- A store of values from a place of an array on. -/
structure Store (A : Type u) (V : Type v) where
  array : A
  pos : Int
  values : List V
deriving DecidableEq

/-- What arrays held at the start, and the stores since then. -/
structure Arrays (A : Type u) (V : Type v) where
  start : A → Int → V
  stores : List (Store A V)

variable {A : Type u} {V : Type v}

/-- The store writes this place. -/
def Store.Covers (s : Store A V) (a : A) (p : Int) : Prop :=
  s.array = a ∧ s.pos ≤ p ∧ p < s.pos + s.values.length

instance [DecidableEq A] (s : Store A V) (a : A) (p : Int) : Decidable (s.Covers a p) :=
  inferInstanceAs (Decidable (_ ∧ _ ∧ _))

/-- No place is written by both. -/
def Store.Apart (s t : Store A V) : Prop := ∀ a p, ¬ (s.Covers a p ∧ t.Covers a p)

def Arrays.put (f : Arrays A V) (a : A) (pos : Int) (values : List V) : Arrays A V :=
  { f with stores := f.stores ++ [⟨a, pos, values⟩] }

@[simp] theorem put_stores (f : Arrays A V) (a : A) (pos : Int) (values : List V) :
    (f.put a pos values).stores = f.stores ++ [⟨a, pos, values⟩] := rfl

/-! ## Loops -/

/-- A loop stores what its rounds store, one after the other, as long as each round finds
what the ones before it keep. -/
theorem loop_stores {body : Arrays A V → Nat → Arrays A V} {out : Nat → List (Store A V)}
    (Inv : Nat → Arrays A V → Prop) {n : Nat}
    (round : ∀ f i, i < n → Inv i f →
      (body f i).stores = f.stores ++ out i ∧ Inv (i + 1) (body f i))
    {f : Arrays A V} (init : Inv 0 f) :
    ((List.range n).foldl body f).stores = f.stores ++ (List.range n).flatMap out ∧
      Inv n ((List.range n).foldl body f) := by
  induction n with
  | zero => exact ⟨(List.append_nil _).symm, init⟩
  | succ n ih =>
      rcases ih fun f i below => round f i (Nat.lt_succ_of_lt below) with ⟨stored, inv⟩
      rcases round _ n (Nat.lt_succ_self n) inv with ⟨added, next⟩
      rw [List.range_succ, List.foldl_append, List.foldl_cons, List.foldl_nil, added, stored,
        List.flatMap_append, List.flatMap_singleton, List.append_assoc]
      exact ⟨rfl, next⟩

/-- The rounds of a loop that looks at nothing. -/
theorem loop_stores_of_body {body : Arrays A V → Nat → Arrays A V} {out : Nat → List (Store A V)}
    (round : ∀ f i, (body f i).stores = f.stores ++ out i) (f : Arrays A V) (n : Nat) :
    ((List.range n).foldl body f).stores = f.stores ++ (List.range n).flatMap out :=
  (loop_stores (fun _ _ => True) (fun f i _ _ => ⟨round f i, trivial⟩) trivial).1

/-! ## What the arrays hold -/

variable [DecidableEq A]

/-- The value of a place after a store. -/
def Store.value (s : Store A V) (a : A) (p : Int) (old : V) : V :=
  if s.Covers a p then (s.values[(p - s.pos).toNat]?).getD old else old

/-- What a place holds. -/
def Arrays.read (f : Arrays A V) (a : A) (p : Int) : V :=
  f.stores.foldl (fun old s => s.value a p old) (f.start a p)

/-- The stores into one array. -/
def Arrays.into (f : Arrays A V) (a : A) : List (Store A V) := f.stores.filter (·.array = a)

theorem read_put (f : Arrays A V) (a b : A) (pos p : Int) (values : List V) :
    (f.put b pos values).read a p = Store.value ⟨b, pos, values⟩ a p (f.read a p) := by
  unfold Arrays.read
  rw [put_stores, List.foldl_append]
  rfl

/-- A store elsewhere leaves a place. -/
theorem read_put_of_not_covers (f : Arrays A V) {a b : A} {pos p : Int} {values : List V}
    (other : ¬ Store.Covers ⟨b, pos, values⟩ a p) : (f.put b pos values).read a p = f.read a p := by
  rw [read_put, Store.value, if_neg other]

/-- A store into another array does. -/
theorem read_put_other (f : Arrays A V) {a b : A} (other : b ≠ a) (pos p : Int)
    (values : List V) : (f.put b pos values).read a p = f.read a p :=
  read_put_of_not_covers f fun covers => other covers.1

theorem foldl_value_of_not_covers {stores : List (Store A V)} {a : A} {p : Int}
    (none : ∀ s ∈ stores, ¬ s.Covers a p) (old : V) :
    stores.foldl (fun old s => s.value a p old) old = old := by
  induction stores generalizing old with
  | nil => rfl
  | cons s stores ih =>
      rw [List.foldl_cons, Store.value, if_neg (none s List.mem_cons_self)]
      exact ih (fun t mem => none t (List.mem_cons_of_mem s mem)) old

/-- A place has the value of the last store that covers it. -/
theorem read_of_last {f : Arrays A V} {before after : List (Store A V)} {s : Store A V}
    (split : f.stores = before ++ s :: after) {k : Nat} (inside : k < s.values.length)
    (last : ∀ t ∈ after, ¬ t.Covers s.array (s.pos + k)) :
    f.read s.array (s.pos + k) = s.values.get ⟨k, inside⟩ := by
  have covers : s.Covers s.array (s.pos + k) := ⟨rfl, by omega, by omega⟩
  unfold Arrays.read
  rw [split, List.foldl_append, List.foldl_cons, foldl_value_of_not_covers last, Store.value,
    if_pos covers, add_sub_cancel_left, Int.toNat_natCast, List.getElem?_eq_getElem inside,
    Option.getD_some, List.get_eq_getElem]

/-- Where the stores into an array keep apart, each of them is still there at the end. -/
theorem read_of_apart {f : Arrays A V} {a : A} (apart : (f.into a).Pairwise Store.Apart)
    {s : Store A V} (mem : s ∈ f.into a) {k : Nat} (inside : k < s.values.length) :
    f.read a (s.pos + k) = s.values.get ⟨k, inside⟩ := by
  rcases List.mem_filter.mp mem with ⟨stored, here⟩
  have array := of_decide_eq_true here
  rcases List.append_of_mem stored with ⟨before, after, split⟩
  have later : ∀ t ∈ after, ¬ t.Covers s.array (s.pos + k) := by
    intro t behind covers
    unfold Arrays.into at apart
    rw [split, List.filter_append,
      List.filter_cons_of_pos (p := fun x : Store A V => decide (x.array = a)) here] at apart
    have pairs := (List.pairwise_cons.mp (List.pairwise_append.mp apart).2.1).1
    have there : t ∈ after.filter (·.array = a) :=
      List.mem_filter.mpr ⟨behind, decide_eq_true (covers.1.trans array)⟩
    exact pairs t there s.array (s.pos + k) ⟨⟨rfl, by omega, by omega⟩, covers⟩
  rw [← array]
  exact read_of_last split inside later

end Stores
