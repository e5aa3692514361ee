import Mathlib.Algebra.BigOperators.Group.List.Basic
import Mathlib.Data.List.AList
import Mathlib.Logic.Function.Basic
import Mathlib.Order.Lattice

/-!
# Tallies by key

Hash tables whose entries are made and changed one key at a time, and the running sum and
extremes of values that come with a source.

* `Table.lookup_each`, `Table.lookup_foldl_each`: an entry depends on the values of its key.
* `foldl_entry`, `foldl_total`, `foldl_sum`: an entry or a sum that the elements of a list
  change one by one.
* `Tally.Of.add`, `Tally.of_foldl`: a running tally is right about the values so far.
* `Tally.Of.stats_eq_of_perm`: the sum and the extremes do not depend on their order.
-/

namespace Tallies

universe u v w x y

/-! ## Tables -/

/-- A hash table with the order its keys are visited in. -/
abbrev Table (Key : Type u) (V : Type v) := AList fun _ : Key => V

namespace Table

variable {Key : Type u} {V : Type v} {E : Type w} {T : Type x} {R : Type y}
  [DecidableEq Key]

/-- For each key of `values`, make the entry of the key from what it was and the value. -/
def each (step : Option E → V → E) (table : Table Key E) (values : Table Key V) :
    Table Key E :=
  values.entries.foldl
    (fun table kv => table.insert kv.1 (step (table.lookup kv.1) kv.2)) table

theorem lookup_each (step : Option E → V → E) (table : Table Key E) (values : Table Key V)
    (k : Key) : (each step table values).lookup k =
      match values.lookup k with
      | none => table.lookup k
      | some v => some (step (table.lookup k) v) := by
  obtain ⟨entries, nodup⟩ := values
  unfold each AList.lookup
  dsimp only
  induction entries generalizing table with
  | nil => rfl
  | cons kv entries ih =>
      obtain ⟨fresh, nodup⟩ := List.nodupKeys_cons.1 nodup
      rw [List.foldl_cons, ih _ nodup]
      by_cases same : k = kv.1
      · -- The key is not among the others.
        subst same
        rw [List.dlookup_eq_none.2 fresh, List.dlookup_cons_eq]
        exact AList.lookup_insert table
      · rw [List.dlookup_cons_ne _ _ same]
        have kept : (table.insert kv.1 (step (table.lookup kv.1) kv.2)).lookup k =
            table.lookup k := AList.lookup_insert_ne same
        unfold AList.lookup at kept
        cases List.dlookup k entries with
        | none => exact kept
        | some v => exact congrArg (fun e => some (step e v)) kept

/-- After several tables of values, an entry has seen the values of its key in turn, each
with the label of its table. -/
theorem lookup_foldl_each (step : R → Option E → V → E) (label : T → R)
    (values : T → Table Key V) (table : Table Key E) (ts : List T) (k : Key) :
    (ts.foldl (fun table t => each (step (label t)) table (values t)) table).lookup k =
      (ts.filterMap fun t => ((values t).lookup k).map (Prod.mk (label t))).foldl
        (fun e x => some (step x.1 e x.2)) (table.lookup k) := by
  induction ts generalizing table with
  | nil => rfl
  | cons t ts ih =>
      rw [List.foldl_cons, ih, lookup_each, List.filterMap_cons]
      cases (values t).lookup k <;> rfl

/-- The same when the labels do not matter. -/
theorem lookup_foldl_each_const (step : Option E → V → E) (values : T → Table Key V)
    (table : Table Key E) (ts : List T) (k : Key) :
    (ts.foldl (fun table t => each step table (values t)) table).lookup k =
      (ts.filterMap fun t => (values t).lookup k).foldl
        (fun e v => some (step e v)) (table.lookup k) := by
  induction ts generalizing table with
  | nil => rfl
  | cons t ts ih =>
      rw [List.foldl_cons, ih, lookup_each, List.filterMap_cons]
      cases (values t).lookup k <;> rfl

end Table

/-! ## Entries and sums of a fold -/

section Fold

variable {S : Type u} {A : Type v} {Key : Type w} {E : Type x} [DecidableEq Key]

/-- An entry that every element changes under its own key has seen the elements of the key. -/
theorem foldl_entry {step : S → A → S} (entry : S → Key → E) {key : A → Key} {change : E → A → E}
    (changes : ∀ s a, entry (step s a) =
      Function.update (entry s) (key a) (change (entry s (key a)) a))
    (as : List A) (s : S) (k : Key) : entry (as.foldl step s) k =
      (as.filter fun a => key a = k).foldl change (entry s k) := by
  induction as generalizing s with
  | nil => rfl
  | cons a as ih =>
      rw [List.foldl_cons, ih, changes, List.filter_cons]
      by_cases same : key a = k
      · subst same
        rw [Function.update_self, if_pos (decide_eq_true rfl), List.foldl_cons]
      · rw [Function.update_of_ne (Ne.symm same), if_neg (by rwa [decide_eq_true_iff])]

/-- A sum to which every element adds its amount. -/
theorem foldl_total {M : Type y} [AddMonoid M] {step : S → A → S} (get : S → M) {amount : A → M}
    (adds : ∀ s a, get (step s a) = get s + amount a) (as : List A) (s : S) :
    get (as.foldl step s) = get s + (as.map amount).sum := by
  induction as generalizing s with
  | nil => exact (add_zero _).symm
  | cons a as ih => rw [List.foldl_cons, ih, adds, add_assoc, List.map_cons, List.sum_cons]

/-- A sum to which the elements with a property add their amounts. -/
theorem foldl_sum {M : Type y} [AddMonoid M] {step : S → A → S} (get : S → M) {P : A → Prop}
    [DecidablePred P] {amount : A → M}
    (adds : ∀ s a, get (step s a) = get s + if P a then amount a else 0) (as : List A) (s : S) :
    get (as.foldl step s) = get s + ((as.filter fun a => P a).map amount).sum := by
  induction as generalizing s with
  | nil => exact (add_zero _).symm
  | cons a as ih =>
      rw [List.foldl_cons, ih, adds, add_assoc, List.filter_cons]
      by_cases has : P a
      · rw [if_pos has, if_pos (decide_eq_true has), List.map_cons, List.sum_cons]
      · rw [if_neg has, if_neg (by rwa [decide_eq_true_iff]), zero_add]

end Fold

/-! ## Sums and extremes -/

/-- The sum of some values, the least and the greatest of them, and where these are from. -/
structure Tally (R : Type u) (K : Type v) where
  sum : K
  min : K
  minAt : R
  max : K
  maxAt : R
  deriving DecidableEq

namespace Tally

variable {R : Type u} {K : Type v}

/-- The tally of one value. -/
def single (r : R) (v : K) : Tally R K := ⟨v, v, r, v, r⟩

/-- What does not depend on the order of the values. -/
def stats (t : Tally R K) : K × K × K := (t.sum, t.min, t.max)

variable [LinearOrder K]

/-- One value more. -/
def add [Add K] (t : Tally R K) (r : R) (v : K) : Tally R K where
  sum := t.sum + v
  min := if v < t.min then v else t.min
  minAt := if v < t.min then r else t.minAt
  max := if t.max < v then v else t.max
  maxAt := if t.max < v then r else t.maxAt

/-- The entry of a value in a table of tallies. -/
def note [Add K] (r : R) : Option (Tally R K) → K → Tally R K
  | none, v => single r v
  | some t, v => t.add r v

/-- The tally is right about these values. -/
structure Of [Add K] [Zero K] (t : Tally R K) (xs : List (R × K)) : Prop where
  sum : t.sum = (xs.map Prod.snd).sum
  min_le : ∀ x ∈ xs, t.min ≤ x.2
  minAt : (t.minAt, t.min) ∈ xs
  le_max : ∀ x ∈ xs, x.2 ≤ t.max
  maxAt : (t.maxAt, t.max) ∈ xs

section

variable [AddMonoid K]

theorem of_single (r : R) (v : K) : (single r v).Of [(r, v)] where
  sum := (add_zero v).symm
  min_le := by
    intro x mem
    rw [List.mem_singleton.1 mem]
    exact le_refl v
  minAt := List.mem_singleton.2 rfl
  le_max := by
    intro x mem
    rw [List.mem_singleton.1 mem]
    exact le_refl v
  maxAt := List.mem_singleton.2 rfl

/-- A right tally stays right. -/
theorem Of.add {t : Tally R K} {xs : List (R × K)} (right : t.Of xs) (r : R) (v : K) :
    (t.add r v).Of (xs ++ [(r, v)]) := by
  have least : ∀ x ∈ xs ++ [(r, v)], (t.add r v).min ≤ x.2 := by
    intro x mem
    unfold Tally.add
    dsimp only
    rcases List.mem_append.1 mem with old | new
    · split
      · next less => exact le_of_lt (lt_of_lt_of_le less (right.min_le x old))
      · exact right.min_le x old
    · rw [List.mem_singleton.1 new]
      split
      · exact le_refl v
      · next more => exact not_lt.1 more
  have greatest : ∀ x ∈ xs ++ [(r, v)], x.2 ≤ (t.add r v).max := by
    intro x mem
    unfold Tally.add
    dsimp only
    rcases List.mem_append.1 mem with old | new
    · split
      · next more => exact le_of_lt (lt_of_le_of_lt (right.le_max x old) more)
      · exact right.le_max x old
    · rw [List.mem_singleton.1 new]
      split
      · exact le_refl v
      · next less => exact not_lt.1 less
  refine ⟨?_, least, ?_, greatest, ?_⟩
  · rw [List.map_append, List.sum_append, ← right.sum]
    change t.sum + v = t.sum + (v + 0)
    rw [add_zero]
  · unfold Tally.add
    dsimp only
    split
    · exact List.mem_append_right _ (List.mem_singleton.2 rfl)
    · exact List.mem_append_left _ right.minAt
  · unfold Tally.add
    dsimp only
    split
    · exact List.mem_append_right _ (List.mem_singleton.2 rfl)
    · exact List.mem_append_left _ right.maxAt

/-- A run of values from a right tally. -/
theorem Of.foldl {t : Tally R K} {xs : List (R × K)} (right : t.Of xs) (ys : List (R × K)) :
    (ys.foldl (fun t y => t.add y.1 y.2) t).Of (xs ++ ys) := by
  induction ys generalizing t xs with
  | nil =>
      rw [List.append_nil]
      exact right
  | cons y ys ih =>
      rw [List.append_cons]
      exact ih (right.add y.1 y.2)

/-- The entry of a table of tallies is right about the values of its key. -/
theorem of_foldl_note {xs : List (R × K)} (nonempty : xs ≠ []) :
    ∃ t : Tally R K, xs.foldl (fun e x => some (note x.1 e x.2)) none = some t ∧ t.Of xs := by
  cases xs with
  | nil => exact absurd rfl nonempty
  | cons x xs =>
      have entry : ∀ (t : Tally R K) (ys : List (R × K)),
          ys.foldl (fun e y => some (note y.1 e y.2)) (some t) =
            some (ys.foldl (fun t y => t.add y.1 y.2) t) := by
        intro t ys
        induction ys generalizing t with
        | nil => rfl
        | cons y ys ih => exact ih (t.add y.1 y.2)
      exact ⟨_, entry (single x.1 x.2) xs, (of_single x.1 x.2).foldl xs⟩

/-- The greatest value is also the least exactly when all values are the same. -/
theorem Of.max_eq_min_iff {t : Tally R K} {xs : List (R × K)} (right : t.Of xs) :
    t.max = t.min ↔ ∀ x ∈ xs, ∀ y ∈ xs, x.2 = y.2 := by
  constructor
  · intro same x memX y memY
    have value : ∀ z ∈ xs, z.2 = t.min := fun z mem =>
      le_antisymm (same ▸ right.le_max z mem) (right.min_le z mem)
    rw [value x memX, value y memY]
  · exact fun same => same _ right.maxAt _ right.minAt

end

/-- The order of the values does not matter. -/
theorem Of.perm [AddCommMonoid K] {t : Tally R K} {xs ys : List (R × K)} (right : t.Of xs)
    (perm : xs.Perm ys) : t.Of ys where
  sum := right.sum.trans (perm.map _).sum_eq
  min_le := fun y mem => right.min_le y (perm.mem_iff.2 mem)
  minAt := perm.mem_iff.1 right.minAt
  le_max := fun y mem => right.le_max y (perm.mem_iff.2 mem)
  maxAt := perm.mem_iff.1 right.maxAt

/-- Right tallies of the same values differ at most in where the extremes are from. -/
theorem Of.stats_eq_of_perm [AddCommMonoid K] {t u : Tally R K} {xs ys : List (R × K)}
    (right : t.Of xs) (right' : u.Of ys) (perm : xs.Perm ys) : t.stats = u.stats := by
  have sum : t.sum = u.sum := by
    rw [right.sum, right'.sum]
    exact (perm.map _).sum_eq
  have min : t.min = u.min :=
    le_antisymm (right.min_le _ (perm.mem_iff.2 right'.minAt))
      (right'.min_le _ (perm.mem_iff.1 right.minAt))
  have max : t.max = u.max :=
    le_antisymm (right'.le_max _ (perm.mem_iff.1 right.maxAt))
      (right.le_max _ (perm.mem_iff.2 right'.maxAt))
  rw [stats, stats, sum, min, max]

end Tally

end Tallies
