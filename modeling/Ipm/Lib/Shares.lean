import Mathlib.Algebra.BigOperators.Group.Finset.Piecewise
import Mathlib.Algebra.Order.Group.Multiset
import Mathlib.Algebra.BigOperators.Group.Multiset.Basic
import Mathlib.Algebra.Order.BigOperators.Group.Multiset
import Mathlib.Order.Bounds.Basic
import Mathlib.Data.Set.Lattice

/-!
# Shares of a whole

Items are shared out over slots: `A : ι → M` is the share of each slot, in a
commutative monoid of amounts or a multiset of items.

* `sum_give`: what one slot is given, the whole gains.
* `filter_sum`: when the slots sort the items, the items of one sort are the
  shares of its slots.
* `isGreatest_image_iff`, `isLeast_image_iff`: the extremes of the shares'
  extremes are the extremes of the whole.
-/

namespace Shares

variable {ι α M : Type*}

section Give

variable [DecidableEq ι] [AddCommMonoid M]

/-- Add `s` to the share of slot `i`. -/
def give (A : ι → M) (i : ι) (s : M) : ι → M := Function.update A i (A i + s)

@[simp] theorem give_self (A : ι → M) (i : ι) (s : M) : give A i s i = A i + s :=
  Function.update_self i _ A

theorem give_of_ne {i j : ι} (apart : j ≠ i) (A : ι → M) (s : M) : give A i s j = A j :=
  Function.update_of_ne apart _ A

theorem sum_give {slots : Finset ι} {i : ι} (mem : i ∈ slots) (A : ι → M) (s : M) :
    ∑ j ∈ slots, give A i s j = ∑ j ∈ slots, A j + s := by
  unfold give
  rw [Finset.sum_update_of_mem mem, ← Finset.add_sum_erase slots A mem,
    Finset.sdiff_singleton_eq_erase, add_right_comm]

end Give

/-- When every item of a slot's share is of the slot's sort, the items of a sort
are the shares of its slots. -/
theorem filter_sum {slots : Finset ι} {A : ι → Multiset α} {p : α → Prop} {q : ι → Prop}
    [DecidablePred p] [DecidablePred q] (sorted : ∀ i ∈ slots, ∀ a ∈ A i, p a ↔ q i) :
    (∑ i ∈ slots, A i).filter p = ∑ i ∈ slots with q i, A i := by
  have share : ∀ i ∈ slots, (A i).filter p = if q i then A i else 0 := by
    intro i mem
    by_cases ofSort : q i
    · rw [if_pos ofSort, Multiset.filter_eq_self]
      exact fun a inShare => (sorted i mem a inShare).mpr ofSort
    · rw [if_neg ofSort, Multiset.filter_eq_nil]
      exact fun a inShare isSort => ofSort ((sorted i mem a inShare).mp isSort)
  let sort : Multiset α →+ Multiset α :=
    ⟨⟨Multiset.filter p, Multiset.filter_zero p⟩, Multiset.filter_add p⟩
  have split : (∑ i ∈ slots, A i).filter p = ∑ i ∈ slots, (A i).filter p :=
    map_sum sort A slots
  rw [split, Finset.sum_congr rfl share, Finset.sum_filter]

/-- An amount added up over the whole is added up over the shares. -/
theorem sum_map_sum [AddCommMonoid M] (slots : Finset ι) (A : ι → Multiset α) (f : α → M) :
    ((∑ i ∈ slots, A i).map f).sum = ∑ i ∈ slots, ((A i).map f).sum :=
  map_sum (Multiset.sumAddMonoidHom.comp (Multiset.mapAddMonoidHom f)) A slots

/-- Amounts that are related one by one add up in order. -/
theorem sum_map_le_of_rel {β : Type*} [AddCommMonoid M] [Preorder M] [AddLeftMono M]
    {r : α → β → Prop} {s : Multiset α} {t : Multiset β} {f : α → M} {g : β → M}
    (rel : Multiset.Rel r s t) (le : ∀ a b, r a b → f a ≤ g b) :
    (s.map f).sum ≤ (t.map g).sum := by
  refine Multiset.sum_le_sum_of_rel_le (Multiset.rel_map.mpr ?_)
  exact rel.mono fun a _ b _ related => le a b related

/-- The copies of one item are related to as many others. -/
theorem rel_replicate_iff {β : Type*} {r : α → β → Prop} {n : Nat} {a : α} {s : Multiset β} :
    Multiset.Rel r (Multiset.replicate n a) s ↔ s.card = n ∧ ∀ b ∈ s, r a b := by
  constructor
  · intro rel
    have card := Multiset.card_eq_card_of_rel rel
    rw [Multiset.card_replicate] at card
    refine ⟨card.symm, fun b mem => ?_⟩
    rcases Multiset.exists_mem_of_rel_of_mem (Multiset.rel_flip.mpr rel) mem with
      ⟨a', copied, related⟩
    rw [Multiset.eq_of_mem_replicate copied] at related
    exact related
  · intro given
    rcases given with ⟨rfl, each⟩
    rw [← Multiset.map_const', Multiset.rel_map_left]
    exact Multiset.rel_refl_of_refl_on each

section Extremes

variable [LinearOrder α]

theorem isGreatest_of_insert {S : Set α} {a x : α} (greatest : IsGreatest (insert a S) x)
    (below : ∀ y ∈ S, a ≤ y) (inhabited : S.Nonempty) : IsGreatest S x := by
  obtain ⟨y, inS⟩ := inhabited
  refine ⟨?_, fun z inS => greatest.2 (Set.mem_insert_of_mem a inS)⟩
  rcases greatest.1 with rfl | isIn
  · have same : y = x :=
      le_antisymm (greatest.2 (Set.mem_insert_of_mem _ inS)) (below y inS)
    exact same ▸ inS
  · exact isIn

theorem isLeast_of_insert {S : Set α} {a x : α} (least : IsLeast (insert a S) x)
    (above : ∀ y ∈ S, y ≤ a) (inhabited : S.Nonempty) : IsLeast S x :=
  isGreatest_of_insert (α := αᵒᵈ) least above inhabited

theorem isGreatest_image_iff {I : Set ι} {S : ι → Set α} {m : ι → α}
    (greatest : ∀ i ∈ I, IsGreatest (S i) (m i)) (x : α) :
    IsGreatest (m '' I) x ↔ IsGreatest (⋃ i ∈ I, S i) x := by
  constructor
  · intro given
    rcases given with ⟨⟨i, mem, rfl⟩, above⟩
    refine ⟨Set.mem_biUnion mem (greatest i mem).1, ?_⟩
    intro y inUnion
    obtain ⟨j, memJ, inS⟩ := Set.mem_iUnion₂.mp inUnion
    exact ((greatest j memJ).2 inS).trans (above ⟨j, memJ, rfl⟩)
  · intro given
    rcases given with ⟨inUnion, above⟩
    obtain ⟨i, mem, inS⟩ := Set.mem_iUnion₂.mp inUnion
    have same : m i = x :=
      le_antisymm (above (Set.mem_biUnion mem (greatest i mem).1)) ((greatest i mem).2 inS)
    refine ⟨⟨i, mem, same⟩, ?_⟩
    rintro y ⟨j, memJ, rfl⟩
    exact above (Set.mem_biUnion memJ (greatest j memJ).1)

theorem isLeast_image_iff {I : Set ι} {S : ι → Set α} {m : ι → α}
    (least : ∀ i ∈ I, IsLeast (S i) (m i)) (x : α) :
    IsLeast (m '' I) x ↔ IsLeast (⋃ i ∈ I, S i) x :=
  isGreatest_image_iff (α := αᵒᵈ) least x

end Extremes

end Shares
