import Mathlib.Data.List.Basic
import Mathlib.Data.List.Induction
import Mathlib.Order.Lattice

/-!
# Control breaks

A loop over a list that is sorted by a key.  It adds up the elements of a key, and writes the sum
when an element of another key follows; the sum of the last key is left in the accumulator.

* `step_of_same`, `step_of_other`: an element of the key, and one of another.
* `run_broken`: what is written, and what is left.
-/

namespace ControlBreak

universe u v w x

variable {A : Type u} {K : Type v} {B : Type w} {G : Type x}

/-- The key of the element before, the sum, and what has been written. -/
structure State (K : Type v) (B : Type w) (G : Type x) where
  last : Option K
  acc : B
  out : List G

section

variable [DecidableEq K] (key : A → K) (start : B) (add : B → A → B) (write : K → B → G)

def step (s : State K B G) (a : A) : State K B G :=
  match s.last with
  | some k =>
      if key a ≠ k then ⟨some (key a), add start a, s.out ++ [write k s.acc]⟩
      else ⟨some (key a), add s.acc a, s.out⟩
  | none => ⟨some (key a), add s.acc a, s.out⟩

def run (as : List A) : State K B G := as.foldl (step key start add write) ⟨none, start, []⟩

/-- The sum of the elements of a key. -/
def sumOf (as : List A) (k : K) : B := (as.filter fun a => key a = k).foldl add start

variable {key start add write}

theorem step_of_same {s : State K B G} {a : A} (same : s.last = some (key a)) :
    step key start add write s a = ⟨some (key a), add s.acc a, s.out⟩ := by
  rw [step, same]
  exact if_neg (not_not.mpr rfl)

theorem step_of_other {s : State K B G} {a : A} {k : K} (last : s.last = some k)
    (other : key a ≠ k) : step key start add write s a =
      ⟨some (key a), add start a, s.out ++ [write k s.acc]⟩ := by
  rw [step, last]
  exact if_pos other

theorem run_snoc (as : List A) (a : A) : run key start add write (as ++ [a]) =
    step key start add write (run key start add write as) a := by
  rw [run, List.foldl_append]
  rfl

theorem sumOf_snoc_same {as : List A} {a : A} {k : K} (same : key a = k) :
    sumOf key start add (as ++ [a]) k = add (sumOf key start add as k) a := by
  rw [sumOf, List.filter_append, List.foldl_append, List.filter_singleton, decide_eq_true same]
  rfl

theorem sumOf_snoc_other {as : List A} {a : A} {k : K} (other : key a ≠ k) :
    sumOf key start add (as ++ [a]) k = sumOf key start add as k := by
  rw [sumOf, List.filter_append, List.filter_singleton, decide_eq_false other]
  exact congrArg (List.foldl add start) (List.append_nil _)

/-- A key that no element has. -/
theorem sumOf_of_forall_ne {as : List A} {k : K} (none : ∀ a ∈ as, key a ≠ k) :
    sumOf key start add as k = start := by
  have empty : (as.filter fun a => key a = k) = [] := by
    rw [List.filter_eq_nil_iff]
    exact fun a mem => by simpa using none a mem
  rw [sumOf, empty]
  rfl

end

section

variable [LinearOrder K] (key : A → K) (start : B) (add : B → A → B) (write : K → B → G)

/-- All keys but the last are written in order, each with its sum, and the sum of the last is
left. -/
structure Broken (as : List A) (s : State K B G) (ks : List K) : Prop where
  sorted : ks.Pairwise (· < ·)
  mem : ∀ k, k ∈ ks ↔ (∃ a ∈ as, key a = k) ∧ s.last ≠ some k
  out : s.out = ks.map fun k => write k (sumOf key start add as k)
  last : s.last = as.getLast?.map key
  acc : ∀ k, s.last = some k → s.acc = sumOf key start add as k

variable {key start add write}

/-- Another element of the last key. -/
theorem Broken.same {as : List A} {s : State K B G} {ks : List K} {a : A}
    (broken : Broken key start add write as s ks) (last : s.last = some (key a)) :
    Broken key start add write (as ++ [a]) (step key start add write s a) ks := by
  rw [step_of_same last]
  have others : ∀ k ∈ ks, key a ≠ k := by
    rintro k mem rfl
    exact ((broken.mem _).mp mem).2 last
  refine ⟨broken.sorted, fun k => ?_, ?_, ?_, ?_⟩
  · rw [broken.mem, last]
    refine and_congr_left fun other => ?_
    have ne : key a ≠ k := fun same => other (congrArg some same)
    simp [or_and_right, exists_or, ne]
  · change s.out = _
    rw [broken.out]
    refine List.map_congr_left fun k mem => ?_
    rw [sumOf_snoc_other (others k mem)]
  · rw [List.getLast?_concat]
    rfl
  · intro k is
    cases is
    rw [sumOf_snoc_same rfl, ← broken.acc _ last]

/-- An element of a key that is greater than the last. -/
theorem Broken.other {as : List A} {s : State K B G} {ks : List K} {a : A} {k₀ : K}
    (broken : Broken key start add write as s ks) (last : s.last = some k₀)
    (mem₀ : ∃ a ∈ as, key a = k₀) (upTo : ∀ x ∈ as, key x ≤ k₀) (less : k₀ < key a) :
    Broken key start add write (as ++ [a]) (step key start add write s a) (ks ++ [k₀]) := by
  rw [step_of_other last less.ne']
  have before : ∀ k ∈ ks, k < k₀ := by
    intro k mem
    rcases (broken.mem k).mp mem with ⟨⟨x, memX, rfl⟩, other⟩
    refine lt_of_le_of_ne (upTo x memX) fun same => other ?_
    rw [last, same]
  refine ⟨?_, fun k => ?_, ?_, ?_, ?_⟩
  · refine List.pairwise_append.mpr
      ⟨broken.sorted, List.pairwise_singleton _ _, fun k mem k' is => ?_⟩
    rw [List.mem_singleton.mp is]
    exact before k mem
  · rw [List.mem_append, List.mem_singleton, broken.mem, last]
    constructor
    · intro written
      rcases written with ⟨⟨x, memX, rfl⟩, -⟩ | rfl
      · refine ⟨⟨x, List.mem_append_left _ memX, rfl⟩, fun same => ?_⟩
        exact absurd (upTo x memX) (not_le.mpr (Option.some.inj same ▸ less))
      · rcases mem₀ with ⟨x, memX, is⟩
        exact ⟨⟨x, List.mem_append_left _ memX, is⟩, fun same => less.ne' (Option.some.inj same)⟩
    · intro has
      rcases has with ⟨⟨x, memX, rfl⟩, other⟩
      rcases List.mem_append.mp memX with old | new
      · by_cases same : key x = k₀
        · exact Or.inr same
        · exact Or.inl ⟨⟨x, old, rfl⟩, fun is => same (Option.some.inj is).symm⟩
      · rw [List.mem_singleton.mp new] at other
        exact absurd rfl other
  · change s.out ++ [write k₀ s.acc] = _
    rw [List.map_append, List.map_singleton, broken.out, broken.acc k₀ last,
      sumOf_snoc_other less.ne']
    refine congrArg (· ++ _) (List.map_congr_left fun k mem => ?_)
    rw [sumOf_snoc_other ((before k mem).trans less).ne']
  · rw [List.getLast?_concat]
    rfl
  · intro k is
    cases is
    have fresh : ∀ x ∈ as, key x ≠ key a := fun x mem => ((upTo x mem).trans_lt less).ne
    rw [sumOf_snoc_same rfl, sumOf_of_forall_ne fresh]

variable (key start add write) in
/-- All sums but the last are written. -/
theorem run_broken {as : List A} (sorted : as.Pairwise fun a b => key a ≤ key b) :
    ∃ ks, Broken key start add write as (run key start add write as) ks := by
  induction as using List.reverseRecOn with
  | nil => exact ⟨[], .nil, by simp, rfl, rfl, nofun⟩
  | append_singleton as a ih =>
      rcases List.pairwise_append.mp sorted with ⟨before, -, le⟩
      rcases ih before with ⟨ks, broken⟩
      rw [run_snoc]
      cases as using List.reverseRecOn with
      | nil =>
          refine ⟨[], .nil, fun k => ?_, rfl, rfl, ?_⟩
          · simp [run, step]
          · intro k is
            cases is
            have before : sumOf key start add [] (key a) = start := sumOf_of_forall_ne nofun
            rw [sumOf_snoc_same rfl, before]
            rfl
      | append_singleton as b _ =>
          have last : (run key start add write (as ++ [b])).last = some (key b) := by
            rw [broken.last, List.getLast?_concat]
            rfl
          have upTo : ∀ x ∈ as ++ [b], key x ≤ key b := by
            intro x mem
            rcases List.mem_append.mp mem with old | same
            · exact (List.pairwise_append.mp before).2.2 x old b (List.mem_singleton.mpr rfl)
            · rw [List.mem_singleton.mp same]
          have memB : b ∈ as ++ [b] := List.mem_append_right as (List.mem_singleton.mpr rfl)
          rcases (le b memB a (List.mem_singleton.mpr rfl)).eq_or_lt with same | less
          · exact ⟨ks, broken.same (last.trans (congrArg some same))⟩
          · exact ⟨_, broken.other last ⟨b, memB, rfl⟩ upTo less⟩

/-- The keys that are written are those with a greater one. -/
theorem Broken.mem_iff_lt {as : List A} {s : State K B G} {ks : List K}
    (broken : Broken key start add write as s ks) (sorted : as.Pairwise fun a b => key a ≤ key b)
    (k : K) : k ∈ ks ↔ (∃ a ∈ as, key a = k) ∧ ∃ a ∈ as, k < key a := by
  rw [broken.mem, broken.last]
  refine and_congr_right ?_
  intro has
  rcases has with ⟨x, memX, rfl⟩
  cases as using List.reverseRecOn with
  | nil => cases memX
  | append_singleton as b _ =>
      rw [List.getLast?_concat, Option.map_some, ne_eq, Option.some.injEq]
      have upTo : ∀ y ∈ as ++ [b], key y ≤ key b := by
        intro y mem
        rcases List.mem_append.mp mem with old | same
        · exact (List.pairwise_append.mp sorted).2.2 y old b (List.mem_singleton.mpr rfl)
        · rw [List.mem_singleton.mp same]
      constructor
      · intro other
        exact ⟨b, by simp, lt_of_le_of_ne (upTo x memX) (Ne.symm other)⟩
      · rintro ⟨y, memY, less⟩ same
        exact absurd (upTo y memY) (not_le.mpr (same ▸ less))

end

end ControlBreak
