import Mathlib.Algebra.Order.BigOperators.Group.Finset
import Mathlib.Data.Nat.Find
import Mathlib.Data.Nat.ModEq
import Mathlib.Data.Nat.Prime.Basic
import Mathlib.Logic.Function.Basic
import Mathlib.Order.Basic

/-!
# Open addressing

A table of keys `tbl : Nat → K` with a distinguished `vacant` key, and for each
key a probe sequence `probe k : Nat → Nat` of slots.

* `Crowded probe vacant tbl k n`: the first `n` slots of `k`'s probe sequence hold
  other keys.
* `Placed probe vacant tbl`: every stored key is met by its own probe sequence at
  the slot that stores it, after slots that hold other keys only.

`Placed` is the invariant of a table that only ever inserts by probing from
scratch.  It implies that no key is stored twice (`Placed.slot_unique`), and it is
kept when a key goes into the first vacant slot of its probe sequence
(`Placed.insert`).  Nothing is assumed of the probe sequences themselves: that
they visit every slot matters for termination, not for these results.

* `PlacedBy`: the same for probes that give up after some collisions; it is kept by an insertion
  where they do not (`PlacedBy.insert`).
* `crowded_or_exists`: a probe meets other keys only, or stops at its key or a vacant slot.
* `occupied`: the number of occupied slots; a table with fewer than it has slots has a
  vacant one (`exists_vacant`).
* `doubleHash`: the probe sequence of a home slot and a stride; when the stride is
  coprime to the size, any `size` consecutive probes visit every slot
  (`exists_doubleHash`).
-/

namespace OpenAddressing

variable {K : Type*} (probe : K → Nat → Nat) (vacant : K)

/-- The first `n` slots of the probe sequence of `k` hold keys other than `k`. -/
def Crowded (tbl : Nat → K) (k : K) (n : Nat) : Prop :=
  ∀ c, c < n → tbl (probe k c) ≠ vacant ∧ tbl (probe k c) ≠ k

/-- Every stored key sits where probing from scratch first meets it. -/
def Placed (tbl : Nat → K) : Prop :=
  ∀ i, tbl i ≠ vacant →
    ∃ c, probe (tbl i) c = i ∧ Crowded probe vacant tbl (tbl i) c

variable {probe vacant} {tbl : Nat → K} {k : K} {n : Nat}

theorem Crowded.zero : Crowded probe vacant tbl k 0 :=
  fun _ impossible => absurd impossible (Nat.not_lt_zero _)

theorem Crowded.succ (crowded : Crowded probe vacant tbl k n)
    (full : tbl (probe k n) ≠ vacant) (other : tbl (probe k n) ≠ k) :
    Crowded probe vacant tbl k (n + 1) := by
  intro c below
  rcases Nat.lt_succ_iff_lt_or_eq.mp below with earlier | rfl
  · exact crowded c earlier
  · exact ⟨full, other⟩

/-- A probe that has met only other keys has not passed the slot of its key. -/
theorem Crowded.le_of_hit {c : Nat} (crowded : Crowded probe vacant tbl k n)
    (hit : tbl (probe k c) = k) : n ≤ c := by
  by_contra passed
  exact (crowded c (Nat.lt_of_not_le passed)).2 hit

theorem placed_empty : Placed probe vacant (fun _ => vacant) :=
  fun _ full => absurd rfl full

/-- In a placed table no key is stored in two slots. -/
theorem Placed.slot_unique (placed : Placed probe vacant tbl) {i j : Nat}
    (full : tbl i ≠ vacant) (same : tbl i = tbl j) : i = j := by
  obtain ⟨c, atI, crowdedI⟩ := placed i full
  obtain ⟨d, atJ, crowdedJ⟩ := placed j (same ▸ full)
  rw [← same] at atJ crowdedJ
  have hitI : tbl (probe (tbl i) c) = tbl i := by rw [atI]
  have hitJ : tbl (probe (tbl i) d) = tbl i := by rw [atJ]; exact same.symm
  have count : c = d := Nat.le_antisymm (crowdedI.le_of_hit hitJ) (crowdedJ.le_of_hit hitI)
  rw [← atI, ← atJ, count]

/-- Filling a vacant slot keeps what other keys' probes have already met. -/
theorem Crowded.update {k' : K} {slot c : Nat} (crowded : Crowded probe vacant tbl k c)
    (free : tbl slot = vacant) :
    Crowded probe vacant (Function.update tbl slot k') k c := by
  intro d below
  have met := crowded d below
  have apart : probe k d ≠ slot := fun same => met.1 (same ▸ free)
  rw [Function.update_of_ne apart]
  exact met

/-- Inserting a key at the first vacant slot of its probe sequence, after slots
that hold other keys, keeps the table placed. -/
theorem Placed.insert (placed : Placed probe vacant tbl)
    (crowded : Crowded probe vacant tbl k n) (free : tbl (probe k n) = vacant) :
    Placed probe vacant (Function.update tbl (probe k n) k) := by
  intro i full
  by_cases atSlot : i = probe k n
  · subst atSlot
    rw [Function.update_self]
    exact ⟨n, rfl, crowded.update free⟩
  · rw [Function.update_of_ne atSlot] at full ⊢
    obtain ⟨c, here, before⟩ := placed i full
    exact ⟨c, here, before.update free⟩

/-! ## Probes that give up -/

/-- Every stored key is met after a number of collisions at which the probe still goes on. -/
def PlacedBy (reach : Nat → Prop) (probe : K → Nat → Nat) (vacant : K) (tbl : Nat → K) : Prop :=
  ∀ i, tbl i ≠ vacant →
    ∃ c, reach c ∧ probe (tbl i) c = i ∧ Crowded probe vacant tbl (tbl i) c

section PlacedBy

variable {reach : Nat → Prop}

theorem PlacedBy.placed (placed : PlacedBy reach probe vacant tbl) : Placed probe vacant tbl := by
  intro i full
  rcases placed i full with ⟨c, -, here, before⟩
  exact ⟨c, here, before⟩

theorem PlacedBy.insert (placed : PlacedBy reach probe vacant tbl) (within : reach n)
    (crowded : Crowded probe vacant tbl k n) (free : tbl (probe k n) = vacant) :
    PlacedBy reach probe vacant (Function.update tbl (probe k n) k) := by
  intro i full
  by_cases atSlot : i = probe k n
  · subst atSlot
    rw [Function.update_self]
    exact ⟨n, within, rfl, crowded.update free⟩
  · rw [Function.update_of_ne atSlot] at full ⊢
    rcases placed i full with ⟨c, reached, here, before⟩
    exact ⟨c, reached, here, before.update free⟩

end PlacedBy

/-- A probe meets other keys only, or stops. -/
theorem crowded_or_exists (probe : K → Nat → Nat) (vacant : K) (tbl : Nat → K) (k : K) (n : Nat) :
    Crowded probe vacant tbl k n ∨ ∃ c < n, Crowded probe vacant tbl k c ∧
      (tbl (probe k c) = vacant ∨ tbl (probe k c) = k) := by
  induction n with
  | zero => exact Or.inl Crowded.zero
  | succ n ih =>
      rcases ih with crowded | ⟨c, below, before, stops⟩
      · by_cases stops : tbl (probe k n) = vacant ∨ tbl (probe k n) = k
        · exact Or.inr ⟨n, Nat.lt_succ_self n, crowded, stops⟩
        · rw [not_or] at stops
          exact Or.inl (crowded.succ stops.1 stops.2)
      · exact Or.inr ⟨c, Nat.lt_succ_of_lt below, before, stops⟩

/-! ## Counting slots -/

section Occupied

variable [DecidableEq K] {size slot : Nat}

/-- The occupied slots among the first `size`. -/
def occupied (vacant : K) (tbl : Nat → K) (size : Nat) : Nat :=
  ((Finset.range size).filter fun i => tbl i ≠ vacant).card

theorem occupied_empty (size : Nat) : occupied vacant (fun _ => vacant) size = 0 := by
  simp [occupied]

/-- Filling a vacant slot adds one. -/
theorem occupied_insert (below : slot < size) (free : tbl slot = vacant) (named : k ≠ vacant) :
    occupied vacant (Function.update tbl slot k) size = occupied vacant tbl size + 1 := by
  have grown : (Finset.range size).filter (fun i => Function.update tbl slot k i ≠ vacant) =
      insert slot ((Finset.range size).filter fun i => tbl i ≠ vacant) := by
    ext i
    simp only [Finset.mem_filter, Finset.mem_range, Finset.mem_insert]
    rcases eq_or_ne i slot with rfl | other
    · simp [below, named]
    · simp [other]
  rw [occupied, grown, Finset.card_insert_of_notMem (by simp [free])]
  rfl

theorem exists_vacant (room : occupied vacant tbl size < size) :
    ∃ slot < size, tbl slot = vacant := by
  by_contra full
  push Not at full
  have all : (Finset.range size).filter (fun i => tbl i ≠ vacant) = Finset.range size :=
    Finset.filter_true_of_mem fun i inRange => full i (Finset.mem_range.mp inRange)
  rw [occupied, all, Finset.card_range] at room
  exact absurd room (Nat.lt_irrefl size)

end Occupied

/-! ## Double hashing -/

section DoubleHash

variable {size stride : Nat}

/-- The slot after `c` collisions. -/
def doubleHash (size home stride c : Nat) : Nat := (home + c * stride) % size

/-- A stride below a prime size is coprime to it. -/
theorem stride_coprime (prime : size.Prime) (three : size ≠ 2) (k : Nat) :
    (1 + k % (size - 2)).Coprime size := by
  have two := prime.two_le
  have short : k % (size - 2) < size - 2 := Nat.mod_lt k (by omega)
  exact (Nat.coprime_of_lt_prime (by omega) (by omega) prime).symm

/-- Any `size` consecutive probes visit every slot. -/
theorem exists_doubleHash (coprime : stride.Coprime size) (home start : Nat) {slot : Nat}
    (below : slot < size) : ∃ d < size, doubleHash size home stride (start + d) = slot := by
  have within : ∀ d ∈ Finset.range size,
      doubleHash size home stride (start + d) ∈ Finset.range size :=
    fun d _ => Finset.mem_range.mpr (Nat.mod_lt _ (Nat.zero_lt_of_lt below))
  -- two of the probes at one slot are the same number of collisions modulo the size
  have apart : ∀ d ∈ Finset.range size, ∀ e ∈ Finset.range size,
      doubleHash size home stride (start + d) = doubleHash size home stride (start + e) →
        d = e := by
    intro d dBelow e eBelow same
    have strides : (start + d) * stride ≡ (start + e) * stride [MOD size] :=
      Nat.ModEq.add_left_cancel' home same
    have counts : start + d ≡ start + e [MOD size] :=
      Nat.ModEq.cancel_right_of_coprime coprime.symm strides
    have offsets : d % size = e % size := Nat.ModEq.add_left_cancel' start counts
    rwa [Nat.mod_eq_of_lt (Finset.mem_range.mp dBelow),
      Nat.mod_eq_of_lt (Finset.mem_range.mp eBelow)] at offsets
  obtain ⟨d, inRange, hit⟩ := Finset.surj_on_of_inj_on_of_card_le
    (fun d _ => doubleHash size home stride (start + d)) within
    (fun d e dBelow eBelow same => apart d dBelow e eBelow same) le_rfl slot
    (Finset.mem_range.mpr below)
  exact ⟨d, Finset.mem_range.mp inRange, hit.symm⟩

end DoubleHash

end OpenAddressing
