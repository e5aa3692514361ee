import Mathlib.Tactic.Linarith
import Ipm.Hash.Profile

/-!
# Timing statistics

The total, the minimum and the maximum of the durations of a table entry.

* `Spread`: a total lies between `count` times the minimum and `count` times the maximum;
  what `HashEnt.addTime`, the average of the second duration branch and `HashEnt.merge` do
  to it.
* `logRun_timing_iff`: it holds of every entry throughout a run exactly when no event of the
  second duration branch is the first of its entry.
-/

namespace Ipm

/-! ## Totals between bounds -/

/-- A total of `count` durations between `lo` and `hi`. -/
structure Spread (count : Nat) (tot lo hi : Rat) : Prop where
  low : count * lo ≤ tot
  high : tot ≤ count * hi

section Spread

variable {count count' : Nat} {tot tot' lo lo' hi hi' : Rat}

/-- Wider bounds. -/
theorem Spread.mono (spread : Spread count tot lo hi) (low : lo' ≤ lo) (high : hi ≤ hi') :
    Spread count tot lo' hi' where
  low := (mul_le_mul_of_nonneg_left low (Nat.cast_nonneg count)).trans spread.low
  high := spread.high.trans (mul_le_mul_of_nonneg_left high (Nat.cast_nonneg count))

/-- Two totals between the same bounds. -/
theorem Spread.add (spread : Spread count tot lo hi) (spread' : Spread count' tot' lo hi) :
    Spread (count + count') (tot + tot') lo hi where
  low := by
    rw [Nat.cast_add, add_mul]
    exact add_le_add spread.low spread'.low
  high := by
    rw [Nat.cast_add, add_mul]
    exact add_le_add spread.high spread'.high

/-- One duration. -/
theorem Spread.single (time : Rat) : Spread 1 time time time where
  low := by rw [Nat.cast_one, one_mul]
  high := by rw [Nat.cast_one, one_mul]

/-- The average once more. -/
theorem Spread.average (spread : Spread count tot lo hi) (some : 0 < count) :
    Spread (count + 1) (tot + tot / count) lo hi where
  low := by
    have positive : (0 : Rat) < count := Nat.cast_pos.2 some
    have average : lo ≤ tot / count := (le_div_iff₀ positive).2 (by linarith [spread.low])
    rw [Nat.cast_add, Nat.cast_one, add_mul, one_mul]
    exact add_le_add spread.low average
  high := by
    have positive : (0 : Rat) < count := Nat.cast_pos.2 some
    have average : tot / count ≤ hi := (div_le_iff₀ positive).2 (by linarith [spread.high])
    rw [Nat.cast_add, Nat.cast_one, add_mul, one_mul]
    exact add_le_add spread.high average

end Spread

/-! ## Entries -/

/-- The statistics of an entry are consistent, and those of a stored entry that has not been
counted yet are as `IPM_HASH_HKEY` has made them. -/
structure HashEnt.Timed (ent : HashEnt) : Prop where
  spread : Spread ent.count ent.tTot ent.tMin ent.tMax
  fresh : ent.key ≠ 0 → ent.count = 0 → ent.tMin = 10 ^ 15

theorem HashEnt.Timed.clear : HashEnt.clear.Timed where
  spread := ⟨by simp [HashEnt.clear], by simp [HashEnt.clear]⟩
  fresh := fun stored => absurd rfl stored

theorem HashEnt.Timed.new (fkey : Nat) : (HashEnt.new fkey).Timed where
  spread := ⟨by simp [HashEnt.new], by simp [HashEnt.new]⟩
  fresh := fun _ _ => rfl

/-- `ipm_hash_cull` merges consistent statistics into consistent statistics. -/
theorem HashEnt.Timed.merge {ent saved : HashEnt} (timed : ent.Timed) (timed' : saved.Timed)
    (stored : saved.key ≠ 0) : (ent.merge saved).Timed where
  spread := by
    have low : (ent.merge saved).tMin = min saved.tMin ent.tMin := (min_def_lt _ _).symm
    have high : (ent.merge saved).tMax = max ent.tMax saved.tMax := (max_def_lt _ _).symm
    rw [low, high]
    exact (timed.spread.mono (min_le_right _ _) (le_max_left _ _)).add
      (timed'.spread.mono (min_le_left _ _) (le_max_right _ _))
  fresh := by
    intro key count
    have zero : ent.count + saved.count = 0 := count
    have min := timed.fresh key (by omega)
    have min' := timed'.fresh stored (by omega)
    simp only [HashEnt.merge, min, min', lt_irrefl, if_false]

/-- A duration added. -/
theorem HashEnt.Timed.addTime {ent : HashEnt} (timed : ent.Timed) (time : Rat) :
    ({ ent with count := ent.count + 1 }.addTime time).Timed where
  spread := by
    have low : ({ ent with count := ent.count + 1 }.addTime time).tMin = min time ent.tMin :=
      (min_def_lt _ _).symm
    have high : ({ ent with count := ent.count + 1 }.addTime time).tMax = max ent.tMax time :=
      (max_def_lt _ _).symm
    rw [low, high]
    exact (timed.spread.mono (min_le_right _ _) (le_max_left _ _)).add
      ((Spread.single time).mono (min_le_left _ _) (le_max_right _ _))
  fresh := fun _ count => absurd count (Nat.succ_ne_zero _)

/-- The calls and the outcomes of `duration_adjust` of a run. -/
structure MpiEvent.Adjusted (e : MpiEvent) : Prop where
  ret : e.ret = 0 ∨ e.ret = -1 ∨ e.ret = 1
  named : 1 ≤ e.call
  call_lt : e.call < 256

instance (e : MpiEvent) : Decidable e.Adjusted :=
  decidable_of_iff ((e.ret = 0 ∨ e.ret = -1 ∨ e.ret = 1) ∧ 1 ≤ e.call ∧ e.call < 256)
    ⟨fun ⟨h₁, h₂, h₃⟩ => ⟨h₁, h₂, h₃⟩, fun ⟨h₁, h₂, h₃⟩ => ⟨h₁, h₂, h₃⟩⟩

/-- Every duration branch keeps an entry consistent, the second one on an entry that has been
counted before. -/
theorem HashEnt.Timed.log {ent : HashEnt} (timed : ent.Timed) {e : MpiEvent} (ok : e.Adjusted)
    (counted : e.ret = -1 → 0 < ent.count) : (ent.log e).Timed := by
  unfold HashEnt.log
  rcases ok.ret with ret | ret | ret
  · rw [ret, if_pos rfl]
    exact timed.addTime e.wall
  · have some := counted ret
    have pred : ent.count + 1 - 1 = ent.count := Nat.add_sub_cancel _ _
    rw [ret, if_neg (by decide), if_pos rfl]
    simp only [pred, gt_iff_lt, some, if_true]
    exact ⟨timed.spread.average some, fun _ count => absurd count (Nat.succ_ne_zero _)⟩
  · rw [ret, if_neg (by decide), if_neg (by decide), if_pos rfl]
    exact timed.addTime (e.wall - e.srDur)

/-- The second duration branch on a new entry counts an event without a duration: the
minimum is still the initial one. -/
theorem HashEnt.Timed.log_first {ent : HashEnt} (timed : ent.Timed) {e : MpiEvent}
    (ret : e.ret = -1) (stored : ent.key ≠ 0) (first : ent.count = 0) :
    (ent.log e).count = 1 ∧ ¬Spread 1 (ent.log e).tTot (ent.log e).tMin (ent.log e).tMax := by
  have total : ent.tTot = 0 := by
    have low := timed.spread.low
    have high := timed.spread.high
    rw [first, Nat.cast_zero, zero_mul] at low high
    exact le_antisymm high low
  have logged : ent.log e = { ent with count := 1 } := by
    simp [HashEnt.log, ret, first]
  rw [logged]
  refine ⟨rfl, fun spread => ?_⟩
  have low := spread.low
  simp only [total, timed.fresh stored first, Nat.cast_one, one_mul] at low
  exact absurd low (by norm_num)

/-! ## Keys -/

theorem testBit_shl64 {k i n : Nat} (small : i + n < 64) :
    (shl64 k n).testBit (i + n) = k.testBit i := by
  rw [shl64, Nat.testBit_mod_two_pow, Nat.testBit_shiftLeft]
  simp [small]

/-- The key of an event names its call. -/
theorem MpiEvent.Adjusted.key_ne_zero {e : MpiEvent} (ok : e.Adjusted) (callMask : Nat → Nat) :
    e.key callMask ≠ 0 := by
  obtain ⟨i, bit⟩ := Nat.exists_testBit_of_ne_zero (Nat.ne_of_gt ok.named)
  have small : i < 8 := by
    by_contra large
    have below : e.call < 2 ^ i :=
      Nat.lt_of_lt_of_le ok.call_lt (Nat.pow_le_pow_right (n := 2) (by decide) (not_lt.1 large))
    rw [Nat.testBit_lt_two_pow below] at bit
    cases bit
  have word : ∀ rank, (shl64 (shl64 (shl64 (toU64 e.region) 8 ||| e.call) 16 ||| rank) 32).testBit
      (i + 16 + 32) = true := by
    intro rank
    rw [testBit_shl64 (by omega), Nat.testBit_or, testBit_shl64 (by omega), Nat.testBit_or, bit,
      Bool.or_true, Bool.true_or]
  intro zero
  have none : (e.key callMask).testBit (i + 16 + 32) = false := by rw [zero, Nat.zero_testBit]
  simp only [MpiEvent.key, ipmMpiKey] at none
  split at none <;>
    simp only [Nat.testBit_or, word, Bool.true_or, Bool.true_eq_false] at none

/-! ## The table -/

/-- Every entry is consistent. -/
def HashState.Timed (t : HashState) : Prop := ∀ i, (t.hash i).Timed

theorem HashState.Timed.setEnt {t : HashState} (timed : t.Timed) {ent : HashEnt}
    (entry : ent.Timed) (h : Nat) : (t.setEnt h ent).Timed := by
  intro i
  change (Function.update t.hash h ent i).Timed
  rcases eq_or_ne i h with rfl | other
  · rw [Function.update_self]
    exact entry
  · rw [Function.update_of_ne other]
    exact timed i

section Runs

variable {b : Build}

/-- A probe keeps the table consistent, and ends at one of its slots. -/
theorem ipmHashHkey_timed {cull : HashState → Except Stop HashState}
    (cullTimed : ∀ {t u}, t.Timed → cull t = .ok u → u.Timed) {fuel : Nat} {t t' : HashState}
    {fkey hkey : Nat} (timed : t.Timed)
    (probed : ipmHashHkey b cull fuel t fkey = .ok (t', hkey)) :
    (t'.Timed ∧ hkey ∈ b.slots) ∧ (t'.hash hkey).key = fkey := by
  refine ipmHashHkey_rule (I := fun v h => v.Timed ∧ h ∈ b.slots) ?new ?collide ?culled
    ⟨timed, b.mod_mem_slots fkey⟩ probed
  case new =>
    intro v h inv _ _
    exact ⟨inv.1.setEnt (HashEnt.Timed.new fkey) h, inv.2⟩
  case collide =>
    intro v h inv _ _
    exact ⟨inv.1, b.mod_mem_slots _⟩
  case culled =>
    intro v h u inv _ _ culled
    have rebuilt : u.Timed := cullTimed inv.1 culled
    exact ⟨rebuilt, b.mod_mem_slots _⟩

/-- `ipm_hash_cull` rebuilds a consistent table from a consistent one. -/
theorem ipmHashCull_timed {fuel : Nat} {t u : HashState} (timed : t.Timed)
    (culled : ipmHashCull b fuel t = .ok u) : u.Timed := by
  induction fuel generalizing t u with
  | zero => cases culled
  | succ fuel ih =>
      obtain ⟨start, started, ran⟩ := ipmHashCull_eq_ok culled
      have empty : start.Timed := by
        intro i
        rw [(cullStart_eq_ok started).1]
        exact HashEnt.Timed.clear
      refine Runs.run_invariant (I := HashState.Timed) (G := fun _ saved => saved.Timed) empty
        ?keep (fun v saved visit => ?saved) ran
      case saved =>
        obtain ⟨i, -, rfl⟩ := List.mem_map.1 visit.mem
        exact timed i
      case keep =>
        intro v saved v' inv entry stepped
        rcases reinsert_cases stepped with ⟨-, rfl⟩ | ⟨occupied, w, hkey, probed, rfl⟩
        · exact inv
        · have kept := (ipmHashHkey_timed (fun before done => ih before done) inv probed).1.1
          exact kept.setEnt ((kept hkey).merge entry occupied) hkey

/-! ## Runs -/

/-- What happens to the table: an event is logged, or the table is culled. -/
inductive HashAction
  | log (e : MpiEvent) (ok : e.Adjusted)
  | cull

variable (b) in
def hashStep (fuel : Nat) (t : HashState) : HashAction → Except Stop HashState
  | .log e _ => wrapperLog b fuel t e
  | .cull => ipmHashCull b fuel t

variable (b) in
/-- An event of the second duration branch finds an entry that has been counted before. -/
def FindsCounted (fuel : Nat) (t : HashState) : HashAction → Prop
  | .log e _ => e.ret = -1 → ∀ u hkey, ipmHashHkey b (ipmHashCull b fuel) fuel
      { t with hashNlog := t.hashNlog + 1 } (e.key t.callMask) = .ok (u, hkey) →
        0 < (u.hash hkey).count
  | .cull => True

variable (b) in
/-- The statistics of every counted entry of the table are consistent. -/
def TimingConsistent (t : HashState) : Prop :=
  ∀ i, i ≤ b.maxsizeHash → 0 < (t.hash i).count →
    Spread (t.hash i).count (t.hash i).tTot (t.hash i).tMin (t.hash i).tMax

/-- An event of the first or third duration branch, or of the second on a counted entry, keeps
the table consistent. -/
theorem hashStep_timed {fuel : Nat} {t t' : HashState} {a : HashAction}
    (timed : t.Timed) (finds : FindsCounted b fuel t a)
    (stepped : hashStep b fuel t a = .ok t') : t'.Timed := by
  cases a with
  | cull => exact ipmHashCull_timed timed stepped
  | log e ok =>
      obtain ⟨u, hkey, probed, rfl⟩ := wrapperLog_eq_ok stepped
      have counting : { t with hashNlog := t.hashNlog + 1 }.Timed := timed
      have kept : u.Timed :=
        (ipmHashHkey_timed (fun before done => ipmHashCull_timed before done) counting probed).1.1
      exact kept.setEnt ((kept hkey).log ok fun ret => finds ret u hkey probed) hkey

/-- An event of the second duration branch on a new entry breaks its entry. -/
theorem hashStep_breaks {fuel : Nat} {t t' : HashState} {a : HashAction}
    (timed : t.Timed) (finds : ¬FindsCounted b fuel t a)
    (stepped : hashStep b fuel t a = .ok t') : ¬TimingConsistent b t' := by
  cases a with
  | cull => exact absurd trivial finds
  | log e ok =>
      obtain ⟨u, hkey, probed, rfl⟩ := wrapperLog_eq_ok stepped
      have counting : { t with hashNlog := t.hashNlog + 1 }.Timed := timed
      obtain ⟨⟨kept, slot⟩, key⟩ :=
        ipmHashHkey_timed (fun before done => ipmHashCull_timed before done) counting probed
      simp only [FindsCounted, not_forall, not_lt, Nat.le_zero] at finds
      obtain ⟨ret, u', hkey', probed', first⟩ := finds
      rw [probed] at probed'
      cases probed'
      have stored : (u.hash hkey).key ≠ 0 := by
        rw [key]
        exact ok.key_ne_zero t.callMask
      obtain ⟨count, broken⟩ := (kept hkey).log_first ret stored first
      have entry : (u.setEnt hkey ((u.hash hkey).log e)).hash hkey = (u.hash hkey).log e :=
        Function.update_self hkey _ _
      intro consistent
      have spread := consistent hkey (Finset.mem_range_succ_iff.1 slot)
      rw [entry, count] at spread
      exact broken (spread Nat.one_pos)

end Runs

/-- Timing statistics over runs.  The statistics of every counted entry are consistent in
every state a run reaches exactly when no event of the second duration branch is the first one
of its entry. -/
theorem logRun_timing_iff (b : Build) (fuel : Nat) (actions : List HashAction) (t : HashState)
    (ran : Runs.run (hashStep b fuel) .init actions = .ok t) :
    (∀ u, Runs.Reached (hashStep b fuel) .init actions u → TimingConsistent b u) ↔
      ∀ u a, Runs.Visit (hashStep b fuel) .init actions u a → FindsCounted b fuel u a := by
  refine Runs.forall_reached_iff_forall_visit (I := HashState.Timed) ?init ?keep ?safe ?break_ ran
  case init => exact fun _ => HashEnt.Timed.clear
  case keep => exact fun timed finds stepped => hashStep_timed timed finds stepped
  case safe => exact fun timed i _ _ => (timed i).spread
  case break_ => exact fun timed finds stepped => hashStep_breaks timed finds stepped

/-- An event of each duration branch, the second one last, and a cull. -/
def adjustedActions : List HashAction :=
  [.log { sizeEvent 1 8 3 with ret := 1, srDur := 1 } (by decide),
    .log (sizeEvent 1 8 5) (by decide), .cull, .log { sizeEvent 1 8 with ret := -1 } (by decide)]

theorem logRun_timing_five :
    ∃ t, Runs.run (hashStep .five 20) .init adjustedActions = .ok t ∧
      ((∀ u, Runs.Reached (hashStep .five 20) .init adjustedActions u → TimingConsistent .five u) ↔
        ∀ u a, Runs.Visit (hashStep .five 20) .init adjustedActions u a →
          FindsCounted .five 20 u a) := by
  have ran : Runs.okWith (Runs.run (hashStep .five 20) .init adjustedActions) (fun _ => true) =
      true := by decide +kernel
  obtain ⟨t, ok, -⟩ := Runs.okWith_eq_true ran
  exact ⟨t, ok, logRun_timing_iff .five 20 adjustedActions t ok⟩

/-- The first event of a run is of the second duration branch: its entry has one event, no
time, and still the initial minimum. -/
theorem second_branch_first :
    ∃ t, wrapperLog .five 20 .init { sizeEvent 1 8 with ret := -1 } = .ok t ∧
      (t.hash 4).count = 1 ∧ (t.hash 4).tTot = 0 ∧ (t.hash 4).tMin = 10 ^ 15 ∧
      ¬TimingConsistent .five t := by
  have ran : Runs.okWith (wrapperLog .five 20 .init { sizeEvent 1 8 with ret := -1 })
      (fun t => (t.hash 4).count == 1 && (t.hash 4).tTot == 0 && (t.hash 4).tMin == 10 ^ 15) =
        true := by decide +kernel
  obtain ⟨t, ok, entry⟩ := Runs.okWith_eq_true ran
  obtain ⟨⟨count, total⟩, min⟩ :
      ((t.hash 4).count = 1 ∧ (t.hash 4).tTot = 0) ∧ (t.hash 4).tMin = 10 ^ 15 := by
    simpa using entry
  refine ⟨t, ok, count, total, min, fun consistent => ?_⟩
  have low := (consistent 4 (by decide) (by rw [count]; exact Nat.one_pos)).low
  rw [count, total, min] at low
  exact absurd low (by norm_num)

end Ipm
