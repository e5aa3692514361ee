import Mathlib.Data.Fintype.Card
import Ipm.Lib.Runs

/-!
# The barrier on disk

`ipm_parallel_barrier_disk` (`src/ipm.c`) with its arrive section, lock to unlock,
as one step: `n` tasks share one line, a barrier number and a count.

A task polls through one stream, which it opens once and seeks in before every scan.
Whether `fseek` keeps the block that the stream has read is up to the C library (`kept`):
glibc keeps it, and every poll after the first reads the first one's line again.

* `barrierStep_cases`: what each action of a task did.
* `FirstBarrier`: the states of the first barrier, which every action keeps but an
  arrival at a later one, and the last arrival if a task has polled before it
  (`barrierStep_firstBarrier`).
* `barrier_safe_iff`: a run is safe exactly when no task arrives at a barrier after
  the first and, where the block is kept, none that still polls has polled before the last
  arrival.  The last arrival moves the line on to the next barrier and leaves the count at
  `n`, from where the next barrier counts on.
-/

namespace Ipm

/-! ## Tasks and the shared line -/

/-- Where a task is: outside the barrier, in the arrive loop, or in the loop that
polls for the others. -/
inductive BarrierPc
  | outside
  | arriving
  | polling
  deriving DecidableEq, Repr

/-- The line `barrier <id> <count>`, and each task's `ipm_barrier_id` and place, with the
count in the block that the stream of a polling task has read. -/
structure BarrierState (n : Nat) where
  diskBarrierId : Nat
  diskBarrierCount : Nat
  ipmBarrierId : Fin n → Nat
  pc : Fin n → BarrierPc
  block : Fin n → Option Nat

/-- The line `ipm_parallel_init_disk` writes, and no task in a barrier yet. -/
def BarrierState.init (n : Nat) : BarrierState n where
  diskBarrierId := 0
  diskBarrierCount := 0
  ipmBarrierId := fun _ => 0
  pc := fun _ => .outside
  block := fun _ => none

/-- A task calls the barrier, runs an arrive section, gives up arriving, polls, or
gives up polling. -/
inductive BarrierAct (n : Nat)
  | call (i : Fin n)
  | arrive (i : Fin n)
  | arriveTimeout (i : Fin n)
  | poll (i : Fin n)
  | pollTimeout (i : Fin n)
  deriving DecidableEq

variable {n : Nat}

namespace BarrierState

/-- The place of task `i` changes. -/
def goto (s : BarrierState n) (i : Fin n) (pc : BarrierPc) : BarrierState n :=
  { s with pc := Function.update s.pc i pc }

/-- An arrive section that finds the line at the task's barrier: rewrite it, break out of
the loop, and open the file for polling. -/
def countIn (s : BarrierState n) (i : Fin n) : BarrierState n :=
  { s with
    diskBarrierId :=
      if s.diskBarrierCount = n - 1 then s.diskBarrierId + 1 else s.diskBarrierId
    diskBarrierCount := s.diskBarrierCount + 1
    ipmBarrierId := Function.update s.ipmBarrierId i (s.ipmBarrierId i + 1)
    pc := Function.update s.pc i .polling
    block := Function.update s.block i none }

/-- The count that a poll of task `i` scans: from the block of its stream, if there is one
and `fseek` keeps it. -/
def scanned (kept : Bool) (s : BarrierState n) (i : Fin n) : Nat :=
  if kept then (s.block i).getD s.diskBarrierCount else s.diskBarrierCount

/-- The test of the poll. -/
def exits (kept : Bool) (s : BarrierState n) (i : Fin n) : Bool := s.scanned kept i == n

/-- A poll that goes on: the stream has a block. -/
def reads (kept : Bool) (s : BarrierState n) (i : Fin n) : BarrierState n :=
  { s with block := Function.update s.block i (some (s.scanned kept i)) }

end BarrierState

/-- One action; an action of a task that is elsewhere is none. -/
def barrierStep (kept : Bool) (s : BarrierState n) : BarrierAct n → Except Unit (BarrierState n)
  | .call i => if s.pc i = .outside then .ok (s.goto i .arriving) else .error ()
  | .arrive i =>
      if s.pc i = .arriving then
        if s.diskBarrierId = s.ipmBarrierId i then .ok (s.countIn i) else .ok s
      else .error ()
  | .arriveTimeout i => if s.pc i = .arriving then .ok (s.goto i .outside) else .error ()
  | .poll i =>
      if s.pc i = .polling then
        if s.exits kept i then .ok (s.goto i .outside) else .ok (s.reads kept i)
      else .error ()
  | .pollTimeout i => if s.pc i = .polling then .ok (s.goto i .outside) else .error ()

/-- The task counts itself in. -/
def BarrierAct.CountsIn (s : BarrierState n) : BarrierAct n → Prop
  | .arrive i => s.diskBarrierId = s.ipmBarrierId i
  | _ => False

section Step

variable {kept : Bool} {s s' : BarrierState n} {a : BarrierAct n}

/-- What an action did: a task counted itself in, or a task moved, polling only after it has
counted itself in, or a polling task read a block, or nothing. -/
theorem barrierStep_cases (h : barrierStep kept s a = .ok s') :
    (∃ i, a = .arrive i ∧ s.pc i = .arriving ∧ a.CountsIn s ∧ s' = s.countIn i) ∨
      (¬ a.CountsIn s ∧ ∃ i pc, pc ≠ .polling ∧ s' = s.goto i pc) ∨
      (¬ a.CountsIn s ∧ ∃ i, s.pc i = .polling ∧ s.exits kept i = false ∧
        s' = s.reads kept i) ∨
      (¬ a.CountsIn s ∧ s' = s) := by
  cases a with
  | call i =>
      simp only [barrierStep] at h
      split at h
      · cases h
        exact Or.inr (Or.inl ⟨id, i, .arriving, by decide, rfl⟩)
      · cases h
  | arrive i =>
      simp only [barrierStep] at h
      split at h
      · rename_i arriving
        split at h
        · rename_i here
          cases h
          exact Or.inl ⟨i, rfl, arriving, here, rfl⟩
        · rename_i elsewhere
          cases h
          exact Or.inr (Or.inr (Or.inr ⟨elsewhere, rfl⟩))
      · cases h
  | arriveTimeout i =>
      simp only [barrierStep] at h
      split at h
      · cases h
        exact Or.inr (Or.inl ⟨id, i, .outside, by decide, rfl⟩)
      · cases h
  | poll i =>
      simp only [barrierStep] at h
      split at h
      · rename_i polling
        split at h
        · cases h
          exact Or.inr (Or.inl ⟨id, i, .outside, by decide, rfl⟩)
        · rename_i stays
          cases h
          exact Or.inr (Or.inr (Or.inl ⟨id, i, polling, Bool.eq_false_iff.mpr stays, rfl⟩))
      · cases h
  | pollTimeout i =>
      simp only [barrierStep] at h
      split at h
      · cases h
        exact Or.inr (Or.inl ⟨id, i, .outside, by decide, rfl⟩)
      · cases h

end Step

/-! ## Safety -/

/-- The tasks that have arrived at the barrier of the line. -/
def BarrierState.arrived (s : BarrierState n) : Finset (Fin n) :=
  Finset.univ.filter fun j => s.diskBarrierId < s.ipmBarrierId j

/-- What the barrier promises.  A task that polls is in barrier number
`ipmBarrierId - 1`, at which a task with a number as large has arrived. -/
structure BarrierSafe (kept : Bool) (s : BarrierState n) : Prop where
  count_le : s.diskBarrierCount ≤ n
  counted : s.diskBarrierCount = s.arrived.card ∨
    s.diskBarrierCount = n ∧ s.arrived = ∅ ∧ ∀ j, s.ipmBarrierId j = s.diskBarrierId
  leaves_after_all : ∀ i, s.pc i = .polling → s.exits kept i = true →
    ∀ j, s.ipmBarrierId i ≤ s.ipmBarrierId j
  leaves_once_all : ∀ i, s.pc i = .polling → (∀ j, s.ipmBarrierId i ≤ s.ipmBarrierId j) →
    s.exits kept i = true

/-- The first barrier: some tasks have arrived and the count is their number, or all
have and the line has moved on.  Only tasks that have arrived poll, and no block has a
count that is not that of its time. -/
structure FirstBarrier (kept : Bool) (s : BarrierState n) : Prop where
  polling : ∀ i, s.pc i = .polling → s.ipmBarrierId i = 1
  phase : (s.diskBarrierId = 0 ∧ s.diskBarrierCount < n ∧
      s.diskBarrierCount = s.arrived.card ∧ (∀ j, s.ipmBarrierId j ≤ 1) ∧
      ∀ i, s.scanned kept i < n) ∨
    (s.diskBarrierId = 1 ∧ s.diskBarrierCount = n ∧ (∀ j, s.ipmBarrierId j = 1) ∧
      ∀ i, s.pc i = .polling → s.scanned kept i = n)

variable {kept : Bool}

theorem init_firstBarrier (pos : 0 < n) : FirstBarrier kept (BarrierState.init n) := by
  refine ⟨fun i polling => ?_, Or.inl ⟨rfl, pos, ?_, fun _ => Nat.zero_le 1, fun i => ?_⟩⟩
  · cases polling
  · simp [BarrierState.arrived, BarrierState.init]
  · cases kept <;> exact pos

/-- All tasks have arrived exactly when the set of those that have is full. -/
theorem arrived_card_eq {s : BarrierState n} :
    s.arrived.card = n ↔ ∀ j, s.diskBarrierId < s.ipmBarrierId j := by
  have full := Finset.card_eq_iff_eq_univ s.arrived
  rw [Fintype.card_fin] at full
  rw [full, Finset.eq_univ_iff_forall]
  simp [BarrierState.arrived]

theorem FirstBarrier.safe {s : BarrierState n} (first : FirstBarrier kept s) :
    BarrierSafe kept s := by
  obtain ⟨polling, phase⟩ := first
  rcases phase with ⟨id, below, counted, one, few⟩ | ⟨id, full, all, scans⟩
  · have some : ¬ ∀ j, 0 < s.ipmBarrierId j := by
      intro everyone
      have : s.arrived.card = n := arrived_card_eq.mpr (id ▸ everyone)
      omega
    have stays : ∀ i, s.exits kept i = false := by
      intro i
      rw [BarrierState.exits, beq_eq_false_iff_ne]
      exact (few i).ne
    refine ⟨by omega, Or.inl counted, fun i _ leaves => ?_, fun i polls all => ?_⟩
    · rw [stays] at leaves
      cases leaves
    · have own := polling i polls
      exact absurd (fun j => by have := all j; omega) some
  · refine ⟨by omega, Or.inr ⟨full, ?_, fun j => (all j).trans id.symm⟩,
      fun i _ _ j => ?_, fun i polls _ => ?_⟩
    · rw [BarrierState.arrived, Finset.filter_eq_empty_iff]
      intro j _
      rw [all j, id]
      exact Nat.lt_irrefl 1
    · rw [all i, all j]
    · rw [BarrierState.exits, scans i polls, beq_self_eq_true]

/-! ## Steps and runs -/

/-- Counting a task in adds it to the tasks that have arrived. -/
theorem arrived_countIn {s : BarrierState n} {i : Fin n} (id : s.diskBarrierId = 0)
    (own : s.ipmBarrierId i = 0) (stays : (s.countIn i).diskBarrierId = 0) :
    (s.countIn i).arrived = insert i s.arrived ∧ i ∉ s.arrived := by
  refine ⟨?_, by simp [BarrierState.arrived, own]⟩
  ext j
  rw [Finset.mem_insert]
  simp only [BarrierState.arrived, Finset.mem_filter, Finset.mem_univ, true_and, stays, id]
  rcases eq_or_ne j i with rfl | apart
  · simp [BarrierState.countIn]
  · simp [BarrierState.countIn, apart]

theorem BarrierState.countIn_own (s : BarrierState n) (i : Fin n) :
    (s.countIn i).ipmBarrierId i = s.ipmBarrierId i + 1 := Function.update_self i _ _

theorem BarrierState.countIn_other (s : BarrierState n) {i j : Fin n} (apart : j ≠ i) :
    (s.countIn i).ipmBarrierId j = s.ipmBarrierId j := Function.update_of_ne apart _ _

/-- No task that still polls has polled before the last arrival, if its stream has kept
what it read. -/
def NoEarlyPoll (kept : Bool) (s : BarrierState n) : Prop :=
  kept = true → s.diskBarrierCount = n - 1 → ∀ j, s.pc j = .polling → s.block j = none

namespace FirstBarrier

variable {s : BarrierState n} {i : Fin n}

/-- The last arrival is that of the last task. -/
theorem last_arrives (first : FirstBarrier kept s) (id : s.diskBarrierId = 0)
    (own : s.ipmBarrierId i = 0) (last : s.diskBarrierCount = n - 1) (j : Fin n) :
    (s.countIn i).ipmBarrierId j = 1 := by
  obtain ⟨-, below, counted, one, -⟩ := first.phase.resolve_right fun done => by omega
  have total : insert i s.arrived = Finset.univ := by
    have fresh : i ∉ s.arrived := by simp [BarrierState.arrived, own]
    have card := Finset.card_insert_of_notMem fresh
    rw [← counted] at card
    rw [← Finset.card_eq_iff_eq_univ, Fintype.card_fin]
    omega
  rcases eq_or_ne j i with rfl | apart
  · rw [s.countIn_own, own]
  · have mem : j ∈ insert i s.arrived := total ▸ Finset.mem_univ j
    have arrived := (Finset.mem_insert.mp mem).resolve_left apart
    have after := (Finset.mem_filter.mp arrived).2
    have := one j
    rw [s.countIn_other apart]
    omega

/-- Counting a task in at the first barrier. -/
theorem countIn (first : FirstBarrier kept s) (id : s.diskBarrierId = 0)
    (own : s.ipmBarrierId i = 0) (early : NoEarlyPoll kept s) :
    FirstBarrier kept (s.countIn i) := by
  obtain ⟨-, below, counted, one, few⟩ := first.phase.resolve_right fun done => by omega
  have bound : ∀ j, (s.countIn i).ipmBarrierId j ≤ 1 := by
    intro j
    rcases eq_or_ne j i with rfl | apart
    · rw [s.countIn_own, own]
    · rw [s.countIn_other apart]
      exact one j
  have before : ∀ {j}, j ≠ i → (s.countIn i).pc j = s.pc j :=
    fun apart => Function.update_of_ne apart _ _
  have block : ∀ {j}, j ≠ i → (s.countIn i).block j = s.block j :=
    fun apart => Function.update_of_ne apart _ _
  have opened : (s.countIn i).block i = none := Function.update_self _ _ _
  have count : (s.countIn i).diskBarrierCount = s.diskBarrierCount + 1 := rfl
  refine ⟨fun j polls => ?_, ?_⟩
  · rcases eq_or_ne j i with rfl | apart
    · rw [s.countIn_own, own]
    · rw [s.countIn_other apart]
      exact first.polling j (before apart ▸ polls)
  · rcases eq_or_ne s.diskBarrierCount (n - 1) with last | more
    · -- the last arrival moves the line on
      have moved : (s.countIn i).diskBarrierId = 1 := by
        change (if s.diskBarrierCount = n - 1 then s.diskBarrierId + 1 else _) = 1
        rw [if_pos last, id]
      have full : (s.countIn i).diskBarrierCount = n := by
        rw [count]
        omega
      refine Or.inr ⟨moved, full, first.last_arrives id own last, fun j polls => ?_⟩
      rw [BarrierState.scanned, full]
      split
      · rename_i keeps
        have none_ : (s.countIn i).block j = none := by
          rcases eq_or_ne j i with rfl | apart
          · exact opened
          · rw [block apart]
            exact early keeps last j (before apart ▸ polls)
        rw [none_]
        rfl
      · rfl
    · have stays : (s.countIn i).diskBarrierId = 0 := by
        change (if s.diskBarrierCount = n - 1 then _ else s.diskBarrierId) = 0
        rw [if_neg more, id]
      obtain ⟨grown, fresh⟩ := arrived_countIn id own stays
      have below' : (s.countIn i).diskBarrierCount < n := by
        rw [count]
        omega
      refine Or.inl ⟨stays, below', ?_, bound, fun j => ?_⟩
      · rw [grown, Finset.card_insert_of_notMem fresh, ← counted]
        rfl
      · have scanned := few j
        rw [BarrierState.scanned] at scanned ⊢
        split
        · rename_i keeps
          rw [if_pos keeps] at scanned
          rcases eq_or_ne j i with rfl | apart
          · rw [opened]
            exact below'
          · rw [block apart]
            cases read : s.block j with
            | none => exact below'
            | some c =>
                rw [read] at scanned
                exact scanned
        · exact below'

theorem goto {pc : BarrierPc} (first : FirstBarrier kept s) (quiet : pc ≠ .polling) :
    FirstBarrier kept (s.goto i pc) := by
  have before : ∀ j, (s.goto i pc).pc j = .polling → s.pc j = .polling := by
    intro j polls
    rcases eq_or_ne j i with rfl | apart
    · have now : (s.goto j pc).pc j = pc := Function.update_self j _ _
      exact absurd (now ▸ polls) quiet
    · have same : (s.goto i pc).pc j = s.pc j := Function.update_of_ne apart _ _
      exact same ▸ polls
  refine ⟨fun j polls => first.polling j (before j polls), ?_⟩
  rcases first.phase with open_ | ⟨id, full, all, scans⟩
  · exact Or.inl open_
  · exact Or.inr ⟨id, full, all, fun j polls => scans j (before j polls)⟩

/-- A poll that goes on reads a count below `n`. -/
theorem reads (first : FirstBarrier kept s) (polling : s.pc i = .polling)
    (stays : s.exits kept i = false) : FirstBarrier kept (s.reads kept i) := by
  rcases first.phase with ⟨id, below, counted, one, few⟩ | ⟨-, -, -, scans⟩
  · refine ⟨first.polling, Or.inl ⟨id, below, counted, one, fun j => ?_⟩⟩
    have scanned := few j
    rw [BarrierState.scanned] at scanned ⊢
    split
    · rename_i keeps
      rw [if_pos keeps] at scanned
      rcases eq_or_ne j i with rfl | apart
      · have read : (s.reads kept j).block j = some (s.scanned kept j) :=
          Function.update_self _ _ _
        rw [read]
        exact few j
      · have same : (s.reads kept i).block j = s.block j := Function.update_of_ne apart _ _
        rw [same]
        exact scanned
    · exact below
  · rw [BarrierState.exits, scans i polling, beq_self_eq_true] at stays
    cases stays

end FirstBarrier

/-- The task does not arrive at a barrier after the first, nor last after an early poll. -/
def AtFirst (kept : Bool) (s : BarrierState n) (a : BarrierAct n) : Prop :=
  a.CountsIn s → s.diskBarrierId = 0 ∧ NoEarlyPoll kept s

section Step

variable {s s' : BarrierState n} {a : BarrierAct n}

theorem barrierStep_firstBarrier (first : FirstBarrier kept s) (atFirst : AtFirst kept s a)
    (h : barrierStep kept s a = .ok s') : FirstBarrier kept s' := by
  rcases barrierStep_cases h with
    ⟨i, rfl, -, counts, rfl⟩ | ⟨-, i, pc, quiet, rfl⟩ | ⟨-, i, polling, stays, rfl⟩ | ⟨-, rfl⟩
  · obtain ⟨id, early⟩ := atFirst counts
    have own : s.diskBarrierId = s.ipmBarrierId i := counts
    exact first.countIn id (own.symm.trans id) early
  · exact first.goto quiet
  · exact first.reads polling stays
  · exact first

/-- An arrival at a later barrier counts on from `n`, and the last arrival at the first is
not seen by a task that has polled. -/
theorem barrierStep_unsafe (first : FirstBarrier kept s) (other : ¬ AtFirst kept s a)
    (h : barrierStep kept s a = .ok s') : ¬ BarrierSafe kept s' := by
  obtain ⟨counts, passed⟩ := Classical.not_imp.mp other
  obtain ⟨i, rfl, arriving, -, rfl⟩ : ∃ i, a = .arrive i ∧ s.pc i = .arriving ∧
      a.CountsIn s ∧ s' = s.countIn i := by
    rcases barrierStep_cases h with counted | ⟨none_, -⟩ | ⟨none_, -⟩ | ⟨none_, -⟩
    · exact counted
    · exact absurd counts none_
    · exact absurd counts none_
    · exact absurd counts none_
  intro safe
  rcases Nat.eq_zero_or_pos s.diskBarrierId with id | later
  · obtain ⟨keeps, early⟩ := Classical.not_imp.mp fun early => passed ⟨id, early⟩
    obtain ⟨last, early⟩ := Classical.not_imp.mp early
    obtain ⟨j, early⟩ := Classical.not_forall.mp early
    obtain ⟨polling, read⟩ := Classical.not_imp.mp early
    have own : s.ipmBarrierId i = 0 := (show s.diskBarrierId = s.ipmBarrierId i from counts) ▸ id
    have all := first.last_arrives id own last
    have apart : j ≠ i := by
      rintro rfl
      rw [arriving] at polling
      cases polling
    have pc : (s.countIn i).pc j = .polling :=
      (Function.update_of_ne apart _ _).trans polling
    have leaves := safe.leaves_once_all j pc fun k => by rw [all j, all k]
    obtain ⟨c, block⟩ := Option.ne_none_iff_exists'.mp read
    have same : (s.countIn i).block j = some c := (Function.update_of_ne apart _ _).trans block
    obtain ⟨-, -, -, -, few⟩ := first.phase.resolve_right fun done => by omega
    have below := few j
    rw [BarrierState.scanned, if_pos keeps, block] at below
    rw [BarrierState.exits, BarrierState.scanned, if_pos keeps, same, beq_iff_eq] at leaves
    exact absurd leaves below.ne
  · obtain ⟨-, full, -⟩ := first.phase.resolve_left fun open_ => by omega
    have most := safe.count_le
    change s.diskBarrierCount + 1 ≤ n at most
    omega

end Step

/-- Barrier safety over runs.  For every number of tasks and every interleaving,
every state reached is safe exactly when every task that counts itself in does so
at the first barrier, and none that still polls has polled before the last of them. -/
theorem barrier_safe_iff (kept : Bool) (pos : 0 < n) (acts : List (BarrierAct n))
    (u : BarrierState n) (ok : Runs.run (barrierStep kept) (.init n) acts = .ok u) :
    (∀ s, Runs.Reached (barrierStep kept) (.init n) acts s → BarrierSafe kept s) ↔
      ∀ s i, Runs.Visit (barrierStep kept) (.init n) acts s (.arrive i) →
        s.diskBarrierId = s.ipmBarrierId i → s.diskBarrierId = 0 ∧ NoEarlyPoll kept s := by
  have rule := Runs.forall_reached_iff_forall_visit (I := FirstBarrier kept)
    (P := BarrierSafe kept) (G := AtFirst kept) (init_firstBarrier pos)
    (fun first atFirst h => barrierStep_firstBarrier first atFirst h)
    (fun first => first.safe) (fun first other h => barrierStep_unsafe first other h) ok
  rw [rule]
  refine ⟨fun guarded s i visit => guarded s (.arrive i) visit, fun guarded s a visit => ?_⟩
  cases a with
  | arrive i => exact guarded s i visit
  | call i => exact False.elim
  | arriveTimeout i => exact False.elim
  | poll i => exact False.elim
  | pollTimeout i => exact False.elim

instance (kept : Bool) (s : BarrierState n) : Decidable (NoEarlyPoll kept s) :=
  inferInstanceAs (Decidable (_ → _ → ∀ j, s.pc j = .polling → s.block j = none))

/-- Three tasks meet at the first barrier, poll when the last has arrived, and leave. -/
def meetOnce : List (BarrierAct 3) :=
  [.call 0, .arrive 0, .call 2, .call 1, .arrive 1, .arrive 2, .poll 1, .poll 0, .poll 2]

theorem barrier_safe_meetOnce :
    ∃ u, Runs.run (barrierStep true) (.init 3) meetOnce = .ok u ∧
      ∀ s, Runs.Reached (barrierStep true) (.init 3) meetOnce s → BarrierSafe true s := by
  have visits : Runs.checkVisits (barrierStep true) (fun s a => match a with
      | .arrive i => decide (s.diskBarrierId = s.ipmBarrierId i → s.diskBarrierId = 0 ∧
          NoEarlyPoll true s)
      | _ => true) (.init 3) meetOnce = true := by
    decide
  refine ⟨_, rfl, (barrier_safe_iff true (by decide) meetOnce _ rfl).mpr fun s i visit => ?_⟩
  have check := Runs.checkVisits_visit visits visit
  simp only [decide_eq_true_eq] at check
  exact check

/-- Where the block is read anew, one of two tasks goes on to the second barrier while the
other still polls in the first: the count is 3, and neither can leave by it.  Where it is
kept, a task that polls before the other has arrived does not see it arrive. -/
theorem second_barrier_unsafe :
    (∃ u, Runs.run (barrierStep false) (.init 2)
        [.call 0, .arrive 0, .call 1, .arrive 1, .poll 1, .call 1, .arrive 1] = .ok u ∧
      u.diskBarrierCount = 3 ∧ u.pc 0 = .polling ∧ u.exits false 0 = false ∧
      ¬ BarrierSafe false u) ∧
    ∃ u, Runs.run (barrierStep true) (.init 2)
        [.call 0, .arrive 0, .poll 0, .call 1, .arrive 1] = .ok u ∧
      (∀ j, u.ipmBarrierId j = 1) ∧ u.pc 0 = .polling ∧ u.exits true 0 = false ∧
      ¬ BarrierSafe true u := by
  refine ⟨⟨_, rfl, rfl, rfl, rfl, fun safe => ?_⟩, ⟨_, rfl, by decide, rfl, rfl, fun safe => ?_⟩⟩
  · exact absurd safe.count_le (show ¬ 3 ≤ 2 by decide)
  · exact absurd (safe.leaves_once_all 0 rfl (by decide)) (by decide)

end Ipm
