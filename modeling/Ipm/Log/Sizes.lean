import Ipm.Hash.Sizes
import Ipm.Log.Events

/-!
# The sizes in a log

What the `<hent>` lines of a task say of the sizes of its MPI calls, after a run of an application
and the `ipm_sync` of the finaliser.

* `Sized.run`: after a run the table has a key for each event.
* `Sized.kept`: no key has lost more than its mask takes by now.
* `hentLines_sizes`: the lines add up to the sizes in the table.
* `Sized.lines_bounds`: those lie between the sizes of the events and what the last masks leave
  of them.
-/

namespace Ipm

/-! ## The table after a run -/

/-- The masks a task starts with. -/
def fullMask : Nat → Nat := fun _ => callMaskBprec

theorem fullMask_full (c : Nat) : callBufPrecision fullMask c = callMaskBprec := Nat.and_self _

/-- The table has a key for each event. -/
def Sized (b : Build) (t : HashState) (events : List MpiEvent) : Prop :=
  ∃ calls, Cut b fullMask calls t events

section Run

variable {b : Build} {fuel : Nat} {env : CheckpointEnv} {o o' : Observed} {events : List MpiEvent}

theorem Sized.of_table {t u : HashState} (sized : Sized b t events) (hash : u.hash = t.hash)
    (callMask : u.callMask = t.callMask) : Sized b u events := by
  rcases sized with ⟨calls, cut⟩
  exact ⟨calls, cut.of_table hash callMask⟩

theorem ipmSync_callMask (b : Build) (t : TaskState) (now : SyncReading) :
    (ipmSync b t now).table.callMask = t.table.callMask := by
  refine Runs.foldl_keeps (fun v : TaskState => v.table.callMask) (fun v i => ?_) _ _
  unfold syncEnt
  split <;> rfl

theorem takeCheckpoint_sized {t t' : TaskState} {now : CheckpointReading}
    (sized : Sized b t.table events) (taken : takeCheckpoint b t now = .ok t') :
    Sized b t'.table events := by
  refine sized.of_table (takeCheckpoint_sums taken).1 ?_
  rcases Runs.bind_eq_ok taken with ⟨region, _, rest⟩
  rcases Runs.bind_eq_ok rest with ⟨left, _, done⟩
  cases done
  exact ipmSync_callMask b _ now.sync

/-- A step of the application adds its event, whatever checkpoints and culls it takes. -/
theorem Sized.step {a : AppStep} (sized : Sized b o.task.table events)
    (inBounds : ∀ e ∈ a.logged o', e.InBounds) (h : appStep b fuel env o a = .ok o') :
    Sized b o'.task.table (events ++ a.logged o') := by
  cases a with
  | region c =>
      rcases Runs.bind_eq_ok h with ⟨region, _, done⟩
      cases done
      rwa [AppStep.logged, List.append_nil]
  | mpi e now =>
      rcases Runs.bind_eq_ok h with ⟨⟨task, ret, key⟩, wrapped, done⟩
      rcases Runs.bind_eq_ok wrapped with ⟨⟨v, ret'⟩, hooked, rest⟩
      rcases Runs.bind_eq_ok rest with ⟨table, logged, made⟩
      cases done
      cases made
      have before : Sized b v.table events := by
        rcases ipmMpiCheckpoint_cases hooked with ⟨_, _, taken⟩ | ⟨quiet, _, _⟩
        · have stamped : Sized b { stampCheckpoint o.task now.stamp with
              prevCpStamp := now.stamp }.table events := sized
          exact takeCheckpoint_sized stamped taken
        · rwa [(ipmMpiCheckpoint_quiet quiet hooked).1]
      have ok : MpiEvent.InBounds { e with region := v.region.regionCurrent } :=
        inBounds _ List.mem_cons_self
      rcases before with ⟨calls, cut⟩
      rcases wrapperLog_cut fullMask_full ok cut (Runs.mapError_eq_ok logged) with ⟨more, cut⟩
      exact ⟨calls ++ more, cut⟩

/-- After a run of an application the table has a key for each of its events. -/
theorem Sized.run {steps : List AppStep} (sized : Sized b o.task.table events)
    (inBounds : ∀ e ∈ appEvents b fuel env o steps, e.InBounds)
    (ran : Runs.run (appStep b fuel env) o steps = .ok o') :
    Sized b o'.task.table (events ++ appEvents b fuel env o steps) := by
  induction steps generalizing o events with
  | nil =>
      cases ran
      rwa [appEvents, List.append_nil]
  | cons a steps ih =>
      rcases Runs.run_cons_eq_ok ran with ⟨v, stepped, rest⟩
      rw [appEvents, stepped] at inBounds ⊢
      dsimp only at inBounds ⊢
      rw [List.forall_mem_append] at inBounds
      rw [← List.append_assoc]
      exact ih (sized.step inBounds.1 stepped) inBounds.2 rest

theorem Sized.init (b : Build) : Sized b .init [] := ⟨[], Cut.empty rfl rfl⟩

end Run

/-! ## The lines -/

/-- The rank that is printed for a partner. -/
def shownRank (mpiSize rank : Int) : Int := if mpiSize < rank then -1 else rank

section Lines

variable {b : Build} {t : HashState} {events : List MpiEvent}

theorem Sized.orankOf (sized : Sized b t events) (mpiSize : Int) (key : Nat) :
    Ipm.orankOf t.callMask mpiSize key = shownRank mpiSize (keyRank key) := by
  rcases sized with ⟨calls, cut⟩
  have lowered : Lowered fullMask t.callMask := ⟨calls, cut.callMask⟩
  have bit : t.callMask (keyCall key) &&& callSemRankNone = 0 := by
    have option : (callMaskState ||| callMaskOpt) &&& callSemRankNone = callSemRankNone := by decide
    rw [← option, ← Nat.and_assoc, lowered.options (keyCall key)]
    change callMaskBprec &&& (callMaskState ||| callMaskOpt) &&& callSemRankNone = 0
    decide
  unfold Ipm.orankOf shownRank
  simp only [bit, ne_eq, not_true_eq_false, if_false, gt_iff_lt]

/-- No key has lost more of the size of its event than its call's mask takes by now. -/
theorem Sized.kept (sized : Sized b t events) (inBounds : ∀ e ∈ events, e.InBounds) :
    Multiset.Rel (KeptKey t) (t.marks b) events := by
  rcases sized with ⟨calls, cut⟩
  exact cut.kept fullMask_full inBounds

/-- The lines of some targets add up to the sizes in the table. -/
theorem Sized.hentLines_sizes (sized : Sized b t events) {mpiSize : Int} {p : HentLine → Prop}
    [DecidablePred p] {q : Nat × Nat × Int → Prop} [DecidablePred q]
    (agree : ∀ ent : HashEnt, p (ent.line t.callMask mpiSize) ↔ q (keyTarget ent.key)) :
    (((hentLines b mpiSize t).filter fun line => p line).map fun line =>
      (line.count : Int) * line.ibytes).sum = t.sizes b q := by
  rcases sized with ⟨calls, cut⟩
  rw [hentLines_sum, entrySum_eq_sum, HashState.sizes, HashState.marks, Shares.sum_map_sum]
  refine Finset.sum_congr rfl fun i _ => ?_
  rw [HashEnt.marks, Multiset.map_replicate, Multiset.sum_replicate]
  unfold slotTerm
  by_cases vacant : (t.hash i).key = 0
  · rw [if_pos vacant, cut.vacant i vacant, zero_nsmul]
  · rw [if_neg vacant]
    dsimp only
    by_cases of : q (keyTarget (t.hash i).key)
    · rw [if_pos of, if_pos ((agree _).mpr of), nsmul_eq_mul]
      rfl
    · rw [if_neg of, if_neg fun given => of ((agree _).mp given), nsmul_zero]

/-- The sizes the lines of some targets add up to. -/
theorem Sized.lines_bounds (sized : Sized b t events) (inBounds : ∀ e ∈ events, e.InBounds)
    {mpiSize : Int} {p : HentLine → Prop} [DecidablePred p] {q : Nat × Nat × Int → Prop}
    [DecidablePred q]
    (agree : ∀ ent : HashEnt, p (ent.line t.callMask mpiSize) ↔ q (keyTarget ent.key)) :
    ((events.filter fun e => q e.target).map fun e =>
        (maskedSize t.callMask e.call e.bytes : Int)).sum ≤
      (((hentLines b mpiSize t).filter fun line => p line).map fun line =>
        (line.count : Int) * line.ibytes).sum ∧
      (((hentLines b mpiSize t).filter fun line => p line).map fun line =>
        (line.count : Int) * line.ibytes).sum ≤
      ((events.filter fun e => q e.target).map MpiEvent.bytes).sum := by
  rw [sized.hentLines_sizes agree]
  rcases sized with ⟨calls, cut⟩
  exact cut.sizes_bounds fullMask_full inBounds q

end Lines

end Ipm
