import Ipm.Hash.Targets
import Ipm.Trace.Select
import Ipm.Wrapper.History
import Ipm.Wrapper.Masks

/-!
# The ranks of the `<hent>` lines

The partner rank that `ipm_log_write` prints for an entry, by CALL_SEM_RANK_NONE in the mask of
its call: from the generated start of `ipm_mpi_init`, which takes the bit from the call table,
through `ipm_init_task`, `ipm_get_env` and the run.

* `ipmMpiInit_testBit`: the bits of the masks that are none of the options.
* `ipmMpiInit_rankless`: the bit is in no mask when MPI_Init is done, whatever the table.
* `keyVars_rankNone`: what the wrapper of a RANK_NONE call logs for a rank.
* `ranksTold_iff`: the printed ranks tell RANK_NONE calls apart exactly when no such call is
  logged with a rank up to the number of tasks.
-/

namespace Ipm

open Scan

/-! ## The call table -/

def callSemRankNone : Nat := 1 <<< 63
def callSemDataNone : Nat := 1 <<< 62

/-- DATA_* of the lines of `ipm_key` with a wrapper. -/
inductive DataClass
  | none | tx | rx | txrx | collective
deriving DecidableEq

/-- What the mask of a call is generated from. -/
structure CallRow where
  idv : Nat
  rnk : RankClass
  dat : DataClass

/-- A call table, whose calls have a word in `call_mask`. -/
structure CallTable (b : Build) where
  rows : List CallRow
  idv_le : ∀ c ∈ rows, c.idv ≤ b.maxsizeCalls

section Table

variable {b : Build} (table : CallTable b)

/-- The table has the call. -/
def CallTable.Lists (call : Nat) : Prop := ∃ c ∈ table.rows, c.idv = call

/-- The table declares the call RANK_NONE. -/
def CallTable.RankNone (call : Nat) : Prop := ∃ c ∈ table.rows, c.idv = call ∧ c.rnk = .none

instance (call : Nat) : Decidable (table.Lists call) :=
  inferInstanceAs (Decidable (∃ c ∈ table.rows, c.idv = call))

instance (call : Nat) : Decidable (table.RankNone call) :=
  inferInstanceAs (Decidable (∃ c ∈ table.rows, c.idv = call ∧ c.rnk = .none))

/-! ## MPI_Init -/

/-- `task.call_mask[...] = ...;` for a row. -/
def CallRow.mask (c : CallRow) : Nat :=
  (if c.rnk = .none then callSemRankNone else 0) |||
    ((if c.dat = .none then callSemDataNone else 0) ||| 0)

/-- The generated start of `ipm_mpi_init`. -/
def CallTable.writeMasks (callMask : Nat → Nat) : Nat → Nat :=
  table.rows.foldl (fun callMask c => Function.update callMask c.idv c.mask) callMask

end Table

/-- `ipm_init_task` on `call_mask`. -/
def initTaskMask (b : Build) (callMask : Nat → Nat) : Nat → Nat := fun i =>
  if i ≤ b.maxsizeCalls then callMaskBprec else callMask i

/-- Set an option in the calls `p` selects. -/
def TrcSettings.setOpt (env : TrcEnv) (s : TrcSettings) (opt : Nat) (p : Nat → Bool) :
    TrcSettings :=
  { s with
    callMask := fun i =>
      if 1 ≤ i ∧ i ≤ env.build.maxsizeCalls ∧ p i then s.callMask i ||| opt else s.callMask i }

/-- A word of IPM_MPI_NOOP or IPM_MPI_PASS. -/
def maskWord (env : TrcEnv) (opt : Nat) (s : TrcSettings) (word : Label) : TrcSettings :=
  let s := if sameLabel word "*".toList then s.setOpt env opt fun _ => true else s
  s.setOpt env opt fun i => sameLabel word (env.callLabel i)

/-- A variable of the environment: what `ipm_get_env` does to the masks and the trace. -/
def envVar (env : TrcEnv) (rank : Int) (s : TrcSettings) (v : Label × Label) :
    Except TrcStop TrcSettings :=
  if v.1 = "IPM_MPI_NOOP".toList then .ok ((tokens '+' v.2).foldl (maskWord env callOptNoop) s)
  else if v.1 = "IPM_MPI_PASS".toList then
    .ok ((tokens '+' v.2).foldl (maskWord env callOptPass) s)
  else if v.1 = "IPM_MPI_TRACE".toList then ipmTrcSelect env rank s v.2
  else .ok s

/-- `ipm_get_env`. -/
def ipmGetEnv (env : TrcEnv) (rank : Int) (s : TrcSettings) (vars : List (Label × Label)) :
    Except TrcStop TrcSettings :=
  Runs.run (envVar env rank) s vars

/-- `ipm_mpi_init`: the masks of the call table, then `ipm_init`; `env.callMask` is what
`call_mask` held before. -/
def ipmMpiInit (env : TrcEnv) (table : CallTable env.build) (rank : Int)
    (vars : List (Label × Label)) : Except TrcStop TrcSettings :=
  let callMask := initTaskMask env.build (table.writeMasks env.callMask)
  ipmGetEnv env rank (.init { env with callMask := callMask }) vars

/-- The hash table MPI_Init leaves. -/
def TrcSettings.hashState (s : TrcSettings) : HashState := { HashState.init with
  callMask := s.callMask }

/-! ## The lines -/

/-- A `<hent>` line; its label is that of the call. -/
structure HentLine where
  key : Nat
  icall : Nat
  ibytes : Int
  orank : Int
  region : Nat
  count : Nat
  tTot : Rat
  tMin : Rat
  tMax : Rat

/-- The rank that `ipm_log_write` prints for a key. -/
def orankOf (callMask : Nat → Nat) (mpiSize : Int) (key : Nat) : Int :=
  let irank := keyRank key
  let irank := if callMask (keyCall key) &&& callSemRankNone ≠ 0 then -1 else irank
  if irank > mpiSize then -1 else irank

/-- The `<hent>` lines of `ipm_log_write`, in order. -/
def hentLines (b : Build) (mpiSize : Int) (t : HashState) : List HentLine :=
  (List.range (b.maxsizeHash + 1)).filterMap fun i =>
    let ent := t.hash i
    if ent.key ≠ 0 then
      some ⟨ent.key, keyCall ent.key, keyByte ent.key, orankOf t.callMask mpiSize ent.key,
        keyRegion ent.key, ent.count, ent.tTot, ent.tMin, ent.tMax⟩
    else none

/-- The lines tell the RANK_NONE calls from the others. -/
structure RanksTold {b : Build} (table : CallTable b) (mpiSize : Int) (lines : List HentLine) :
    Prop where
  rankNone : ∀ line ∈ lines, table.RankNone line.icall → line.orank = -1
  rank : ∀ line ∈ lines, ¬ table.RankNone line.icall → 0 ≤ keyRank line.key →
    keyRank line.key < mpiSize → line.orank = keyRank line.key

/-- The targets of the table have lines, and the lines have targets of the table. -/
theorem hentLines_targets (b : Build) (mpiSize : Int) (t : HashState) :
    {x | ∃ line ∈ hentLines b mpiSize t, keyTarget line.key = x} = t.targets b := by
  ext x
  simp only [hentLines, List.mem_filterMap, List.mem_range, HashState.targets, Build.slots,
    Finset.mem_range, Set.mem_ofPred_eq]
  constructor
  · intro printed
    obtain ⟨line, ⟨i, inRange, made⟩, target⟩ := printed
    split at made
    · rename_i occupied
      cases made
      exact ⟨i, inRange, occupied, target⟩
    · cases made
  · intro stored
    obtain ⟨i, inRange, occupied, target⟩ := stored
    exact ⟨_, ⟨i, inRange, if_pos occupied⟩, target⟩

theorem hentLine_eq {b : Build} {mpiSize : Int} {t : HashState} {line : HentLine}
    (printed : line ∈ hentLines b mpiSize t) :
    line.icall = keyCall line.key ∧ line.orank = orankOf t.callMask mpiSize line.key := by
  simp only [hentLines, List.mem_filterMap] at printed
  obtain ⟨i, -, made⟩ := printed
  split at made
  · cases made
    exact ⟨rfl, rfl⟩
  · cases made

/-! ## The bit is lost -/

/-- No mask of a call has CALL_SEM_RANK_NONE. -/
def Rankless (b : Build) (callMask : Nat → Nat) : Prop :=
  ∀ call ≤ b.maxsizeCalls, callMask call &&& callSemRankNone = 0

section Masks

variable {env : TrcEnv} {s s' : TrcSettings}

/-- A bit of a mask after an option is set. -/
theorem setOpt_testBit (env : TrcEnv) (s : TrcSettings) (opt : Nat) (p : Nat → Bool) (i k : Nat) :
    ((s.setOpt env opt p).callMask i).testBit k =
      ((s.callMask i).testBit k ||
        (decide (1 ≤ i ∧ i ≤ env.build.maxsizeCalls ∧ p i) && opt.testBit k)) := by
  simp only [TrcSettings.setOpt]
  split
  · rename_i selected
    rw [Nat.testBit_or, decide_eq_true selected, Bool.true_and]
  · rename_i other
    rw [decide_eq_false other, Bool.false_and, Bool.or_false]

theorem setTrace_testBit (env : TrcEnv) (s : TrcSettings) (p : Nat → Bool) (i k : Nat) :
    ((s.setTrace env p).callMask i).testBit k =
      ((s.callMask i).testBit k ||
        (decide (1 ≤ i ∧ i ≤ env.build.maxsizeCalls ∧ p i) && decide (k = 48))) := by
  have bit : callOptTrace.testBit k = decide (k = 48) := by
    rw [callOptTrace, Nat.one_shiftLeft, Nat.testBit_two_pow, decide_eq_decide, eq_comm]
  rw [← bit]
  exact setOpt_testBit env s callOptTrace p i k

/-- A bit that is none of the options of a mask. -/
def NoOption (k : Nat) : Prop := k ≠ 48 ∧ k ≠ 49 ∧ k ≠ 50

theorem NoOption.zero : NoOption 0 := by
  unfold NoOption
  decide

variable {k : Nat}

theorem setTrace_keeps (other : NoOption k) (s : TrcSettings) (p : Nat → Bool) (i : Nat) :
    ((s.setTrace env p).callMask i).testBit k = (s.callMask i).testBit k := by
  rw [setTrace_testBit, decide_eq_false other.1, Bool.and_false, Bool.or_false]

/-- The words of IPM_MPI_NOOP and IPM_MPI_PASS leave the other bits. -/
theorem maskWords_keeps {opt : Nat} (other : opt.testBit k = false) (words : List Label)
    (s : TrcSettings) (i : Nat) :
    ((words.foldl (maskWord env opt) s).callMask i).testBit k = (s.callMask i).testBit k := by
  refine Runs.foldl_keeps (fun s : TrcSettings => (s.callMask i).testBit k) (fun s word => ?_) _ _
  unfold maskWord
  dsimp only
  rw [setOpt_testBit, other, Bool.and_false, Bool.or_false]
  split
  · rw [setOpt_testBit, other, Bool.and_false, Bool.or_false]
  · rfl

theorem callWords_keeps (other : NoOption k) (words : List Label) (s : TrcSettings) (i : Nat) :
    ((words.foldl (callWord env) s).callMask i).testBit k = (s.callMask i).testBit k := by
  refine Runs.foldl_keeps (fun s : TrcSettings => (s.callMask i).testBit k) (fun s word => ?_) _ _
  unfold callWord
  dsimp only
  split <;> split <;> simp only [setTrace_keeps other]

/-- The masks without the trace option. -/
def TrcSettings.clearTrace (env : TrcEnv) (s : TrcSettings) : TrcSettings :=
  { s with
    callMask := fun i =>
      if 1 ≤ i ∧ i ≤ env.build.maxsizeCalls then clearBits (s.callMask i) callOptTrace
      else s.callMask i }

theorem clearTrace_testBit (env : TrcEnv) (s : TrcSettings) (i k : Nat) :
    ((s.clearTrace env).callMask i).testBit k = ((s.callMask i).testBit k &&
      !(decide (1 ≤ i ∧ i ≤ env.build.maxsizeCalls) && decide (k = 48))) := by
  simp only [TrcSettings.clearTrace]
  split
  · rename_i inRange
    rw [callOptTrace, testBit_clearBits, decide_eq_true inRange, Bool.true_and]
  · rename_i outside
    rw [decide_eq_false outside, Bool.false_and, Bool.not_false, Bool.and_true]

theorem clearTrace_keeps (other : NoOption k) (s : TrcSettings) (i : Nat) :
    ((s.clearTrace env).callMask i).testBit k = (s.callMask i).testBit k := by
  rw [clearTrace_testBit, decide_eq_false other.1, Bool.and_false, Bool.not_false, Bool.and_true]

theorem trcClause_call {rank : Int} {text : Label} (call : isClause "call:" text = true) :
    trcClause env rank s text =
      .ok ((tokens '+' (text.drop 5)).foldl (callWord env) (s.clearTrace env)) := by
  have kind : clauseKind text = some .call := clauseKind_eq_some.mpr call
  rw [trcClause_eq, kind]
  rfl

theorem trcClause_keeps (other : NoOption k) {rank : Int} {text : Label}
    (ok : trcClause env rank s text = .ok s') (i : Nat) :
    (s'.callMask i).testBit k = (s.callMask i).testBit k := by
  cases call : isClause "call:" text with
  | false => rw [(trcClause_effect ok).callMask call]
  | true =>
      rw [trcClause_call call] at ok
      cases ok
      rw [callWords_keeps other, clearTrace_keeps other]

theorem ipmTrcSelect_keeps (other : NoOption k) {rank : Int} {opt : Label}
    (ok : ipmTrcSelect env rank s opt = .ok s') (i : Nat) :
    (s'.callMask i).testBit k = (s.callMask i).testBit k := by
  have selected : ((s.selectAll env).callMask i).testBit k = (s.callMask i).testBit k :=
    setTrace_keeps other s (fun _ => true) i
  exact Runs.run_keeps (I := fun u => (u.callMask i).testBit k = (s.callMask i).testBit k) selected
    (fun inv stepped => (trcClause_keeps other stepped i).trans inv) ok

/-- No variable of the environment changes a bit that is none of the options. -/
theorem envVar_keeps (other : NoOption k) {rank : Int} {v : Label × Label}
    (ok : envVar env rank s v = .ok s') (i : Nat) :
    (s'.callMask i).testBit k = (s.callMask i).testBit k := by
  have bit : ∀ j, k ≠ j → (1 <<< j).testBit k = false := by
    intro j differs
    rw [Nat.one_shiftLeft, Nat.testBit_two_pow]
    exact decide_eq_false fun same => differs same.symm
  unfold envVar at ok
  split at ok
  · cases ok
    exact maskWords_keeps (bit 50 other.2.2) _ s i
  split at ok
  · cases ok
    exact maskWords_keeps (bit 49 other.2.1) _ s i
  split at ok
  · exact ipmTrcSelect_keeps other ok i
  · cases ok
    rfl

/-- When MPI_Init is done such a bit is as `ipm_init_task` has set it. -/
theorem ipmMpiInit_testBit (other : NoOption k) {table : CallTable env.build} {rank : Int}
    {vars : List (Label × Label)} (ok : ipmMpiInit env table rank vars = .ok s) {i : Nat}
    (inRange : i ≤ env.build.maxsizeCalls) :
    (s.callMask i).testBit k = callMaskBprec.testBit k := by
  have start : ((TrcSettings.init { env with
      callMask := initTaskMask env.build (table.writeMasks env.callMask) }).callMask i).testBit k =
        callMaskBprec.testBit k := by
    have task : initTaskMask env.build (table.writeMasks env.callMask) i = callMaskBprec :=
      if_pos inRange
    rw [← task]
    exact clearTrace_keeps other (s := { TrcSettings.init env with callMask := _ }) i
  exact Runs.run_keeps (I := fun u => (u.callMask i).testBit k = callMaskBprec.testBit k) start
    (fun inv stepped => (envVar_keeps other stepped i).trans inv) ok

/-- When MPI_Init is done no mask has CALL_SEM_RANK_NONE: `ipm_init_task` overwrites what
the call table has put there, and no variable of the environment brings it back. -/
theorem ipmMpiInit_rankless {table : CallTable env.build} {rank : Int}
    {vars : List (Label × Label)} (ok : ipmMpiInit env table rank vars = .ok s) :
    Rankless env.build s.callMask := by
  intro call inRange
  by_contra bit
  rw [← ne_eq, callSemRankNone, and_one_shiftLeft_ne_zero,
    ipmMpiInit_testBit (by unfold NoOption; decide) ok inRange] at bit
  exact absurd bit (by decide)

end Masks

/-- Lowered precisions do not bring the bit back. -/
theorem Rankless.lowered {b : Build} {callMask callMask' : Nat → Nat}
    (clear : Rankless b callMask) (lowered : Lowered callMask callMask') :
    Rankless b callMask' := by
  intro call inRange
  have bit : (callMaskState ||| callMaskOpt) &&& callSemRankNone = callSemRankNone := by decide
  rw [← clear call inRange, ← bit, ← Nat.and_assoc, ← Nat.and_assoc, lowered.options call]

/-- Without the bit only a rank above the number of tasks is hidden. -/
theorem orankOf_rankless {b : Build} {callMask : Nat → Nat} (clear : Rankless b callMask)
    {key : Nat} (inRange : keyCall key ≤ b.maxsizeCalls) (mpiSize : Int) :
    orankOf callMask mpiSize key = if mpiSize < keyRank key then -1 else keyRank key := by
  simp only [orankOf, clear _ inRange, ne_eq, not_true_eq_false, if_false, gt_iff_lt]

/-! ## The ranks of RANK_NONE calls -/

/-- No MPI_Wait* of the call table that is RANK_NONE has a communicator. -/
theorem rankNone_wait {w : IpmCall} (rankNone : w.row.rnk = .none)
    (wait : w.row.cfn.startsWith "MPI_Wait" = true) : w.row.com = .none := by
  have rows : ∀ w : IpmCall, w.row.rnk = .none → w.row.cfn.startsWith "MPI_Wait" = true →
      w.row.com = .none := by
    decide +kernel
  exact rows w rankNone wait

/-- The test of the MPI_Wait* wrappers lets rank 0 pass. -/
theorem irank_checked (env : WrapEnv) (w : IpmCall) (tasks : 0 ≤ env.mpiSize) {v : WrapVars}
    (zero : v.irank = 0) :
    (if w.row.cfn.startsWith "MPI_Wait" then
      if v.irank < 0 ∨ env.mpiSize < v.irank then { v with irank := env.mpiRank } else v
      else v).irank = 0 := by
  have sane : ¬(v.irank < 0 ∨ env.mpiSize < v.irank) := by
    rw [zero]
    intro garbage
    rcases garbage with negative | above
    · exact absurd negative (by decide)
    · exact absurd tasks (Int32.not_le.mpr above)
  rw [if_neg sane, ite_self]
  exact zero

/-- The wrapper of a RANK_NONE call logs rank 0, translated if its communicator is not the
world; an MPI_Wait* has its own rank if there are no tasks. -/
theorem keyVars_rankNone (env : WrapEnv) {w : IpmCall} (rankNone : w.row.rnk = .none)
    (d : CallData) (memory : StatusMemory) (v : WrapVars) (tasks : 0 ≤ env.mpiSize) :
    (keyVars env w d memory v).irank = 0 ∨
      w.row.com = .one ∧ d.commWorld = false ∧
        (keyVars env w d memory v).irank = d.translateRank 0 := by
  have rounded : ∀ v : WrapVars, (if env.rounded then
      { v with ibytes := roundBytes v.ibytes } else v).irank = v.irank := by
    intro v
    split <;> rfl
  unfold keyVars
  dsimp only
  rw [rounded, rankNone]
  cases com : w.row.com with
  | none =>
      exact Or.inl (irank_checked env w tasks rfl)
  | one =>
      have plain : w.row.cfn.startsWith "MPI_Wait" ≠ true := by
        intro wait
        rw [rankNone_wait rankNone wait] at com
        cases com
      rw [if_neg plain]
      let bytes := (bytesC w.row.byt d memory v).ibytes
      change (getGlobalRankC d { irank := 0, ibytes := bytes }).irank = 0 ∨
        CommClass.one = .one ∧ d.commWorld = false ∧
          (getGlobalRankC d { irank := 0, ibytes := bytes }).irank =
            d.translateRank 0
      unfold getGlobalRankC
      cases world : d.commWorld with
      | true => exact Or.inl rfl
      | false => exact Or.inr ⟨rfl, rfl, rfl⟩

/-! ## The lines of a run -/

/-- The line is that of the event, printed without the bit. -/
structure HentLine.Of (mpiSize : Int) (e : MpiEvent) (line : HentLine) : Prop where
  call : line.icall = e.call
  rank : keyRank line.key = e.rank
  orank : line.orank = if mpiSize < e.rank then -1 else e.rank

theorem HentLine.Of.of_keyed {b : Build} {t : HashState} {mpiSize : Int} {e : MpiEvent}
    {line : HentLine} (clear : Rankless b t.callMask) (inRange : e.call ≤ b.maxsizeCalls)
    (printed : line ∈ hentLines b mpiSize t) (target : keyTarget line.key = e.keyed) :
    HentLine.Of mpiSize e line := by
  obtain ⟨call, orank⟩ := hentLine_eq printed
  have callEq : keyCall line.key = e.call := congrArg (fun x => x.2.1) target
  have rankEq : keyRank line.key = e.rank := congrArg (fun x => x.2.2) target
  rw [orankOf_rankless clear (by rwa [callEq]), rankEq] at orank
  exact ⟨call.trans callEq, rankEq, orank⟩

section Run

variable {env : TrcEnv} {table : CallTable env.build} {rank : Int} {vars : List (Label × Label)}
  {s : TrcSettings} {fuel : Nat} {events : List MpiEvent} {t : HashState}

/-- The lines have the targets of the logged events. -/
theorem hentLines_logRun (layout : ∀ e ∈ events, e.InLayout)
    (ran : logRun env.build fuel s.hashState events = .ok t) (mpiSize : Int) :
    {x | ∃ line ∈ hentLines env.build mpiSize t, keyTarget line.key = x} =
      {x | ∃ e ∈ events, e.keyed = x} := by
  have empty : s.hashState.targets env.build = ∅ := HashState.targets_clear rfl
  rw [hentLines_targets, logRun_targets layout (.of_empty empty) ran, empty, Set.empty_union]

/-- Every event has a line, and every line is that of an event. -/
theorem hentLines_of_events (started : ipmMpiInit env table rank vars = .ok s)
    (layout : ∀ e ∈ events, e.InLayout) (listed : ∀ e ∈ events, table.Lists e.call)
    (ran : logRun env.build fuel s.hashState events = .ok t) (mpiSize : Int) :
    (∀ line ∈ hentLines env.build mpiSize t, ∃ e ∈ events, line.Of mpiSize e) ∧
      ∀ e ∈ events, ∃ line ∈ hentLines env.build mpiSize t, line.Of mpiSize e := by
  have clear : Rankless env.build t.callMask :=
    (ipmMpiInit_rankless started).lowered (logRun_lowered ran)
  have inRange : ∀ e ∈ events, e.call ≤ env.build.maxsizeCalls := by
    intro e logged
    obtain ⟨c, mem, same⟩ := listed e logged
    rw [← same]
    exact table.idv_le c mem
  have same := Set.ext_iff.mp (hentLines_logRun layout ran mpiSize)
  constructor
  · intro line printed
    obtain ⟨e, logged, target⟩ := (same _).mp ⟨line, printed, rfl⟩
    exact ⟨e, logged, .of_keyed clear (inRange e logged) printed target.symm⟩
  · intro e logged
    obtain ⟨line, printed, target⟩ := (same _).mpr ⟨e, logged, rfl⟩
    exact ⟨line, printed, .of_keyed clear (inRange e logged) printed target⟩

end Run

/-- The printed ranks tell the RANK_NONE calls apart exactly when every such call is logged
with rank -1 or a rank above the number of tasks. -/
theorem ranksTold_iff {env : TrcEnv} {table : CallTable env.build} {rank : Int}
    {vars : List (Label × Label)} {s : TrcSettings} {fuel : Nat} {events : List MpiEvent}
    {t : HashState} (started : ipmMpiInit env table rank vars = .ok s)
    (layout : ∀ e ∈ events, e.InLayout) (listed : ∀ e ∈ events, table.Lists e.call)
    (ran : logRun env.build fuel s.hashState events = .ok t) (mpiSize : Int) :
    RanksTold table mpiSize (hentLines env.build mpiSize t) ↔
      ∀ e ∈ events, table.RankNone e.call → e.rank = -1 ∨ mpiSize < e.rank := by
  obtain ⟨lineEvent, eventLine⟩ := hentLines_of_events started layout listed ran mpiSize
  constructor
  · intro told e logged rankNone
    obtain ⟨line, printed, of⟩ := eventLine e logged
    have hidden := told.rankNone line printed (by rwa [of.call])
    rw [of.orank] at hidden
    split at hidden
    · rename_i above
      exact Or.inr above
    · exact Or.inl hidden
  · intro hidden
    refine ⟨fun line printed rankNone => ?_, fun line printed _ _ below => ?_⟩
    · obtain ⟨e, logged, of⟩ := lineEvent line printed
      rw [of.call] at rankNone
      rw [of.orank]
      rcases hidden e logged rankNone with minusOne | above
      · rw [minusOne, ite_self]
      · rw [if_pos above]
    · obtain ⟨e, -, of⟩ := lineEvent line printed
      rw [of.orank, ← of.rank, if_neg (by omega)]

/-- The environment of a build with five slots. -/
def fiveEnv : TrcEnv where
  build := .five
  hpmCounters := 0
  hpmCounters_lt := by decide
  callLabel := fun i => if i = 1 then "MPI_Barrier".toList else "MPI_Send".toList
  callMask := fun _ => 0
  xbuf := .finite 0

/-- A table with MPI_Barrier and MPI_Send. -/
def barrierSend : CallTable fiveEnv.build where
  rows := [⟨1, .none, .none⟩, ⟨2, .dest, .tx⟩]
  idv_le := by decide

/-- An MPI_Barrier without a rank, two sends to rank 1 of 2, and one to rank 0. -/
def barrierSends : List MpiEvent :=
  [{ sizeEvent 1 0 with rank := -1 }, { sizeEvent 2 5 with rank := 1 },
    { sizeEvent 2 7 with rank := 1 }, sizeEvent 2 2]

/-- A traced run of them, with a cull. -/
theorem ranksTold_send :
    ∃ s t, ipmMpiInit fiveEnv barrierSend 0
        [("IPM_MPI_TRACE".toList, "call:MPI_Send".toList)] = .ok s ∧
      logRun .five 20 s.hashState barrierSends = .ok t ∧ t.callMask 1 ≠ s.hashState.callMask 1 ∧
      RanksTold barrierSend 2 (hentLines .five 2 t) := by
  have ran : Runs.okWith (ipmMpiInit fiveEnv barrierSend 0
      [("IPM_MPI_TRACE".toList, "call:MPI_Send".toList)]) (fun s =>
        Runs.okWith (logRun .five 20 s.hashState barrierSends)
          fun t => t.callMask 1 != s.hashState.callMask 1) = true := by
    decide +kernel
  obtain ⟨s, started, rest⟩ := Runs.okWith_eq_true ran
  obtain ⟨t, logged, culled⟩ := Runs.okWith_eq_true rest
  exact ⟨s, t, started, logged, by simpa using culled,
    (ranksTold_iff started (by decide +kernel) (by decide) logged 2).mpr (by decide)⟩

/-- One MPI_Barrier of two tasks is printed as an event with rank 0. -/
theorem ranksTold_barrier :
    ∃ s t, ipmMpiInit fiveEnv barrierSend 0 [] = .ok s ∧
      logRun .five 20 s.hashState [sizeEvent 1 0] = .ok t ∧
      ¬ RanksTold barrierSend 2 (hentLines .five 2 t) := by
  have ran : Runs.okWith (ipmMpiInit fiveEnv barrierSend 0 []) (fun s =>
      Runs.okWith (logRun .five 20 s.hashState [sizeEvent 1 0]) fun t =>
        ((hentLines .five 2 t).map fun line => (line.icall, line.orank)) == [(1, 0)]) = true := by
    decide +kernel
  obtain ⟨s, started, rest⟩ := Runs.okWith_eq_true ran
  obtain ⟨t, logged, printed⟩ := Runs.okWith_eq_true rest
  refine ⟨s, t, started, logged, fun told => ?_⟩
  have shown : ((1, 0) : Nat × Int) ∈
      (hentLines .five 2 t).map fun line => (line.icall, line.orank) := by
    rw [beq_iff_eq.mp printed]
    exact List.mem_singleton_self _
  obtain ⟨line, mem, fields⟩ := List.mem_map.mp shown
  have call : line.icall = 1 := congrArg Prod.fst fields
  have orank : line.orank = 0 := congrArg Prod.snd fields
  have hidden := told.rankNone line mem (by
    rw [call]
    decide)
  rw [orank] at hidden
  cases hidden

end Ipm
