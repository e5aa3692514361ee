import Ipm.Log.Ranks

/-!
# Tracing by call

IPM_MPI_TRACE with a `call:` clause, from the call table through `ipm_mpi_init` to the masks of the
calls.  The classes MPI_P2P and MPI_COL test a mask against bits joined by `||`, that is against
bit 0, which `ipm_init_task` sets in every mask.

* `callWords_traces`: the calls a list selects.
* `mpiInitCalls_traces`: the same when MPI_Init is done.
* `callsTraced_iff`: they are the calls wanted exactly when the list has no class name, or all
  calls of the table are wanted.
-/

namespace Ipm

open Scan

/-! ## The call table -/

/-- CS_* of the lines of `ipm_key` with a wrapper. -/
inductive SyncClass
  | async | fsync | psync | remote | localOnly
deriving DecidableEq

/-- A call with its name and all its classes. -/
structure TraceCall extends CallRow where
  cfn : Label
  cs : SyncClass

/-- A call table: every call has a word in `call_mask` and a label of its own. -/
structure TraceTable (b : Build) where
  calls : List TraceCall
  idv_range : ∀ c ∈ calls, 1 ≤ c.idv ∧ c.idv ≤ b.maxsizeCalls
  idv_nodup : (calls.map fun c => c.idv).Nodup
  cfn_lt : ∀ c ∈ calls, c.cfn.length < maxsizeLabel

section Table

variable {b : Build} (table : TraceTable b)

/-- What the masks are generated from. -/
def TraceTable.toCallTable : CallTable b where
  rows := table.calls.map TraceCall.toCallRow
  idv_le := by
    intro row mem
    obtain ⟨c, listed, rfl⟩ := List.mem_map.1 mem
    exact (table.idv_range c listed).2

/-- IPM_LABEL_WRITE. -/
def TraceTable.callLabel (i : Nat) : Label :=
  ((table.calls.find? fun c => c.idv == i).map TraceCall.cfn).getD []

end Table

/-- `ipm_mpi_init`, with the labels of the table. -/
def mpiInitCalls (env : TrcEnv) (table : TraceTable env.build) (vars : List (Label × Label)) :
    Except TrcStop TrcSettings :=
  ipmMpiInit { env with callLabel := table.callLabel } table.toCallTable (-1) vars

/-- The words of a `call:` clause. -/
def clauseWords (clause : Label) : List Label := tokens '+' (clause.drop 5)

def mpiP2p : Label := "MPI_P2P".toList
def mpiCol : Label := "MPI_COL".toList

/-- The list asks for the call: by its name, by MPI_P2P as a call that sends or receives or is
asynchronous, or by MPI_COL as one that synchronizes. -/
def Wanted (words : List Label) (c : TraceCall) : Prop :=
  c.cfn ∈ words ∨
    mpiP2p ∈ words ∧ (c.dat = .tx ∨ c.dat = .rx ∨ c.dat = .txrx ∨ c.cs = .async) ∨
    mpiCol ∈ words ∧ (c.cs = .fsync ∨ c.cs = .psync)

/-- The calls with CALL_OPT_TRACE are the calls wanted. -/
def CallsTraced {b : Build} (table : TraceTable b) (words : List Label) (callMask : Nat → Nat) :
    Prop :=
  ∀ c ∈ table.calls, callMask c.idv &&& callOptTrace ≠ 0 ↔ Wanted words c

/-! ## A list -/

section

variable {env : TrcEnv} {s s' : TrcSettings} {i : Nat}

/-- A word that may be the name of a class. -/
def classWord (env : TrcEnv) (name word : Label) (s : TrcSettings) : TrcSettings :=
  if sameLabel word name then s.setTrace env fun i => s.callMask i &&& 1 != 0 else s

theorem callWord_eq (env : TrcEnv) (s : TrcSettings) (word : Label) :
    callWord env s word = classWord env mpiCol word (classWord env mpiP2p word
      (s.setTrace env fun i => sameLabel word (env.callLabel i))) := rfl

theorem setTrace_traces (inRange : 1 ≤ i ∧ i ≤ env.build.maxsizeCalls) (s : TrcSettings)
    (p : Nat → Bool) :
    ((s.setTrace env p).callMask i).testBit 48 = ((s.callMask i).testBit 48 || p i) := by
  have selected : decide (1 ≤ i ∧ i ≤ env.build.maxsizeCalls ∧ p i = true) = p i := by
    rw [Bool.eq_iff_iff, decide_eq_true_iff]
    exact ⟨fun ⟨_, _, here⟩ => here, fun here => ⟨inRange.1, inRange.2, here⟩⟩
  rw [setTrace_testBit, selected, decide_eq_true rfl, Bool.and_true]

/-- The name of a class selects every call whose mask has bit 0. -/
theorem classWord_traces (inRange : 1 ≤ i ∧ i ≤ env.build.maxsizeCalls)
    (bit : (s.callMask i).testBit 0 = true) (name word : Label) :
    ((classWord env name word s).callMask i).testBit 0 = true ∧
      ((classWord env name word s).callMask i).testBit 48 =
        ((s.callMask i).testBit 48 || sameLabel word name) := by
  unfold classWord
  split
  · rename_i isName
    have tested : (s.callMask i &&& 1 != 0) = true := by
      rw [and_one_bne_zero, bit]
    rw [setTrace_keeps .zero, setTrace_traces inRange, tested, isName]
    exact ⟨bit, rfl⟩
  · rename_i other
    rw [Bool.not_eq_true] at other
    rw [other, Bool.or_false]
    exact ⟨bit, rfl⟩

/-- A word of the list selects the call. -/
def selectsCall (label word : Label) : Bool :=
  sameLabel word label || sameLabel word mpiP2p || sameLabel word mpiCol

theorem callWord_traces (inRange : 1 ≤ i ∧ i ≤ env.build.maxsizeCalls)
    (bit : (s.callMask i).testBit 0 = true) (word : Label) :
    ((callWord env s word).callMask i).testBit 0 = true ∧
      ((callWord env s word).callMask i).testBit 48 =
        ((s.callMask i).testBit 48 || selectsCall (env.callLabel i) word) := by
  have named : ((s.setTrace env fun i => sameLabel word (env.callLabel i)).callMask i).testBit 0 =
      true := by
    rw [setTrace_keeps .zero, bit]
  obtain ⟨p2p, traces⟩ := classWord_traces inRange named mpiP2p word
  obtain ⟨col, traces'⟩ := classWord_traces inRange p2p mpiCol word
  rw [callWord_eq, traces', traces, setTrace_traces inRange, selectsCall, Bool.or_assoc,
    Bool.or_assoc, Bool.or_assoc]
  exact ⟨col, rfl⟩

/-- The calls a list selects. -/
theorem callWords_traces (inRange : 1 ≤ i ∧ i ≤ env.build.maxsizeCalls)
    (bit : (s.callMask i).testBit 0 = true) (words : List Label) :
    ((words.foldl (callWord env) s).callMask i).testBit 48 =
      ((s.callMask i).testBit 48 || words.any (selectsCall (env.callLabel i))) := by
  induction words generalizing s with
  | nil => exact (Bool.or_false _).symm
  | cons word words ih =>
      obtain ⟨bit', traces⟩ := callWord_traces inRange bit word
      rw [List.foldl_cons, ih bit', traces, List.any_cons, Bool.or_assoc]

/-! ## The whole initialization -/

/-- A variable other than IPM_MPI_TRACE leaves the trace option. -/
theorem envVar_traces {rank : Int} {v : Label × Label} (other : v.1 ≠ "IPM_MPI_TRACE".toList)
    (ok : envVar env rank s v = .ok s') :
    (s'.callMask i).testBit 48 = (s.callMask i).testBit 48 := by
  unfold envVar at ok
  split at ok
  · cases ok
    exact maskWords_keeps (by decide) _ s i
  split at ok
  · cases ok
    exact maskWords_keeps (by decide) _ s i
  cases ok
  rfl

/-- The list of the last `call:` clause decides about the calls. -/
theorem ipmTrcSelect_traces (env : TrcEnv) {rank : Int} {opt clause : Label}
    {before after : List Label}
    (clauses : tokens ',' opt = before ++ clause :: after) (call : isClause "call:" clause = true)
    (others : ∀ c ∈ after, isClause "call:" c = false)
    (inRange : 1 ≤ i ∧ i ≤ env.build.maxsizeCalls) (bit : (s.callMask i).testBit 0 = true)
    (ok : ipmTrcSelect env rank s opt = .ok s') :
    (s'.callMask i).testBit 48 = (clauseWords clause).any (selectsCall (env.callLabel i)) := by
  unfold ipmTrcSelect at ok
  rw [clauses] at ok
  obtain ⟨u, first, rest⟩ := Runs.run_append_eq_ok ok
  obtain ⟨v, listed, last⟩ := Runs.run_cons_eq_ok rest
  rw [trcClause_call call] at listed
  cases listed
  have bit' : (u.callMask i).testBit 0 = true := by
    have selected : ((s.selectAll env).callMask i).testBit 0 = true :=
      (setTrace_keeps .zero s (fun _ => true) i).trans bit
    exact Runs.run_keeps (I := fun u => (u.callMask i).testBit 0 = true) selected
      (fun inv stepped => (trcClause_keeps .zero stepped i).trans inv) first
  have cleared : ((u.clearTrace env).callMask i).testBit 48 = false := by
    rw [clearTrace_testBit, decide_eq_true inRange, decide_eq_true rfl]
    exact Bool.and_false _
  have kept : s'.callMask =
      ((clauseWords clause).foldl (callWord env) (u.clearTrace env)).callMask :=
    Runs.run_invariant (I := fun w => w.callMask =
        ((clauseWords clause).foldl (callWord env) (u.clearTrace env)).callMask)
      (G := fun _ c => isClause "call:" c = false) rfl
      (fun inv other stepped => ((trcClause_effect stepped).callMask other).trans inv)
      (fun _ c visit => others c visit.mem) last
  rw [kept, callWords_traces inRange (by rw [clearTrace_keeps .zero, bit']), cleared,
    Bool.false_or]

/-- IPM_MPI_TRACE has a `call:` clause, the last one in the last such variable. -/
structure LastCallClause (vars : List (Label × Label)) (clause : Label) : Prop where
  call : isClause "call:" clause = true
  exists_split : ∃ earlier opt later before after,
    vars = earlier ++ ("IPM_MPI_TRACE".toList, opt) :: later ∧
      tokens ',' opt = before ++ clause :: after ∧
      (∀ v ∈ later, v.1 ≠ "IPM_MPI_TRACE".toList) ∧ ∀ c ∈ after, isClause "call:" c = false

/-- When MPI_Init is done the list has selected the calls its words select. -/
theorem ipmMpiInit_traces (env : TrcEnv) {table : CallTable env.build} {rank : Int}
    {vars : List (Label × Label)} {clause : Label} (last : LastCallClause vars clause)
    (ok : ipmMpiInit env table rank vars = .ok s) (inRange : 1 ≤ i ∧ i ≤ env.build.maxsizeCalls) :
    (s.callMask i).testBit 48 = (clauseWords clause).any (selectsCall (env.callLabel i)) := by
  obtain ⟨earlier, opt, later, before, after, rfl, clauses, others, othersAfter⟩ :=
    last.exists_split
  obtain ⟨u, first, rest⟩ := Runs.run_append_eq_ok ok
  obtain ⟨v, selected, rest⟩ := Runs.run_cons_eq_ok rest
  have bit : (u.callMask i).testBit 0 = true := by
    have first' : ipmMpiInit env table rank earlier = .ok u := first
    rw [ipmMpiInit_testBit .zero first' inRange.2]
    rfl
  have kept : (s.callMask i).testBit 48 = (v.callMask i).testBit 48 :=
    Runs.run_invariant (I := fun w => (w.callMask i).testBit 48 = (v.callMask i).testBit 48)
      (G := fun _ a => a.1 ≠ "IPM_MPI_TRACE".toList) rfl
      (fun inv other stepped => (envVar_traces other stepped).trans inv)
      (fun _ a visit => others a visit.mem) rest
  rw [kept]
  exact ipmTrcSelect_traces env clauses last.call othersAfter inRange bit selected

end

/-! ## The calls wanted -/

/-- A label with room for its zero is compared as a whole. -/
theorem sameLabel_short {label : Label} (short : label.length < maxsizeLabel) (word : Label) :
    sameLabel word label = true ↔ word = label := by
  rw [sameLabel, beq_iff_eq, List.take_of_length_le (Nat.le_of_lt short)]
  constructor
  · intro same
    have length := congrArg List.length same
    rw [List.length_take] at length
    rw [← same, List.take_of_length_le (by omega)]
  · rintro rfl
    exact List.take_of_length_le (Nat.le_of_lt short)

/-- A list selects a call that it names, and every call if it has the name of a class. -/
theorem any_selectsCall {label : Label} (short : label.length < maxsizeLabel)
    (words : List Label) :
    words.any (selectsCall label) = true ↔ label ∈ words ∨ mpiP2p ∈ words ∨ mpiCol ∈ words := by
  have p2p : mpiP2p.length < maxsizeLabel := by decide
  have col : mpiCol.length < maxsizeLabel := by decide
  rw [List.any_eq_true]
  simp only [selectsCall, Bool.or_eq_true, sameLabel_short short, sameLabel_short p2p,
    sameLabel_short col]
  constructor
  · intro given
    rcases given with ⟨word, mem, (rfl | rfl) | rfl⟩
    · exact Or.inl mem
    · exact Or.inr (Or.inl mem)
    · exact Or.inr (Or.inr mem)
  · intro given
    rcases given with mem | mem | mem
    · exact ⟨_, mem, Or.inl (Or.inl rfl)⟩
    · exact ⟨_, mem, Or.inl (Or.inr rfl)⟩
    · exact ⟨_, mem, Or.inr rfl⟩

theorem TraceTable.callLabel_idv {b : Build} (table : TraceTable b) {c : TraceCall}
    (mem : c ∈ table.calls) : table.callLabel c.idv = c.cfn := by
  unfold callLabel
  cases found : table.calls.find? fun d => d.idv == c.idv with
  | none =>
      have other := List.find?_eq_none.mp found c mem
      rw [beq_self_eq_true] at other
      exact absurd rfl other
  | some d =>
      have same : d = c := by
        refine List.inj_on_of_nodup_map table.idv_nodup (List.mem_of_find?_eq_some found) mem ?_
        have equal := List.find?_some found
        exact beq_iff_eq.mp equal
      rw [same]
      rfl

/-- When MPI_Init is done exactly the calls wanted have CALL_OPT_TRACE exactly when the list has
no class name, or all calls of the table are wanted. -/
theorem callsTraced_iff {env : TrcEnv} {table : TraceTable env.build}
    {vars : List (Label × Label)} {clause : Label} {s : TrcSettings}
    (last : LastCallClause vars clause) (ok : mpiInitCalls env table vars = .ok s) :
    CallsTraced table (clauseWords clause) s.callMask ↔
      (mpiP2p ∈ clauseWords clause ∨ mpiCol ∈ clauseWords clause →
        ∀ c ∈ table.calls, Wanted (clauseWords clause) c) := by
  have traced : ∀ c ∈ table.calls, s.callMask c.idv &&& callOptTrace ≠ 0 ↔
      c.cfn ∈ clauseWords clause ∨ mpiP2p ∈ clauseWords clause ∨ mpiCol ∈ clauseWords clause := by
    intro c mem
    have selected : (s.callMask c.idv).testBit 48 =
        (clauseWords clause).any (selectsCall (table.callLabel c.idv)) :=
      ipmMpiInit_traces { env with callLabel := table.callLabel } last ok (table.idv_range c mem)
    rw [callOptTrace, and_one_shiftLeft_ne_zero, selected, table.callLabel_idv mem]
    exact any_selectsCall (table.cfn_lt c mem) _
  constructor
  · intro exactly listed c mem
    exact (exactly c mem).mp ((traced c mem).mpr (Or.inr listed))
  · intro all c mem
    rw [traced c mem]
    constructor
    · intro given
      rcases given with named | listed
      · exact Or.inl named
      · exact all listed c mem
    · intro given
      rcases given with named | ⟨p2p, -⟩ | ⟨col, -⟩
      · exact Or.inl named
      · exact Or.inr (Or.inl p2p)
      · exact Or.inr (Or.inr col)

/-- A table with MPI_Barrier and MPI_Send. -/
def barrierSendCalls : TraceTable fiveEnv.build where
  calls := [⟨⟨1, .none, .none⟩, "MPI_Barrier".toList, .fsync⟩,
    ⟨⟨2, .dest, .tx⟩, "MPI_Send".toList, .remote⟩]
  idv_range := by decide
  idv_nodup := by decide
  cfn_lt := by decide

theorem lastCallClause_single {clause : Label} (call : isClause "call:" clause = true)
    (single : tokens ',' clause = [clause]) :
    LastCallClause [("IPM_MPI_TRACE".toList, clause)] clause :=
  ⟨call, [], clause, [], [], [], rfl, single, nofun, nofun⟩

/-- A list of names. -/
theorem callsTraced_send :
    ∃ s, mpiInitCalls fiveEnv barrierSendCalls
        [("IPM_MPI_TRACE".toList, "call:MPI_Send".toList)] = .ok s ∧
      CallsTraced barrierSendCalls (clauseWords "call:MPI_Send".toList) s.callMask := by
  have ran : Runs.okWith (mpiInitCalls fiveEnv barrierSendCalls
      [("IPM_MPI_TRACE".toList, "call:MPI_Send".toList)]) (fun _ => true) = true := by
    decide +kernel
  obtain ⟨s, ok, -⟩ := Runs.okWith_eq_true ran
  have last : LastCallClause _ "call:MPI_Send".toList :=
    lastCallClause_single (by decide) (by decide)
  refine ⟨s, ok, (callsTraced_iff last ok).mpr fun listed => ?_⟩
  exact absurd listed (by decide)

/-- MPI_COL selects MPI_Send. -/
theorem callsTraced_col :
    ∃ s, mpiInitCalls fiveEnv barrierSendCalls
        [("IPM_MPI_TRACE".toList, "call:MPI_COL".toList)] = .ok s ∧
      ¬ CallsTraced barrierSendCalls (clauseWords "call:MPI_COL".toList) s.callMask := by
  have ran : Runs.okWith (mpiInitCalls fiveEnv barrierSendCalls
      [("IPM_MPI_TRACE".toList, "call:MPI_COL".toList)])
        (fun s => s.callMask 2 &&& callOptTrace != 0) = true := by
    decide +kernel
  obtain ⟨s, ok, traced⟩ := Runs.okWith_eq_true ran
  refine ⟨s, ok, fun exactly => ?_⟩
  have wanted := (exactly _ (List.mem_cons_of_mem _ List.mem_cons_self)).mp
    (bne_iff_ne.mp traced)
  unfold Wanted at wanted
  exact absurd wanted (by decide)

end Ipm
