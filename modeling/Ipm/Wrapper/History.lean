import Mathlib.Data.List.Induction
import Ipm.Key

/-!
# The key a wrapper logs

The byte count and the rank of an event: the macros IPM_MPI_BYTES_*_C, IPM_MPI_RANK_*_C and
IPM_MPI_GETGLOBALRANK_C of `include/ipm_mpi.h` in the wrapper of a call, with the classes
`ipm_key` gives it.  `ibytes` and `irank` are static in every wrapper.

* `keyVars_eq`: the call alone decides both, unless its class reads a status that MPI has not
  filled.
* `logsAlike_iff`: the logged key is independent of the calls before exactly then.
-/

namespace Ipm

/-! ## The key file -/

/-- BYTES_* of `ipm_key`. -/
inductive BytesClass
  | none | scount | rcount | scounti | rcounti | scounts | status | statusi | statuses
deriving DecidableEq

/-- RANK_* of `ipm_key`. -/
inductive RankClass
  | none | all | dest | src | root | status
deriving DecidableEq

/-- COMM_* of `ipm_key`. -/
inductive CommClass
  | none | one
deriving DecidableEq

/-- A line of `ipm_key`. -/
structure KeyRow where
  idv : Nat
  cfn : String
  byt : BytesClass
  rnk : RankClass
  com : CommClass

/-- The lines of `ipm_key` that become wrappers of this kind, all but MPI_Init,
MPI_Init_thread and MPI_Finalize. -/
def ipmKey : List KeyRow :=
  [⟨3, "MPI_Comm_rank", .none, .none, .one⟩,
    ⟨4, "MPI_Comm_size", .none, .none, .one⟩,
    ⟨5, "MPI_Send", .scount, .dest, .one⟩,
    ⟨6, "MPI_Ssend", .scount, .dest, .one⟩,
    ⟨7, "MPI_Rsend", .scount, .dest, .one⟩,
    ⟨8, "MPI_Bsend", .scount, .dest, .one⟩,
    ⟨9, "MPI_Isend", .scount, .dest, .one⟩,
    ⟨10, "MPI_Issend", .scount, .dest, .one⟩,
    ⟨11, "MPI_Irsend", .scount, .dest, .one⟩,
    ⟨12, "MPI_Ibsend", .scount, .dest, .one⟩,
    ⟨18, "MPI_Recv", .status, .status, .one⟩,
    ⟨19, "MPI_Irecv", .rcount, .src, .one⟩,
    ⟨20, "MPI_Sendrecv", .scount, .dest, .one⟩,
    ⟨21, "MPI_Sendrecv_replace", .scount, .dest, .one⟩,
    ⟨30, "MPI_Wait", .status, .status, .none⟩,
    ⟨31, "MPI_Waitany", .statusi, .none, .none⟩,
    ⟨32, "MPI_Waitall", .statuses, .none, .none⟩,
    ⟨33, "MPI_Waitsome", .none, .none, .none⟩,
    ⟨24, "MPI_Probe", .status, .status, .one⟩,
    ⟨25, "MPI_Iprobe", .none, .none, .one⟩,
    ⟨13, "MPI_Send_init", .none, .dest, .one⟩,
    ⟨14, "MPI_Ssend_init", .none, .dest, .one⟩,
    ⟨15, "MPI_Rsend_init", .none, .dest, .one⟩,
    ⟨16, "MPI_Bsend_init", .none, .dest, .one⟩,
    ⟨17, "MPI_Recv_init", .none, .src, .one⟩,
    ⟨22, "MPI_Buffer_attach", .none, .none, .none⟩,
    ⟨23, "MPI_Buffer_detach", .none, .none, .none⟩,
    ⟨26, "MPI_Test", .none, .none, .none⟩,
    ⟨27, "MPI_Testany", .none, .none, .none⟩,
    ⟨28, "MPI_Testall", .none, .none, .none⟩,
    ⟨29, "MPI_Testsome", .none, .none, .none⟩,
    ⟨34, "MPI_Start", .none, .none, .none⟩,
    ⟨35, "MPI_Startall", .none, .none, .none⟩,
    ⟨36, "MPI_Bcast", .scount, .root, .one⟩,
    ⟨45, "MPI_Reduce", .scount, .root, .one⟩,
    ⟨47, "MPI_Reduce_scatter", .scounts, .all, .one⟩,
    ⟨37, "MPI_Barrier", .none, .none, .one⟩,
    ⟨38, "MPI_Gather", .scount, .all, .one⟩,
    ⟨39, "MPI_Gatherv", .scount, .all, .one⟩,
    ⟨40, "MPI_Scatter", .scount, .all, .one⟩,
    ⟨41, "MPI_Scatterv", .rcount, .all, .one⟩,
    ⟨42, "MPI_Scan", .scount, .all, .one⟩,
    ⟨43, "MPI_Allgather", .scount, .all, .one⟩,
    ⟨44, "MPI_Allgatherv", .rcounti, .all, .one⟩,
    ⟨46, "MPI_Allreduce", .scount, .all, .one⟩,
    ⟨48, "MPI_Alltoall", .scount, .all, .one⟩,
    ⟨49, "MPI_Alltoallv", .scounts, .all, .one⟩,
    ⟨55, "MPE_Ireduce", .scount, .root, .one⟩,
    ⟨51, "MPE_Ibcast", .scount, .root, .one⟩,
    ⟨52, "MPE_Iscatterv", .scounti, .all, .one⟩,
    ⟨53, "MPE_Iallreduce", .scount, .all, .one⟩,
    ⟨54, "MPE_Ialltoallv", .scounts, .all, .one⟩]

/-- A call with a wrapper. -/
abbrev IpmCall : Type := Fin ipmKey.length

def IpmCall.row (w : IpmCall) : KeyRow := ipmKey.get w

/-! ## The wrapper -/

/-- An `MPI_Status`. -/
structure MpiStatus where
  count : Int32
  source : Int32

/-- What stands in memory around the status of a caller, by its distance from it. -/
abbrev StatusMemory : Type := Int32 → MpiStatus

/-- The arguments of a call and what MPI returns for it, under the names of the parameters;
`status` is `none` for MPI_STATUS_IGNORE, and else the statuses MPI fills: `num` of them in
MPI_Waitall, the first one in any other call. -/
structure CallData where
  scount : Int32
  rcount : Int32
  scounts : Int32 → Int32
  rcounts : Int32 → Int32
  dest : Int32
  src : Int32
  root : Int32
  num : Int32
  indx : Int32
  status : Option (Int32 → MpiStatus)
  /-- PMPI_Type_size of `stype` and `rtype`. -/
  stypeSize : Int32
  rtypeSize : Int32
  /-- PMPI_Comm_rank, PMPI_Comm_size and the result of PMPI_Comm_compare with the world. -/
  commRank : Int32
  commSize : Int32
  commWorld : Bool
  /-- PMPI_Group_translate_ranks from the group of `comm` to that of the world. -/
  translateRank : Int32 → Int32

/-- The static variables of a wrapper. -/
structure WrapVars where
  ibytes : Int32
  irank : Int32

/-- IPM_ROUNDED, `task.mpi_rank` and `task.mpi_size`. -/
structure WrapEnv where
  rounded : Bool
  mpiRank : Int32
  mpiSize : Int32

/-- `for (irank=0,ntypes=0; irank<n; irank++) ntypes += f(irank);` with the last `irank`. -/
def sumLoop (f : Int32 → Int32) (n : Int32) : Int32 × Int32 :=
  (((List.range n.toNatClampNeg).map fun i => f (Int32.ofNat i)).sum, if 0 < n then n else 0)

/-- IPM_MPI_BYTES_*_C. -/
def bytesC (byt : BytesClass) (d : CallData) (memory : StatusMemory) (v : WrapVars) : WrapVars :=
  match byt with
  | .none => v
  | .scount => { v with ibytes := d.scount * d.stypeSize }
  | .rcount => { v with ibytes := d.rcount * d.rtypeSize }
  | .scounti => { irank := d.commRank, ibytes := d.scounts d.commRank * d.stypeSize }
  | .rcounti => { irank := d.commRank, ibytes := d.rcounts d.commRank * d.rtypeSize }
  | .scounts =>
      let (ntypes, irank) := sumLoop d.scounts d.commSize
      { irank := irank, ibytes := ntypes * d.stypeSize }
  | .status =>
      match d.status with
      | .none => v
      | .some status => { v with ibytes := (status 0).count }
  | .statusi =>
      match d.status with
      | .none => v
      -- MPI_Waitany fills one status, whichever request `*indx` names
      | .some status =>
          { v with ibytes := (if d.indx = 0 then status 0 else memory d.indx).count }
  | .statuses =>
      match d.status with
      | .none => v
      | .some status =>
          let (ntypes, irank) := sumLoop (fun i => (status i).count) d.num
          { irank := irank, ibytes := ntypes }

/-- IPM_MPI_RANK_*_C. -/
def rankC (rnk : RankClass) (d : CallData) (v : WrapVars) : WrapVars :=
  match rnk with
  | .none => { v with irank := 0 }
  | .all => { v with irank := 0 }
  | .dest => { v with irank := d.dest }
  | .src => { v with irank := d.src }
  | .root => { v with irank := d.root }
  | .status =>
      match d.status with
      | .none => v
      | .some status => { v with irank := (status 0).source }

/-- IPM_MPI_GETGLOBALRANK_C. -/
def getGlobalRankC (d : CallData) (v : WrapVars) : WrapVars :=
  if d.commWorld then v
  else if 0 ≤ v.irank then { v with irank := d.translateRank v.irank }
  else v

/-- The bytes rounded up to a power of two. -/
def roundBytes (ibytes : Int32) : Int32 :=
  if ibytes ≠ 0 then
    let ibytes := ibytes - 1
    let ibytes := ibytes ||| ibytes >>> 1
    let ibytes := ibytes ||| ibytes >>> 2
    let ibytes := ibytes ||| ibytes >>> 4
    let ibytes := ibytes ||| ibytes >>> 8
    let ibytes := ibytes ||| ibytes >>> 16
    ibytes + 1
  else ibytes

/-- The variables of a wrapper from its PMPI call to its key. -/
def keyVars (env : WrapEnv) (w : IpmCall) (d : CallData) (memory : StatusMemory)
    (v : WrapVars) : WrapVars :=
  let c := w.row
  let v := bytesC c.byt d memory v
  let v := rankC c.rnk d v
  let v := match c.com with
    | .none => v
    | .one => getGlobalRankC d v
  let v :=
    if c.cfn.startsWith "MPI_Wait" then
      -- in case garbage comes back from MPI
      if v.irank < 0 ∨ env.mpiSize < v.irank then { v with irank := env.mpiRank } else v
    else v
  if env.rounded then { v with ibytes := roundBytes v.ibytes } else v

/-- A call with a wrapper, and the memory around its status. -/
structure LoggedCall where
  w : IpmCall
  d : CallData
  memory : StatusMemory

/-- A call is logged. -/
def logCall (env : WrapEnv) (vars : IpmCall → WrapVars) (call : LoggedCall) : IpmCall → WrapVars :=
  Function.update vars call.w (keyVars env call.w call.d call.memory (vars call.w))

/-- The static variables after a run of logged calls. -/
def varsAfter (env : WrapEnv) (run : List LoggedCall) : IpmCall → WrapVars :=
  run.foldl (logCall env) fun _ => ⟨0, 0⟩

/-- The key a call is logged with after a run. -/
def loggedKey (env : WrapEnv) (callMask : Nat → Nat) (region : Int) (run : List LoggedCall)
    (call : LoggedCall) : Nat :=
  let v := keyVars env call.w call.d call.memory (varsAfter env run call.w)
  ipmMpiKey callMask region call.w.row.idv v.irank.toInt v.ibytes.toInt

/-! ## What the call decides -/

/-- The class takes the byte count from the status. -/
def BytesClass.ofStatus : BytesClass → Bool
  | .status | .statusi | .statuses => true
  | _ => false

/-- The class of the call reads a status that MPI has not filled: the call ignores the status,
or it is MPI_Waitany and `*indx` is not 0. -/
def LacksStatus (w : IpmCall) (d : CallData) : Prop :=
  w.row.byt.ofStatus = true ∧ (d.status = none ∨ w.row.byt = .statusi ∧ d.indx ≠ 0)

/-- Only calls that take the byte count from the status take the rank from it. -/
theorem byt_of_rnk_status : ∀ w : IpmCall, w.row.rnk = .status → w.row.byt = .status := by
  decide

/-- What follows the byte count in a wrapper rounds it at most. -/
theorem keyVars_ibytes (env : WrapEnv) (w : IpmCall) (d : CallData) (memory : StatusMemory)
    (v : WrapVars) :
    (keyVars env w d memory v).ibytes =
      if env.rounded then roundBytes (bytesC w.row.byt d memory v).ibytes
      else (bytesC w.row.byt d memory v).ibytes := by
  have rank : ∀ v, (rankC w.row.rnk d v).ibytes = v.ibytes := by
    intro v
    unfold rankC
    cases w.row.rnk with
    | status => cases d.status <;> rfl
    | _ => rfl
  have global : ∀ v, (getGlobalRankC d v).ibytes = v.ibytes := by
    intro v
    unfold getGlobalRankC
    split
    · rfl
    · split <;> rfl
  have translated : ∀ v, (match w.row.com with
      | .none => v
      | .one => getGlobalRankC d v).ibytes = v.ibytes := by
    intro v
    cases w.row.com with
    | none => rfl
    | one => exact global v
  have checked : ∀ v : WrapVars, (if w.row.cfn.startsWith "MPI_Wait" then
      if v.irank < 0 ∨ env.mpiSize < v.irank then { v with irank := env.mpiRank } else v
      else v).ibytes = v.ibytes := by
    intro v
    split
    · split <;> rfl
    · rfl
  unfold keyVars
  cases env.rounded with
  | false =>
      simp only [Bool.false_eq_true, if_false]
      rw [checked, translated, rank]
  | true =>
      simp only [if_true]
      rw [checked, translated, rank]

/-- The byte count of a wrapper of class BYTES_NONE is that of the variable's initial value,
zero, in every run. -/
theorem varsAfter_none (env : WrapEnv) (run : List LoggedCall) {w : IpmCall}
    (none : w.row.byt = .none) : (varsAfter env run w).ibytes = 0 := by
  induction run using List.reverseRecOn with
  | nil => rfl
  | append_singleton run call ih =>
      rw [varsAfter, List.foldl_append]
      change (logCall env (varsAfter env run) call w).ibytes = 0
      unfold logCall
      rcases eq_or_ne w call.w with rfl | other
      · rw [Function.update_self, keyVars_ibytes, none]
        change (if env.rounded then roundBytes (varsAfter env run call.w).ibytes
          else (varsAfter env run call.w).ibytes) = 0
        rw [ih]
        split <;> rfl
      · rw [Function.update_of_ne other, ih]

/-- The call alone decides the rank and the byte count of its key, unless it lacks a status
its class reads. -/
theorem keyVars_eq (env : WrapEnv) {w : IpmCall} {d : CallData} (filled : ¬LacksStatus w d)
    (memory memory' : StatusMemory) {v v' : WrapVars}
    (initial : w.row.byt = .none → v.ibytes = v'.ibytes) :
    keyVars env w d memory v = keyVars env w d memory' v' := by
  have given (reads : w.row.byt.ofStatus = true) : ∃ status, d.status = some status := by
    rw [← Option.ne_none_iff_exists']
    exact fun ignored => filled ⟨reads, .inl ignored⟩
  have bytes : (bytesC w.row.byt d memory v).ibytes = (bytesC w.row.byt d memory' v').ibytes := by
    cases byt : w.row.byt with
    | none => exact initial byt
    | scount => rfl
    | rcount => rfl
    | scounti => rfl
    | rcounti => rfl
    | scounts => rfl
    | status | statuses =>
        obtain ⟨status, at_⟩ := given (by rw [byt]; rfl)
        simp only [bytesC, at_]
    | statusi =>
        have reads : w.row.byt.ofStatus = true := by
          rw [byt]
          rfl
        obtain ⟨status, at_⟩ := given reads
        have first : d.indx = 0 := by
          by_contra other
          exact filled ⟨reads, .inr ⟨byt, other⟩⟩
        simp only [bytesC, at_, if_pos first]
  have rank : rankC w.row.rnk d (bytesC w.row.byt d memory v) =
      rankC w.row.rnk d (bytesC w.row.byt d memory' v') := by
    cases rnk : w.row.rnk with
    | status =>
        have byt := byt_of_rnk_status w rnk
        obtain ⟨status, at_⟩ := given (by rw [byt]; rfl)
        simp only [rankC, at_, bytes]
    | none | all | dest | src | root => simp only [rankC, bytes]
  simp only [keyVars, rank]

/-! ## History independence -/

/-- A call is logged with one key whatever calls came before it, and whatever they left in
memory. -/
def LogsAlike (env : WrapEnv) (w : IpmCall) (d : CallData) : Prop :=
  ∀ (run run' : List LoggedCall) (memory memory' : StatusMemory) (callMask : Nat → Nat)
    (region : Int),
    loggedKey env callMask region run ⟨w, d, memory⟩ =
      loggedKey env callMask region run' ⟨w, d, memory'⟩

/-- The lowest bit of a key is that of the masked size. -/
theorem ipmMpiKey_testBit (callMask : Nat → Nat) (region : Int) (call : Nat) (rank size : Int) :
    (ipmMpiKey callMask region call rank size).testBit 0 =
      (toU64 size &&& callBufPrecision callMask call).testBit 0 := by
  have low : ∀ k, (shl64 k 32).testBit 0 = false := by
    intro k
    simp [shl64]
  have sign : keyMaskNorank.testBit 0 = false := rfl
  simp only [ipmMpiKey]
  split <;> simp only [Nat.testBit_or, low, sign, Bool.false_or]

/-- Calls of one wrapper with no bytes and with one byte have different keys. -/
theorem loggedKey_ne (env : WrapEnv) {run run' : List LoggedCall} {w : IpmCall} {d : CallData}
    {memory memory' : StatusMemory}
    (none_ : (keyVars env w d memory (varsAfter env run w)).ibytes = 0)
    (one : (keyVars env w d memory' (varsAfter env run' w)).ibytes = 1) :
    loggedKey env (fun _ => callMaskBprec) 0 run ⟨w, d, memory⟩ ≠
      loggedKey env (fun _ => callMaskBprec) 0 run' ⟨w, d, memory'⟩ := by
  have mask : callBufPrecision (fun _ => callMaskBprec) w.row.idv = callMaskBprec :=
    Nat.and_self callMaskBprec
  intro same
  have bit := congrArg (fun key => key.testBit 0) same
  simp only [loggedKey, ipmMpiKey_testBit, none_, one, mask] at bit
  revert bit
  decide

/-- Rounding leaves no byte and one byte as they are. -/
theorem rounded_eq (rounded : Bool) {k : Int32} (small : k = 0 ∨ k = 1) :
    (if rounded then roundBytes k else k) = k := by
  rcases small with rfl | rfl <;> cases rounded <;> rfl

/-- The call with a status of one byte given. -/
def CallData.withStatus (d : CallData) : CallData :=
  { d with num := 1, indx := 0, status := some fun _ => ⟨1, 0⟩ }

/-- Memory with this many bytes wherever a status is looked for. -/
def memoryOf (count : Int32) : StatusMemory := fun _ => ⟨count, 0⟩

/-- A wrapper that ignores the status keeps what the call before it has read. -/
theorem ignored_not_alike (env : WrapEnv) {w : IpmCall} {d : CallData}
    (reads : w.row.byt.ofStatus = true) (ignores : d.status = none) :
    loggedKey env (fun _ => callMaskBprec) 0 [] ⟨w, d, memoryOf 0⟩ ≠
      loggedKey env (fun _ => callMaskBprec) 0 [⟨w, d.withStatus, memoryOf 0⟩]
        ⟨w, d, memoryOf 0⟩ := by
  have kept : ∀ v, bytesC w.row.byt d (memoryOf 0) v = v := by
    intro v
    cases byt : w.row.byt with
    | status | statusi | statuses => simp only [bytesC, ignores]
    | _ =>
        rw [byt] at reads
        cases reads
  have one : ∀ v, (bytesC w.row.byt d.withStatus (memoryOf 0) v).ibytes = 1 := by
    intro v
    cases byt : w.row.byt with
    | status | statusi | statuses => rfl
    | _ =>
        rw [byt] at reads
        cases reads
  have after : (varsAfter env [⟨w, d.withStatus, memoryOf 0⟩] w).ibytes = 1 := by
    change (logCall env (fun _ => ⟨0, 0⟩) ⟨w, d.withStatus, memoryOf 0⟩ w).ibytes = 1
    unfold logCall
    rw [Function.update_self, keyVars_ibytes, one]
    exact rounded_eq _ (.inr rfl)
  refine loggedKey_ne env ?_ ?_
  · rw [keyVars_ibytes, kept]
    exact rounded_eq _ (.inl rfl)
  · rw [keyVars_ibytes, kept, after]
    exact rounded_eq _ (.inr rfl)

/-- MPI_Waitany reads memory where its index is not 0. -/
theorem index_not_alike (env : WrapEnv) {w : IpmCall} {d : CallData}
    {status : Int32 → MpiStatus} (given : d.status = some status) (byt : w.row.byt = .statusi)
    (other : d.indx ≠ 0) :
    loggedKey env (fun _ => callMaskBprec) 0 [] ⟨w, d, memoryOf 0⟩ ≠
      loggedKey env (fun _ => callMaskBprec) 0 [] ⟨w, d, memoryOf 1⟩ := by
  have bytes : ∀ count v, (bytesC w.row.byt d (memoryOf count) v).ibytes = count := by
    intro count v
    rw [byt]
    simp only [bytesC, given, if_neg other, memoryOf]
  refine loggedKey_ne env ?_ ?_
  · rw [keyVars_ibytes, bytes]
    exact rounded_eq _ (.inl rfl)
  · rw [keyVars_ibytes, bytes]
    exact rounded_eq _ (.inr rfl)

def mpiWait : IpmCall := ⟨14, by decide⟩

def mpiWaitany : IpmCall := ⟨15, by decide⟩

/-- A call of nothing, with this status and index. -/
def CallData.idle (status : Option (Int32 → MpiStatus)) (indx : Int32) : CallData :=
  ⟨0, 0, fun _ => 0, fun _ => 0, 0, 0, 0, 0, indx, status, 0, 0, 0, 1, true, id⟩

end Ipm
