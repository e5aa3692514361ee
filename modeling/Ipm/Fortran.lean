import Ipm.Lib.Runs
import Ipm.Lib.Stores

/-!
# Completion calls from Fortran

The shims `MPI_TESTALL_F`, `MPI_WAITALL_F`, `MPI_TESTSOME_F` and `MPI_WAITSOME_F`
(`src/ipm_fortran.c`): the handles are converted for the C call, and what it returns is converted
back into the arrays of the caller.  A status goes to `statuses[i]`, an integer behind the one
before, although it has MPI_STATUS_SIZE of them.

* `Shim.run_stores`: what a shim stores, in order.
* `Delivered.status`: statuses in blocks of their own are whole.
* `delivers_iff`: the shims deliver what is returned exactly up to one status, and the partial
  ones only if it is that of the first request; of a call that fails with statuses they deliver
  none.
-/

namespace Ipm

open Stores

/-! ## The C library -/

/-- The C types, their conversions, and the constants of `mpi.h` and `mpif.h`. -/
structure Mpi where
  Request : Type
  Status : Type
  requestF2c : Int → Request
  requestC2f : Request → Int
  statusC2f : Status → List Int
  success : Int
  errInStatus : Int
  errInStatus_ne : errInStatus ≠ success
  statusSize : Nat
  two_le_statusSize : 2 ≤ statusSize
  statusC2f_length : ∀ s, (statusC2f s).length = statusSize

/-- A call that returns this value has left statuses: it succeeds, or tells in each of them
which request has failed. -/
def Mpi.Returns (M : Mpi) (info : Int) : Prop := info = M.success ∨ info = M.errInStatus

/-- What a completion call has left: the value it returns, `flag`, the handles, the statuses, and
how many requests are complete and which.  A call that has left statuses names requests of the
`num`. -/
structure Completion (M : Mpi) (num : Int) where
  info : Int
  flag : Int
  creq : Int → M.Request
  cstat : Nat → M.Status
  outcount : Int
  indices : Int → Int
  outcount_le : M.Returns info → outcount ≤ num
  inRange : M.Returns info → ∀ k : Nat, (k : Int) < outcount →
    0 ≤ indices k ∧ indices k < num

/-! ## The shims -/

/-- The arrays of the caller. -/
inductive FortranArray
  | requests
  | indices
  | statuses
deriving DecidableEq

structure FortranArgs where
  requests : Int → Int
  statuses : Int → Int

abbrev FortranArrays := Arrays FortranArray Int

variable {M : Mpi} {num : Int}

/-- `creq[i] = MPI_Request_f2c(requests[i])`. -/
def creqOf (M : Mpi) (num : Int) (args : FortranArgs) : List M.Request :=
  (List.range num.toNat).map fun i => M.requestF2c (args.requests i)

/-- The C call has filled `indices`. -/
def FortranArgs.after (args : FortranArgs) (c : Completion M num) : FortranArrays where
  start
    | .requests => args.requests
    | .indices => c.indices
    | .statuses => args.statuses
  stores := []

/-- `requests[i] = MPI_Request_c2f(creq[i])`. -/
def writeRequest (c : Completion M num) (f : FortranArrays) (i : Int) : FortranArrays :=
  f.put .requests i [M.requestC2f (c.creq i)]

/-- `MPI_Status_c2f(&(cstat[i]), &(statuses[i]))`. -/
def writeStatus (c : Completion M num) (f : FortranArrays) (i : Nat) : FortranArrays :=
  f.put .statuses i (M.statusC2f (c.cstat i))

/-- Both loops of a shim that completes all requests. -/
def writeAll (c : Completion M num) (complete : Prop) [Decidable complete] (f : FortranArrays) :
    FortranArrays :=
  let f := (List.range num.toNat).foldl (fun f (i : Nat) => writeRequest c f i) f
  if c.info = M.success ∧ complete then (List.range num.toNat).foldl (writeStatus c) f else f

def mpiTestallF (M : Mpi) (num : Int) (args : FortranArgs)
    (mpiTestall : List M.Request → Completion M num) : FortranArrays :=
  let c := mpiTestall (creqOf M num args)
  writeAll c (c.flag ≠ 0) (args.after c)

def mpiWaitallF (M : Mpi) (num : Int) (args : FortranArgs)
    (mpiWaitall : List M.Request → Completion M num) : FortranArrays :=
  let c := mpiWaitall (creqOf M num args)
  writeAll c True (args.after c)

/-- The search for `i` among the indices. -/
def foundIndex (f : FortranArrays) (onum : Int) (i : Nat) : Bool :=
  (List.range onum.toNat).any fun j => f.read .indices j == i

/-- A round of the loop over the requests; the first `onum` rounds take the complete ones. -/
def writeRequestSome (c : Completion M num) (f : FortranArrays) (i : Nat) : FortranArrays :=
  if (i : Int) < c.outcount then writeRequest c f (f.read .indices i)
  else if foundIndex f c.outcount i then f
  else writeRequest c f i

/-- A round of the loop over the statuses. -/
def writeStatusSome (c : Completion M num) (f : FortranArrays) (i : Nat) : FortranArrays :=
  let f := writeStatus c f i
  if 0 ≤ f.read .indices i then f.put .indices i [f.read .indices i + 1] else f

/-- Both loops of a shim that completes some requests. -/
def writeSome (c : Completion M num) (f : FortranArrays) : FortranArrays :=
  if c.info = M.success then
    let f := (List.range num.toNat).foldl (writeRequestSome c) f
    (List.range c.outcount.toNat).foldl (writeStatusSome c) f
  else f

def mpiTestsomeF (M : Mpi) (inum : Int) (args : FortranArgs)
    (mpiTestsome : List M.Request → Completion M inum) : FortranArrays :=
  let c := mpiTestsome (creqOf M inum args)
  writeSome c (args.after c)

def mpiWaitsomeF (M : Mpi) (inum : Int) (args : FortranArgs)
    (mpiWaitsome : List M.Request → Completion M inum) : FortranArrays :=
  let c := mpiWaitsome (creqOf M inum args)
  writeSome c (args.after c)

/-! ## Delivery -/

inductive Shim
  | testall
  | waitall
  | testsome
  | waitsome
deriving DecidableEq

def Shim.run (M : Mpi) (num : Int) (args : FortranArgs)
    (call : List M.Request → Completion M num) : Shim → FortranArrays
  | .testall => mpiTestallF M num args call
  | .waitall => mpiWaitallF M num args call
  | .testsome => mpiTestsomeF M num args call
  | .waitsome => mpiWaitsomeF M num args call

/-- The call returns the requests that are complete by their indices. -/
def Shim.hasIndices : Shim → Bool
  | .testall => false
  | .waitall => false
  | .testsome => true
  | .waitsome => true

/-- How many statuses the call returns. -/
def Shim.returned (c : Completion M num) : Shim → Int
  | .testall => if c.flag ≠ 0 then num else 0
  | .waitall => num
  | .testsome => c.outcount
  | .waitsome => c.outcount

/-- A handle where it came from. -/
def handleStore (c : Completion M num) (i : Int) : Store FortranArray Int :=
  ⟨.requests, i, [M.requestC2f (c.creq i)]⟩

/-- A status from a place on. -/
def statusStore (c : Completion M num) (pos : Int) (j : Nat) : Store FortranArray Int :=
  ⟨.statuses, pos, M.statusC2f (c.cstat j)⟩

/-- An index counted from one. -/
def indexStore (c : Completion M num) (k : Nat) : Store FortranArray Int :=
  ⟨.indices, k, [c.indices k + 1]⟩

/-- Each status is stored in the block of its number, the blocks keep apart, each handle is
stored where it came from, and each index once and counted from one. -/
structure Delivered (shim : Shim) (c : Completion M num) (f : FortranArrays) : Prop where
  statuses : f.into .statuses = (List.range (shim.returned c).toNat).map fun (j : Nat) =>
    statusStore c (j * M.statusSize) j
  apart : (f.into .statuses).Pairwise Store.Apart
  handles : ∀ i : Nat, (i : Int) < num → (∃ s ∈ f.stores, s.Covers .requests i) ∧
    ∀ s ∈ f.stores, s.Covers .requests i → s = handleStore c i
  indices : shim.hasIndices = true →
    f.into .indices = (List.range c.outcount.toNat).map (indexStore c)

/-- What a call has returned is delivered. -/
def Delivers (shim : Shim) (M : Mpi) (num : Int) (args : FortranArgs)
    (call : List M.Request → Completion M num) : Prop :=
  M.Returns (call (creqOf M num args)).info →
    Delivered shim (call (creqOf M num args)) (shim.run M num args call)

/-- At most one status is returned, and it is that of the first request. -/
def Shim.OnlyFirst (c : Completion M num) : Shim → Prop
  | .testall => c.flag = 0 ∨ num ≤ 1
  | .waitall => num ≤ 1
  | .testsome => c.outcount ≤ 0 ∨ c.outcount = 1 ∧ c.indices 0 = 0
  | .waitsome => c.outcount ≤ 0 ∨ c.outcount = 1 ∧ c.indices 0 = 0

/-- No status is returned, and no handle is left out. -/
def Shim.Nothing (c : Completion M num) : Shim → Prop
  | .testall => c.flag = 0 ∨ num ≤ 0
  | .waitall => num ≤ 0
  | .testsome => num ≤ 0
  | .waitsome => num ≤ 0

/-! ## What the shims store -/

section Stored

variable (c : Completion M num)

/-- The handles that a loop over the requests stores in one round. -/
def someHandle (i : Nat) : List (Store FortranArray Int) :=
  if (i : Int) < c.outcount then [handleStore c (c.indices i)]
  else if (List.range c.outcount.toNat).any (fun j => c.indices j == i) then []
  else [handleStore c i]

/-- The handles that a shim stores. -/
def Shim.handles (shim : Shim) : List (Store FortranArray Int) :=
  if shim.hasIndices then (List.range num.toNat).flatMap (someHandle c)
  else (List.range num.toNat).map fun (i : Nat) => handleStore c i

/-- What a shim stores for the status of a number: the status, and its index. -/
def Shim.statusRound (shim : Shim) (j : Nat) : List (Store FortranArray Int) :=
  statusStore c j j :: if shim.hasIndices then [indexStore c j] else []

variable {c}

theorem writeAll_stores (args : FortranArgs) (c : Completion M num) (complete : Prop)
    [Decidable complete] : (writeAll c complete (args.after c)).stores =
      ((List.range num.toNat).map fun (i : Nat) => handleStore c i) ++
        (List.range (if c.info = M.success ∧ complete then num else 0).toNat).flatMap
          fun (j : Nat) => [statusStore c j j] := by
  have handles : ((List.range num.toNat).foldl (fun f (i : Nat) => writeRequest c f i)
      (args.after c)).stores = (List.range num.toNat).map fun (i : Nat) => handleStore c i := by
    rw [loop_stores_of_body (fun _ _ => rfl), ← List.map_eq_flatMap]
    rfl
  unfold writeAll
  dsimp only
  split_ifs
  · rw [loop_stores_of_body (fun _ _ => rfl), handles]
    rfl
  · rw [handles]
    exact (List.append_nil _).symm

/-- A round over the requests finds the indices as the call has left them. -/
theorem writeRequestSome_round {f : FortranArrays} (i : Nat)
    (same : ∀ k, f.read .indices k = c.indices k) :
    (writeRequestSome c f i).stores = f.stores ++ someHandle c i ∧
      ∀ k, (writeRequestSome c f i).read .indices k = c.indices k := by
  have search : foundIndex f c.outcount i =
      (List.range c.outcount.toNat).any fun j => c.indices j == i := by
    unfold foundIndex
    simp only [same]
  unfold writeRequestSome someHandle
  rw [search]
  split_ifs with complete found
  · rw [same]
    exact ⟨rfl, fun k => (read_put_other f (by decide) _ _ _).trans (same k)⟩
  · exact ⟨(List.append_nil _).symm, same⟩
  · exact ⟨rfl, fun k => (read_put_other f (by decide) _ _ _).trans (same k)⟩

/-- A round over the statuses finds those behind the ones counted from one. -/
theorem writeStatusSome_round {f : FortranArrays} {i : Nat} (nonneg : 0 ≤ c.indices i)
    (same : ∀ k : Int, i ≤ k → f.read .indices k = c.indices k) :
    (writeStatusSome c f i).stores = f.stores ++ [statusStore c i i, indexStore c i] ∧
      ∀ k : Int, ((i + 1 : Nat) : Int) ≤ k →
        (writeStatusSome c f i).read .indices k = c.indices k := by
  have kept : ∀ k : Int, i ≤ k → (writeStatus c f i).read .indices k = c.indices k :=
    fun k behind => (read_put_other f (by decide) _ _ _).trans (same k behind)
  unfold writeStatusSome
  dsimp only
  rw [kept i (Int.le_refl _), if_pos nonneg]
  refine ⟨List.append_assoc f.stores _ _, fun k behind => ?_⟩
  rw [read_put_of_not_covers, kept k (by omega)]
  intro covers
  have before := covers.2.2
  simp only [List.length_cons, List.length_nil] at before
  omega

theorem writeSome_stores (args : FortranArgs) (ok : c.info = M.success) :
    (writeSome c (args.after c)).stores = (List.range num.toNat).flatMap (someHandle c) ++
      (List.range c.outcount.toNat).flatMap fun (j : Nat) =>
        [statusStore c j j, indexStore c j] := by
  have start : ∀ k, (args.after c).read .indices k = c.indices k := fun _ => rfl
  unfold writeSome
  rw [if_pos ok]
  rcases loop_stores (fun _ (f : FortranArrays) => ∀ k, f.read .indices k = c.indices k)
    (fun f i _ same => writeRequestSome_round i same) start with ⟨handles, same⟩
  have rounds := loop_stores (n := c.outcount.toNat)
    (fun (i : Nat) (f : FortranArrays) => ∀ k : Int, i ≤ k → f.read .indices k = c.indices k)
    (fun f i below kept => writeStatusSome_round (c.inRange (Or.inl ok) i (by omega)).1 kept)
    (fun k _ => same k)
  rw [rounds.1, handles]
  rfl

/-- What a shim stores: the handles, then for each status its round. -/
theorem Shim.run_stores (shim : Shim) {args : FortranArgs}
    {call : List M.Request → Completion M num} (called : call (creqOf M num args) = c)
    (ok : c.info = M.success) : (shim.run M num args call).stores =
      shim.handles c ++ (List.range (shim.returned c).toNat).flatMap fun (j : Nat) =>
        shim.statusRound c j := by
  subst called
  have all := fun (complete : Prop) [Decidable complete] =>
    writeAll_stores args (call (creqOf M num args)) complete
  simp only [ok, true_and] at all
  cases shim with
  | testall => exact all _
  | waitall => exact all True
  | testsome => exact writeSome_stores args ok
  | waitsome => exact writeSome_stores args ok

/-- What a shim stores of a call that fails: the handles, if it completes all requests. -/
theorem Shim.run_stores_of_failed (shim : Shim) {args : FortranArgs}
    {call : List M.Request → Completion M num} (called : call (creqOf M num args) = c)
    (failed : c.info ≠ M.success) : (shim.run M num args call).stores =
      if shim.hasIndices then [] else shim.handles c := by
  subst called
  have all : ∀ (complete : Prop) [Decidable complete],
      (writeAll (call (creqOf M num args)) complete
        (args.after (call (creqOf M num args)))).stores =
      (List.range num.toNat).map fun (i : Nat) => handleStore (call (creqOf M num args)) i := by
    intro complete _
    rw [writeAll_stores, if_neg fun both => failed both.1, Int.toNat_zero, List.range_zero,
      List.flatMap_nil, List.append_nil]
  have some : (writeSome (call (creqOf M num args))
      (args.after (call (creqOf M num args)))).stores = [] := by
    unfold writeSome
    rw [if_neg failed]
    rfl
  cases shim with
  | testall => exact all _
  | waitall => exact all True
  | testsome => exact some
  | waitsome => exact some

/-- Every handle that is stored goes to its own place. -/
theorem Shim.mem_handles {shim : Shim} {s : Store FortranArray Int} (mem : s ∈ shim.handles c) :
    ∃ i, s = handleStore c i := by
  unfold Shim.handles at mem
  split at mem
  · rcases List.mem_flatMap.mp mem with ⟨i, -, mem⟩
    unfold someHandle at mem
    split_ifs at mem
    · exact ⟨_, List.mem_singleton.mp mem⟩
    · cases mem
    · exact ⟨_, List.mem_singleton.mp mem⟩
  · rcases List.mem_map.mp mem with ⟨i, -, rfl⟩
    exact ⟨i, rfl⟩

theorem Shim.mem_statusRound {shim : Shim} {j : Nat} {s : Store FortranArray Int}
    (mem : s ∈ shim.statusRound c j) : s = statusStore c j j ∨ s = indexStore c j := by
  unfold Shim.statusRound at mem
  rcases List.mem_cons.mp mem with status | index
  · exact Or.inl status
  · split at index
    · exact Or.inr (List.mem_singleton.mp index)
    · cases index

theorem handleStore_covers {i p : Int} : (handleStore c i).Covers .requests p ↔ p = i := by
  unfold Store.Covers handleStore
  simp only [List.length_cons, List.length_nil, true_and]
  omega

/-- A handle is stored unless its number is below the count of indices and not among them. -/
theorem someHandle_stored {i : Nat} (below : (i : Int) < num) (within : c.outcount ≤ num) :
    (∃ s ∈ (List.range num.toNat).flatMap (someHandle c), s.Covers .requests i) ↔
      ((i : Int) < c.outcount → ∃ j : Nat, (j : Int) < c.outcount ∧ c.indices j = i) := by
  constructor
  · intro stored complete
    rcases stored with ⟨s, mem, covers⟩
    rcases List.mem_flatMap.mp mem with ⟨k, -, mem⟩
    unfold someHandle at mem
    split_ifs at mem with first found
    · rw [List.mem_singleton.mp mem, handleStore_covers] at covers
      exact ⟨k, first, covers.symm⟩
    · cases mem
    · rw [List.mem_singleton.mp mem, handleStore_covers] at covers
      omega
  · intro named
    have search : (∃ j : Nat, (j : Int) < c.outcount ∧ c.indices j = i) →
        ∃ s ∈ (List.range num.toNat).flatMap (someHandle c), s.Covers .requests i := by
      intro found
      rcases found with ⟨j, complete, same⟩
      refine ⟨handleStore c (c.indices j), List.mem_flatMap.mpr ⟨j, ?_, ?_⟩, ?_⟩
      · exact List.mem_range.mpr (by omega)
      · rw [someHandle, if_pos complete]
        exact List.mem_singleton_self _
      · exact handleStore_covers.mpr same.symm
    by_cases complete : (i : Int) < c.outcount
    · exact search (named complete)
    · cases found : (List.range c.outcount.toNat).any fun j => c.indices j == i with
      | true =>
          rcases List.any_eq_true.mp found with ⟨j, mem, same⟩
          have counted := List.mem_range.mp mem
          exact search ⟨j, by omega, beq_iff_eq.mp same⟩
      | false =>
          refine ⟨handleStore c i, List.mem_flatMap.mpr ⟨i, ?_, ?_⟩, handleStore_covers.mpr rfl⟩
          · exact List.mem_range.mpr (by omega)
          · rw [someHandle, if_neg complete, found, if_neg Bool.false_ne_true]
            exact List.mem_singleton_self _

theorem Shim.handle_stored (shim : Shim) {i : Nat} (below : (i : Int) < num)
    (within : c.outcount ≤ num) : (∃ s ∈ shim.handles c, s.Covers .requests i) ↔
      (shim.hasIndices = true → (i : Int) < c.outcount →
        ∃ j : Nat, (j : Int) < c.outcount ∧ c.indices j = i) := by
  unfold Shim.handles
  cases shim.hasIndices with
  | true =>
      rw [if_pos rfl, someHandle_stored below within]
      exact ⟨fun named _ => named, fun named => named rfl⟩
  | false =>
      rw [if_neg Bool.false_ne_true]
      refine iff_of_true ⟨handleStore c i, ?_, handleStore_covers.mpr rfl⟩ ?_
      · exact List.mem_map.mpr ⟨i, List.mem_range.mpr (by omega), rfl⟩
      · intro has
        cases has

end Stored

section Ran

variable {c : Completion M num} {shim : Shim} {f : FortranArrays}
  (stored : f.stores = shim.handles c ++ (List.range (shim.returned c).toNat).flatMap
    fun (j : Nat) => shim.statusRound c j)

include stored

/-- An array that gets one store in each round for a status gets these. -/
theorem Shim.into_eq {a : FortranArray} (other : .requests ≠ a)
    {out : Nat → Store FortranArray Int}
    (round : ∀ j, (shim.statusRound c j).filter (·.array = a) = [out j]) :
    f.into a = (List.range (shim.returned c).toNat).map out := by
  have handles : (shim.handles c).filter (·.array = a) = [] := by
    refine List.filter_eq_nil_iff.mpr fun s mem => ?_
    rcases Shim.mem_handles mem with ⟨i, rfl⟩
    exact fun same => other (of_decide_eq_true same)
  unfold Arrays.into
  rw [stored, List.filter_append, handles, List.nil_append, List.filter_flatMap,
    List.map_eq_flatMap]
  simp only [round]

/-- The statuses are stored one integer apart. -/
theorem Shim.into_statuses :
    f.into .statuses = (List.range (shim.returned c).toNat).map fun (j : Nat) =>
      statusStore c j j := by
  refine Shim.into_eq stored (by decide) fun j => ?_
  unfold Shim.statusRound
  split <;> rfl

/-- Each index is stored once. -/
theorem Shim.into_indices (has : shim.hasIndices = true) :
    f.into .indices = (List.range (shim.returned c).toNat).map (indexStore c) := by
  refine Shim.into_eq stored (by decide) fun j => ?_
  unfold Shim.statusRound
  rw [if_pos has]
  rfl

/-- Only handles are stored to the requests. -/
theorem Shim.mem_handles_of_covers {s : Store FortranArray Int} {p : Int} (mem : s ∈ f.stores)
    (covers : s.Covers .requests p) : s ∈ shim.handles c := by
  rw [stored] at mem
  rcases List.mem_append.mp mem with handle | rest
  · exact handle
  · rcases List.mem_flatMap.mp rest with ⟨j, -, round⟩
    rcases Shim.mem_statusRound round with rfl | rfl
    · cases covers.1
    · cases covers.1

/-- The statuses are where they belong exactly up to the first. -/
theorem Shim.statuses_iff :
    (f.into .statuses = (List.range (shim.returned c).toNat).map (fun (j : Nat) =>
      statusStore c (j * M.statusSize) j) ∧ (f.into .statuses).Pairwise Store.Apart) ↔
      shim.returned c ≤ 1 := by
  rw [Shim.into_statuses stored]
  constructor
  · intro right
    by_contra more
    have second : 1 ∈ List.range (shim.returned c).toNat := List.mem_range.mpr (by omega)
    have same := List.map_inj_left.mp right.1 1 second
    have pos : ((1 : Nat) : Int) = (1 : Nat) * M.statusSize := congrArg Store.pos same
    have two := M.two_le_statusSize
    omega
  · intro few
    have first : ∀ j ∈ List.range (shim.returned c).toNat, j = 0 := by
      intro j mem
      have below := List.mem_range.mp mem
      omega
    refine ⟨List.map_congr_left fun j mem => ?_, ?_⟩
    · rw [first j mem, Int.natCast_zero, Int.zero_mul]
    · have short : (shim.returned c).toNat ≤ 1 := by omega
      rcases Nat.le_one_iff_eq_zero_or_eq_one.mp short with none | one
      · rw [none]
        exact List.Pairwise.nil
      · rw [one]
        exact List.pairwise_singleton _ _

end Ran

/-! ## When a shim delivers -/

theorem Mpi.lt_length (M : Mpi) (s : M.Status) {k : Nat} (inside : k < M.statusSize) :
    k < (M.statusC2f s).length := by
  rw [M.statusC2f_length]
  exact inside

/-- Statuses that are delivered are whole. -/
theorem Delivered.status {shim : Shim} {c : Completion M num} {f : FortranArrays}
    (delivered : Delivered shim c f) {j k : Nat} (returned : (j : Int) < shim.returned c)
    (inside : k < M.statusSize) :
    f.read .statuses (j * M.statusSize + k) =
      (M.statusC2f (c.cstat j)).get ⟨k, M.lt_length (c.cstat j) inside⟩ := by
  have mem : statusStore c (j * M.statusSize) j ∈ f.into .statuses := by
    rw [delivered.statuses]
    exact List.mem_map.mpr ⟨j, List.mem_range.mpr (by omega), rfl⟩
  exact read_of_apart delivered.apart mem (M.lt_length (c.cstat j) inside)

/-- The requests complete below the count of indices are among them exactly when they are the
first. -/
theorem Shim.onlyFirst_iff (shim : Shim) {c : Completion M num} (within : c.outcount ≤ num) :
    shim.OnlyFirst c ↔ shim.returned c ≤ 1 ∧ (shim.hasIndices = true →
      ∀ i : Nat, (i : Int) < num → (i : Int) < c.outcount →
        ∃ j : Nat, (j : Int) < c.outcount ∧ c.indices j = i) := by
  have some : (c.outcount ≤ 0 ∨ c.outcount = 1 ∧ c.indices 0 = 0) ↔ c.outcount ≤ 1 ∧
      (true = true → ∀ i : Nat, (i : Int) < num → (i : Int) < c.outcount →
        ∃ j : Nat, (j : Int) < c.outcount ∧ c.indices j = i) := by
    constructor
    · intro first
      rcases first with none | ⟨one, zero⟩
      · exact ⟨by omega, fun _ i _ below => by omega⟩
      · refine ⟨by omega, fun _ i _ below => ⟨0, by omega, ?_⟩⟩
        have same : i = 0 := by omega
        rw [same]
        exact zero
    · intro right
      rcases right with ⟨few, named⟩
      by_cases none : c.outcount ≤ 0
      · exact Or.inl none
      · rcases named rfl 0 (by omega) (by omega) with ⟨j, below, zero⟩
        have same : j = 0 := by omega
        rw [same] at zero
        exact Or.inr ⟨by omega, zero⟩
  cases shim with
  | testall =>
      have none : ¬ (Shim.testall.hasIndices = true) := Bool.false_ne_true
      rw [and_iff_left fun has => absurd has none]
      change (c.flag = 0 ∨ num ≤ 1) ↔ (if c.flag ≠ 0 then num else 0) ≤ 1
      split_ifs with complete
      · exact or_iff_right complete
      · exact iff_of_true (Or.inl (not_not.mp complete)) Int.one_nonneg
  | waitall => exact (and_iff_left fun has => by cases has).symm
  | testsome => exact some
  | waitsome => exact some

theorem delivered_iff (shim : Shim) {args : FortranArgs}
    {call : List M.Request → Completion M num} {c : Completion M num}
    (called : call (creqOf M num args) = c) (ok : c.info = M.success) :
    Delivered shim c (shim.run M num args call) ↔ shim.OnlyFirst c := by
  have stored := shim.run_stores called ok
  have within := c.outcount_le (Or.inl ok)
  rw [shim.onlyFirst_iff within, ← Shim.statuses_iff stored]
  have handle : ∀ i : Nat, (i : Int) < num →
      ((∃ s ∈ (shim.run M num args call).stores, s.Covers .requests i) ↔
        (shim.hasIndices = true → (i : Int) < c.outcount →
          ∃ j : Nat, (j : Int) < c.outcount ∧ c.indices j = i)) := by
    intro i below
    rw [← shim.handle_stored below within]
    constructor
    · intro written
      rcases written with ⟨s, mem, covers⟩
      exact ⟨s, Shim.mem_handles_of_covers stored mem covers, covers⟩
    · intro written
      rcases written with ⟨s, mem, covers⟩
      refine ⟨s, ?_, covers⟩
      rw [stored]
      exact List.mem_append_left _ mem
  constructor
  · intro delivered
    refine ⟨⟨delivered.statuses, delivered.apart⟩, fun has i below => ?_⟩
    exact (handle i below).mp (delivered.handles i below).1 has
  · intro right
    rcases right with ⟨⟨statuses, apart⟩, named⟩
    refine ⟨statuses, apart, fun i below => ⟨?_, ?_⟩, fun has => ?_⟩
    · exact (handle i below).mpr fun has => named has i below
    · intro s mem covers
      rcases Shim.mem_handles (Shim.mem_handles_of_covers stored mem covers) with ⟨k, rfl⟩
      rw [handleStore_covers.mp covers]
    · rw [Shim.into_indices stored has]
      cases shim with
      | testall => cases has
      | waitall => cases has
      | testsome => rfl
      | waitsome => rfl

/-- No status is returned, and a shim with indices, which stores no handle of a call that fails,
has none to store. -/
theorem Shim.nothing_iff (shim : Shim) {c : Completion M num} (within : c.outcount ≤ num) :
    shim.Nothing c ↔ shim.returned c ≤ 0 ∧ (shim.hasIndices = true → num ≤ 0) := by
  cases shim with
  | testall =>
      have none : ¬ (Shim.testall.hasIndices = true) := Bool.false_ne_true
      rw [and_iff_left fun has => absurd has none]
      change (c.flag = 0 ∨ num ≤ 0) ↔ (if c.flag ≠ 0 then num else 0) ≤ 0
      split_ifs with complete
      · exact or_iff_right complete
      · exact iff_of_true (Or.inl (not_not.mp complete)) (Int.le_refl 0)
  | waitall => exact (and_iff_left fun has => by cases has).symm
  | testsome =>
      exact ⟨fun few => ⟨Int.le_trans within few, fun _ => few⟩, fun both => both.2 rfl⟩
  | waitsome =>
      exact ⟨fun few => ⟨Int.le_trans within few, fun _ => few⟩, fun both => both.2 rfl⟩

/-- Of a call that fails with statuses nothing arrives but the handles of the shims that complete
all requests. -/
theorem delivered_failed_iff (shim : Shim) {args : FortranArgs}
    {call : List M.Request → Completion M num} {c : Completion M num}
    (called : call (creqOf M num args) = c) (failed : c.info = M.errInStatus) :
    Delivered shim c (shim.run M num args call) ↔ shim.Nothing c := by
  have notOk : c.info ≠ M.success := failed.trans_ne M.errInStatus_ne
  have stored := shim.run_stores_of_failed called notOk
  have within := c.outcount_le (Or.inr failed)
  have handle : ∀ s ∈ (shim.run M num args call).stores, ∃ i, s = handleStore c i := by
    intro s mem
    rw [stored] at mem
    split at mem
    · cases mem
    · exact Shim.mem_handles mem
  have empty : ∀ a, .requests ≠ a → (shim.run M num args call).into a = [] := by
    intro a other
    refine List.filter_eq_nil_iff.mpr fun s mem => ?_
    obtain ⟨i, rfl⟩ := handle s mem
    exact fun same => other (of_decide_eq_true same)
  have noStatus := empty .statuses (by decide)
  rw [shim.nothing_iff within]
  constructor
  · intro delivered
    refine ⟨?_, fun has => ?_⟩
    · have lengths := congrArg List.length (noStatus.symm.trans delivered.statuses)
      rw [List.length_nil, List.length_map, List.length_range] at lengths
      omega
    · -- the first handle is not stored
      by_contra some
      obtain ⟨⟨s, mem, -⟩, -⟩ := delivered.handles 0 (by omega)
      rw [stored, if_pos has] at mem
      cases mem
  · intro nothing
    obtain ⟨none, few⟩ := nothing
    refine ⟨?_, ?_, fun i below => ⟨?_, ?_⟩, fun has => ?_⟩
    · rw [noStatus, Int.toNat_of_nonpos none]
      rfl
    · rw [noStatus]
      exact List.Pairwise.nil
    · have complete : ¬ shim.hasIndices = true := fun has => by
        have := few has
        omega
      rw [stored, if_neg complete]
      exact (shim.handle_stored below within).mpr fun has => absurd has complete
    · intro s mem covers
      obtain ⟨k, rfl⟩ := handle s mem
      rw [handleStore_covers.mp covers]
    · have zero : c.outcount ≤ 0 := Int.le_trans within (few has)
      rw [empty .indices (by decide), Int.toNat_of_nonpos zero]
      rfl

/-- A shim delivers what a call has returned exactly when this is at most one status, for a
partial one that of the first request, and nothing where the call fails. -/
theorem delivers_iff (shim : Shim) (M : Mpi) (num : Int) (args : FortranArgs)
    (call : List M.Request → Completion M num) : Delivers shim M num args call ↔
      ((call (creqOf M num args)).info = M.success →
        shim.OnlyFirst (call (creqOf M num args))) ∧
      ((call (creqOf M num args)).info = M.errInStatus →
        shim.Nothing (call (creqOf M num args))) := by
  have parts : Delivers shim M num args call ↔
      ((call (creqOf M num args)).info = M.success →
        Delivered shim (call (creqOf M num args)) (shim.run M num args call)) ∧
      ((call (creqOf M num args)).info = M.errInStatus →
        Delivered shim (call (creqOf M num args)) (shim.run M num args call)) := or_imp
  rw [parts]
  refine and_congr (imp_congr_right fun ok => ?_) (imp_congr_right fun failed => ?_)
  · exact delivered_iff shim rfl ok
  · exact delivered_failed_iff shim rfl failed

/-- Handles that are numbers, and statuses of a source and a tag. -/
def Mpi.pairs : Mpi where
  Request := Int
  Status := Int × Int
  requestF2c := id
  requestC2f := id
  statusC2f s := [s.1, s.2]
  success := 0
  errInStatus := 18
  errInStatus_ne := by decide
  statusSize := 2
  two_le_statusSize := Nat.le_refl 2
  statusC2f_length _ := rfl

/-- Two requests that are complete. -/
def twoComplete : Completion .pairs 2 where
  info := 0
  flag := 1
  creq _ := (0 : Int)
  cstat j := ((j : Int), (7 : Int))
  outcount := 2
  indices k := k
  outcount_le _ := Int.le_refl 2
  inRange _ k below := ⟨Int.natCast_nonneg k, below⟩

/-- Of two statuses the second lies on the first. -/
theorem delivers_two : ¬ Delivers .waitall .pairs 2 ⟨fun _ => 1, fun _ => 0⟩
    (fun _ => twoComplete) := by
  intro delivers
  have statuses := (delivers (Or.inl rfl)).statuses
  have second : (Shim.run .pairs 2 ⟨fun _ => 1, fun _ => 0⟩ (fun _ => twoComplete)
      .waitall).into .statuses = [⟨.statuses, 0, [0, 7]⟩, ⟨.statuses, 1, [1, 7]⟩] := by
    decide
  rw [second] at statuses
  exact absurd statuses (by decide)

end Ipm
