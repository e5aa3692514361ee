import Mathlib.Algebra.Order.BigOperators.Group.List
import Mathlib.Algebra.Order.Ring.Rat
import Ipm.Lib.Tally
import Ipm.Log.Ranks

/-!
# Reading the hash entries of a log

`ipm_parse` adds every `<hent>` line to the statistics of the job (`$J`), of a region of the job
(`$JR`), of the task (`$T`) and of a region of the task (`$TR`).  The statements are written out
for each of them, and some name a variable that nothing sets: `$itot` for `$ittot`, and `$ittmin`
for `$itmin`.

* `parse_tx_time`, `parse_rx_time`: the times of sent and received messages.
* `parse_region_callSize`: the sizes of the calls in a region.
* `parse_job_callSize`: those of the job, with the minimum of the last line.
* `hentsRight_iff`: when all of them are right.
-/

namespace Ipm

open Tallies

/-! ## The statistics -/

/-- A `<hent>` line as the pattern reads it, with the rank of its task; the region has been looked
up in `region_index`. -/
structure ParsedHent where
  irank : Nat
  icall : Label
  ibyte : Int
  iorank : Int
  ireg : Label
  icount : Nat
  ittot : Rat
  itmin : Rat
  itmax : Rat
deriving DecidableEq

/-- `{$irank}{$iorank}`. -/
def ParsedHent.pair (h : ParsedHent) : Nat × Int := (h.irank, h.iorank)

/-- `$cskey`; a size has no `!` in it. -/
def ParsedHent.cskey (h : ParsedHent) : Label × Int := (h.icall, h.ibyte)

/-- A variable that nothing sets. -/
def undef : Rat := 0

/-- `{nmsg_tx}`, `{data_tx}` and `{time_tx}` of two ranks, or those of `_rx`. -/
structure Traffic where
  nmsg : Nat
  data : Int
  time : Rat

/-- `{call_size}{$cskey}`. -/
structure CallSize where
  count : Nat
  ttot : Rat
  tmin : Rat
  tminR : Option Nat
  tmax : Rat
  tmaxR : Option Nat
deriving DecidableEq

/-- `{call}{$icall}`. -/
structure CallTotal where
  ttot : Rat
  count : Nat

/-- `{mpi}` of the job, a region or a task. -/
structure MpiStats where
  time : Nat × Int → Rat
  tx : Nat × Int → Traffic
  rx : Nat × Int → Traffic
  callSize : Label × Int → Option CallSize
  call : Label → CallTotal

def MpiStats.empty : MpiStats where
  time := fun _ => 0
  tx := fun _ => ⟨0, 0, 0⟩
  rx := fun _ => ⟨0, 0, 0⟩
  callSize := fun _ => none
  call := fun _ => ⟨0, 0⟩

/-- What the lines of a job are added to. -/
structure HentState where
  J : MpiStats
  JR : Label → MpiStats
  T : Nat → MpiStats
  TR : Nat × Label → MpiStats

def HentState.empty : HentState := ⟨.empty, fun _ => .empty, fun _ => .empty, fun _ => .empty⟩

/-! ## One line -/

section Line

-- `$mpi_call{$icall}{dat}`
variable (dat : Label → Option DataClass)

def ParsedHent.IsTx (h : ParsedHent) : Prop := dat h.icall = some .tx ∨ dat h.icall = some .txrx

def ParsedHent.IsRx (h : ParsedHent) : Prop := dat h.icall = some .rx ∨ dat h.icall = some .txrx

instance (h : ParsedHent) : Decidable (h.IsTx dat) := inferInstanceAs (Decidable (_ ∨ _))

instance (h : ParsedHent) : Decidable (h.IsRx dat) := inferInstanceAs (Decidable (_ ∨ _))

def MpiStats.addTime (s : MpiStats) (h : ParsedHent) : MpiStats :=
  { s with time := Function.update s.time h.pair (s.time h.pair + h.ittot) }

/-- The messages sent; `ittot` is what the statement of the time names. -/
def MpiStats.addTx (s : MpiStats) (h : ParsedHent) (ittot : Rat) : MpiStats :=
  { s with
    tx :=
      if h.IsTx dat then
        let t := s.tx h.pair
        Function.update s.tx h.pair
          ⟨t.nmsg + h.icount, t.data + h.icount * h.ibyte, t.time + ittot⟩
      else s.tx }

/-- The messages received: "avoid double count since time only happens once for TXRX". -/
def MpiStats.addRx (s : MpiStats) (h : ParsedHent) (ittot : Rat) : MpiStats :=
  { s with
    rx :=
      if h.IsRx dat then
        let t := s.rx h.pair
        Function.update s.rx h.pair
          ⟨t.nmsg + h.icount, t.data + h.icount * h.ibyte,
            if dat h.icall = some .txrx then t.time else t.time + ittot⟩
      else s.rx }

/-- The entry of a size before its first line is counted. -/
def ParsedHent.newSize (h : ParsedHent) : CallSize := ⟨0, 0, h.itmin, none, h.itmax, none⟩

/-- One line more; `itmin` is what is compared with the minimum. -/
def CallSize.add (e : CallSize) (h : ParsedHent) (itmin : Rat) : CallSize where
  count := e.count + h.icount
  ttot := e.ttot + h.ittot
  tmin := if itmin < e.tmin then h.itmin else e.tmin
  tminR := if itmin < e.tmin then some h.irank else e.tminR
  tmax := if h.itmax > e.tmax then h.itmax else e.tmax
  tmaxR := if h.itmax > e.tmax then some h.irank else e.tmaxR

def MpiStats.addCallSize (s : MpiStats) (h : ParsedHent) (itmin : Rat) : MpiStats :=
  { s with
    callSize := Function.update s.callSize h.cskey
      (some (((s.callSize h.cskey).getD h.newSize).add h itmin)) }

/-- The entries of a task are made, and nothing is added to them. -/
def MpiStats.newCallSize (s : MpiStats) (h : ParsedHent) : MpiStats :=
  { s with
    callSize := Function.update s.callSize h.cskey
      (some ((s.callSize h.cskey).getD h.newSize)) }

def MpiStats.addCall (s : MpiStats) (h : ParsedHent) : MpiStats :=
  { s with
    call :=
      let t := s.call h.icall
      Function.update s.call h.icall ⟨t.ttot + h.ittot, t.count + h.icount⟩ }

/-- The statements of `$J`. -/
def MpiStats.addJob (s : MpiStats) (h : ParsedHent) : MpiStats :=
  ((((s.addTime h).addTx dat h h.ittot).addRx dat h undef).addCallSize h undef).addCall h

/-- The statements of `$JR`. -/
def MpiStats.addRegion (s : MpiStats) (h : ParsedHent) : MpiStats :=
  ((((s.addTime h).addTx dat h h.ittot).addRx dat h h.ittot).addCallSize h h.itmin).addCall h

/-- The statements of `$T`. -/
def MpiStats.addTask (s : MpiStats) (h : ParsedHent) : MpiStats := (s.newCallSize h).addCall h

/-- The statements of `$TR`. -/
def MpiStats.addTaskRegion (s : MpiStats) (h : ParsedHent) : MpiStats :=
  (((s.addTx dat h undef).addRx dat h h.ittot).addCallSize h h.itmin).addCall h

/-- A `<hent>` line, with HTML or workload reporting on. -/
def parseHent (st : HentState) (h : ParsedHent) : HentState where
  J := st.J.addJob dat h
  JR := Function.update st.JR h.ireg ((st.JR h.ireg).addRegion dat h)
  T := Function.update st.T h.irank ((st.T h.irank).addTask h)
  TR := Function.update st.TR (h.irank, h.ireg)
    ((st.TR (h.irank, h.ireg)).addTaskRegion dat h)

/-- The lines of a job. -/
def parseHents (lines : List ParsedHent) : HentState := lines.foldl (parseHent dat) .empty

end Line

/-! ## What is right -/

/-- The entry of a size is right about these lines. -/
structure CallSize.Of (e : CallSize) (ls : List ParsedHent) : Prop where
  count : e.count = (ls.map ParsedHent.icount).sum
  ttot : e.ttot = (ls.map ParsedHent.ittot).sum
  min_le : ∀ h ∈ ls, e.tmin ≤ h.itmin
  min_mem : ∃ h ∈ ls, e.tmin = h.itmin
  le_max : ∀ h ∈ ls, h.itmax ≤ e.tmax
  max_mem : ∃ h ∈ ls, e.tmax = h.itmax

/-- There is an entry when there are lines, and it is right about them. -/
def SizeRight (e : Option CallSize) (ls : List ParsedHent) : Prop :=
  match e with
  | none => ls = []
  | some e => e.Of ls

section Right

variable (dat : Label → Option DataClass)

/-- The total time of the lines of two ranks whose calls send. -/
def txTime (ls : List ParsedHent) (p : Nat × Int) : Rat :=
  ((ls.filter fun h => h.pair = p ∧ h.IsTx dat).map ParsedHent.ittot).sum

/-- The total time of the lines of two ranks whose calls only receive. -/
def rxTime (ls : List ParsedHent) (p : Nat × Int) : Rat :=
  ((ls.filter fun h => h.pair = p ∧ dat h.icall = some .rx).map ParsedHent.ittot).sum

/-- The lines of a size. -/
def sizeLines (ls : List ParsedHent) (k : Label × Int) : List ParsedHent :=
  ls.filter fun h => h.cskey = k

/-- One `{mpi}` is right about its lines in the sizes and in the times of the messages. -/
structure MpiStats.Right (s : MpiStats) (ls : List ParsedHent) : Prop where
  callSize : ∀ k, SizeRight (s.callSize k) (sizeLines ls k)
  tx : ∀ p, (s.tx p).time = txTime dat ls p
  rx : ∀ p, (s.rx p).time = rxTime dat ls p

/-- The job, the regions of the job and those of the tasks are. -/
structure HentsRight (lines : List ParsedHent) (st : HentState) : Prop where
  job : st.J.Right dat lines
  region : ∀ r, (st.JR r).Right dat (lines.filter fun h => h.ireg = r)
  taskRegion : ∀ k, (st.TR k).Right dat (lines.filter fun h => (h.irank, h.ireg) = k)

/-- The last line of every size has the least minimum of the size. -/
def LastLeast (lines : List ParsedHent) : Prop :=
  ∀ k last, (sizeLines lines k).getLast? = some last → ∀ h ∈ sizeLines lines k,
    last.itmin ≤ h.itmin

/-- The times of a line are positive. -/
def ParsedHent.Positive (h : ParsedHent) : Prop := 0 < h.ittot ∧ 0 < h.itmin ∧ 0 < h.itmax

end Right

/-! ## The levels -/

section Levels

variable (dat : Label → Option DataClass) (lines : List ParsedHent)

theorem parse_J : (parseHents dat lines).J = lines.foldl (MpiStats.addJob dat) .empty :=
  (List.foldl_hom HentState.J fun _ _ => rfl).symm

theorem parse_JR (r : Label) : (parseHents dat lines).JR r =
    (lines.filter fun h => h.ireg = r).foldl (MpiStats.addRegion dat) .empty :=
  foldl_entry HentState.JR (fun _ _ => rfl) lines .empty r

theorem parse_T (r : Nat) : (parseHents dat lines).T r =
    (lines.filter fun h => h.irank = r).foldl MpiStats.addTask .empty :=
  foldl_entry HentState.T (fun _ _ => rfl) lines .empty r

theorem parse_TR (k : Nat × Label) : (parseHents dat lines).TR k =
    (lines.filter fun h => (h.irank, h.ireg) = k).foldl (MpiStats.addTaskRegion dat) .empty :=
  foldl_entry HentState.TR (fun _ _ => rfl) lines .empty k

end Levels

/-! ## The times -/

section Times

variable {dat : Label → Option DataClass} (step : MpiStats → ParsedHent → MpiStats)
  (named : ParsedHent → Rat)

theorem addTx_time (s : MpiStats) (h : ParsedHent) (ittot : Rat) (p : Nat × Int) :
    ((s.addTx dat h ittot).tx p).time =
      (s.tx p).time + if h.pair = p ∧ h.IsTx dat then ittot else 0 := by
  unfold MpiStats.addTx
  dsimp only
  by_cases isTx : h.IsTx dat
  · rw [if_pos isTx, Function.update_apply]
    by_cases same : h.pair = p
    · rw [if_pos same.symm, if_pos ⟨same, isTx⟩, same]
    · rw [if_neg (Ne.symm same), if_neg fun both => same both.1, add_zero]
  · rw [if_neg isTx, if_neg fun both => isTx both.2, add_zero]

theorem addRx_time (s : MpiStats) (h : ParsedHent) (ittot : Rat) (p : Nat × Int) :
    ((s.addRx dat h ittot).rx p).time =
      (s.rx p).time + if h.pair = p ∧ dat h.icall = some .rx then ittot else 0 := by
  unfold MpiStats.addRx
  dsimp only
  by_cases isRx : h.IsRx dat
  · rw [if_pos isRx, Function.update_apply]
    by_cases same : h.pair = p
    · rw [if_pos same.symm, same]
      rcases isRx with rx | txrx
      · rw [rx, if_neg (by decide), if_pos ⟨rfl, rfl⟩]
      · rw [txrx, if_pos rfl, if_neg (by simp), add_zero]
    · rw [if_neg (Ne.symm same), if_neg fun both => same both.1, add_zero]
  · rw [if_neg isRx, if_neg fun both => isRx (Or.inl both.2), add_zero]

/-- The times of the messages sent, when every line adds what its statement names. -/
theorem foldl_tx
    (adds : ∀ s h, (step s h).tx = (s.addTx dat h (named h)).tx) (ls : List ParsedHent)
    (p : Nat × Int) : ((ls.foldl step .empty).tx p).time =
      ((ls.filter fun h => h.pair = p ∧ h.IsTx dat).map named).sum := by
  have added : ∀ s h, ((step s h).tx p).time =
      (s.tx p).time + if h.pair = p ∧ h.IsTx dat then named h else 0 := by
    intro s h
    rw [adds, addTx_time]
  exact (foldl_sum (fun s : MpiStats => (s.tx p).time) added ls .empty).trans (zero_add _)

theorem foldl_rx
    (adds : ∀ s h, (step s h).rx = (s.addRx dat h (named h)).rx) (ls : List ParsedHent)
    (p : Nat × Int) : ((ls.foldl step .empty).rx p).time =
      ((ls.filter fun h => h.pair = p ∧ dat h.icall = some .rx).map named).sum := by
  have added : ∀ s h, ((step s h).rx p).time =
      (s.rx p).time + if h.pair = p ∧ dat h.icall = some .rx then named h else 0 := by
    intro s h
    rw [adds, addRx_time]
  exact (foldl_sum (fun s : MpiStats => (s.rx p).time) added ls .empty).trans (zero_add _)

end Times

/-! ## The sizes -/

section Sizes

variable {ls : List ParsedHent} {named : ParsedHent → Rat}

/-- The entry of a size after its lines, when every line compares what its statement names. -/
def sizeEntry (named : ParsedHent → Rat) (ls : List ParsedHent) : Option CallSize :=
  ls.foldl (fun e h => some ((e.getD h.newSize).add h (named h))) none

theorem foldl_callSize (step : MpiStats → ParsedHent → MpiStats) (named : ParsedHent → Rat)
    (adds : ∀ s h, (step s h).callSize = (s.addCallSize h (named h)).callSize)
    (ls : List ParsedHent) (k : Label × Int) :
    (ls.foldl step .empty).callSize k = sizeEntry named (sizeLines ls k) :=
  foldl_entry MpiStats.callSize adds ls .empty k

theorem sizeEntry_snoc (named : ParsedHent → Rat) (ls : List ParsedHent) (h : ParsedHent) :
    sizeEntry named (ls ++ [h]) =
      some (((sizeEntry named ls).getD h.newSize).add h (named h)) := by
  rw [sizeEntry, List.foldl_append]
  rfl

/-- The entry before the last line: that of the other lines, or a new one. -/
theorem sizeEntry_before (named : ParsedHent → Rat) (ls : List ParsedHent) (h : ParsedHent) :
    ls = [] ∧ (sizeEntry named ls).getD h.newSize = h.newSize ∨
      ls ≠ [] ∧ ∃ e, sizeEntry named ls = some e ∧ (sizeEntry named ls).getD h.newSize = e := by
  induction ls using List.reverseRecOn with
  | nil => exact Or.inl ⟨rfl, rfl⟩
  | append_singleton ls h' _ =>
      refine Or.inr ⟨by simp, _, sizeEntry_snoc named ls h', ?_⟩
      rw [sizeEntry_snoc, Option.getD_some]

/-- Whatever is compared with the minimum, the sums and the maximum are right. -/
theorem sizeEntry_sums {e : CallSize} (entry : sizeEntry named ls = some e) :
    e.count = (ls.map ParsedHent.icount).sum ∧ e.ttot = (ls.map ParsedHent.ittot).sum ∧
      (∀ h ∈ ls, h.itmax ≤ e.tmax) ∧ ∃ h ∈ ls, e.tmax = h.itmax := by
  induction ls using List.reverseRecOn generalizing e with
  | nil => cases entry
  | append_singleton ls h ih =>
      rw [sizeEntry_snoc] at entry
      cases entry
      simp only [List.map_append, List.sum_append, List.map_singleton, List.sum_singleton,
        List.mem_append, List.mem_singleton, or_and_right, exists_or, exists_eq_left]
      rcases sizeEntry_before named ls h with ⟨rfl, new⟩ | ⟨-, e, old, same⟩
      · rw [new]
        simp [CallSize.add, ParsedHent.newSize]
      · rw [same]
        rcases ih old with ⟨count, ttot, le, x, mem, max⟩
        simp only [CallSize.add, count, ttot, gt_iff_lt, true_and]
        split
        · rename_i greater
          refine ⟨?_, Or.inr rfl⟩
          rintro y (mem | rfl)
          · exact (le y mem).trans greater.le
          · exact le_refl _
        · rename_i less
          refine ⟨?_, Or.inl ⟨x, mem, max⟩⟩
          rintro y (mem | rfl)
          · exact le y mem
          · exact not_lt.mp less

/-- Where the line's own minimum is compared, the minimum is right too. -/
theorem sizeEntry_of {e : CallSize} (entry : sizeEntry ParsedHent.itmin ls = some e) : e.Of ls := by
  rcases sizeEntry_sums entry with ⟨count, ttot, le, max⟩
  suffices least : (∀ h ∈ ls, e.tmin ≤ h.itmin) ∧ ∃ h ∈ ls, e.tmin = h.itmin from
    ⟨count, ttot, least.1, least.2, le, max⟩
  clear count ttot le max
  induction ls using List.reverseRecOn generalizing e with
  | nil => cases entry
  | append_singleton ls h ih =>
      rw [sizeEntry_snoc] at entry
      cases entry
      simp only [List.mem_append, List.mem_singleton, or_and_right, exists_or, exists_eq_left]
      rcases sizeEntry_before ParsedHent.itmin ls h with ⟨rfl, new⟩ | ⟨-, e, old, same⟩
      · rw [new]
        simp [CallSize.add, ParsedHent.newSize]
      · rw [same]
        rcases ih old with ⟨le, x, mem, min⟩
        simp only [CallSize.add]
        split
        · rename_i less
          refine ⟨?_, Or.inr rfl⟩
          rintro y (mem | rfl)
          · exact less.le.trans (le y mem)
          · exact le_refl _
        · rename_i greater
          refine ⟨?_, Or.inl ⟨x, mem, min⟩⟩
          rintro y (mem | rfl)
          · exact le y mem
          · exact not_lt.mp greater

/-- Where a variable is compared that nothing sets, the minimum is that of the last line. -/
theorem sizeEntry_last (positive : ∀ h ∈ ls, 0 < h.itmin) {e : CallSize}
    (entry : sizeEntry (fun _ => undef) ls = some e) :
    ∃ last, ls.getLast? = some last ∧ e.tmin = last.itmin := by
  induction ls using List.reverseRecOn generalizing e with
  | nil => cases entry
  | append_singleton ls h ih =>
      rw [sizeEntry_snoc] at entry
      cases entry
      rw [List.forall_mem_append, List.forall_mem_singleton] at positive
      refine ⟨h, by simp, ?_⟩
      have below : undef < ((sizeEntry (fun _ => undef) ls).getD h.newSize).tmin := by
        rcases sizeEntry_before (fun _ => undef) ls h with ⟨-, new⟩ | ⟨-, e, old, same⟩
        · rw [new]
          exact positive.2
        · rcases ih positive.1 old with ⟨last, found, min⟩
          rw [same, min]
          exact positive.1 last (List.mem_of_getLast? found)
      exact if_pos below

theorem sizeEntry_none (entry : sizeEntry named ls = none) : ls = [] := by
  cases ls using List.reverseRecOn with
  | nil => rfl
  | append_singleton ls h =>
      rw [sizeEntry_snoc] at entry
      cases entry

/-- An entry that compares the line's own minimum is right. -/
theorem sizeRight_itmin (ls : List ParsedHent) : SizeRight (sizeEntry ParsedHent.itmin ls) ls := by
  cases entry : sizeEntry ParsedHent.itmin ls with
  | none => exact sizeEntry_none entry
  | some e => exact sizeEntry_of entry

/-- The other is right exactly when the last line has the least minimum. -/
theorem sizeRight_undef (positive : ∀ h ∈ ls, 0 < h.itmin) :
    SizeRight (sizeEntry (fun _ => undef) ls) ls ↔
      ∀ last, ls.getLast? = some last → ∀ h ∈ ls, last.itmin ≤ h.itmin := by
  cases entry : sizeEntry (fun _ => undef) ls with
  | none =>
      cases sizeEntry_none entry
      exact iff_of_true rfl nofun
  | some e =>
      rcases sizeEntry_last positive entry with ⟨last, found, min⟩
      rcases sizeEntry_sums entry with ⟨count, ttot, le, max⟩
      constructor
      · intro right last' found' h mem
        cases found.symm.trans found'
        rw [← min]
        exact right.min_le h mem
      · intro least
        refine ⟨count, ttot, fun h mem => ?_, ⟨last, List.mem_of_getLast? found, min⟩, le, max⟩
        rw [min]
        exact least last found h mem

end Sizes

/-! ## The levels are right -/

section Levels

variable (dat : Label → Option DataClass) (lines : List ParsedHent)

theorem sum_undef (ls : List ParsedHent) : (ls.map fun _ => undef).sum = 0 := by
  rw [List.map_const', List.sum_replicate, undef, nsmul_zero]

/-- A region of the job is right. -/
theorem parse_region (r : Label) :
    ((parseHents dat lines).JR r).Right dat (lines.filter fun h => h.ireg = r) := by
  rw [parse_JR]
  refine ⟨fun k => ?_,
    fun p => foldl_tx (MpiStats.addRegion dat) ParsedHent.ittot (fun _ _ => rfl) _ p,
    fun p => foldl_rx (MpiStats.addRegion dat) ParsedHent.ittot (fun _ _ => rfl) _ p⟩
  rw [foldl_callSize (MpiStats.addRegion dat) ParsedHent.itmin fun _ _ => rfl]
  exact sizeRight_itmin _

/-- A region of a task is right but for the time of the messages sent, which is zero. -/
theorem parse_taskRegion (k : Nat × Label) :
    let ls := lines.filter fun h => (h.irank, h.ireg) = k
    let s := (parseHents dat lines).TR k
    (∀ c, SizeRight (s.callSize c) (sizeLines ls c)) ∧ (∀ p, (s.tx p).time = 0) ∧
      ∀ p, (s.rx p).time = rxTime dat ls p := by
  intro ls s
  have level : s = ls.foldl (MpiStats.addTaskRegion dat) .empty := parse_TR dat lines k
  rw [level]
  refine ⟨fun c => ?_, fun p => ?_,
    fun p => foldl_rx (MpiStats.addTaskRegion dat) ParsedHent.ittot (fun _ _ => rfl) _ p⟩
  · rw [foldl_callSize (MpiStats.addTaskRegion dat) ParsedHent.itmin fun _ _ => rfl]
    exact sizeRight_itmin _
  · rw [foldl_tx (MpiStats.addTaskRegion dat) (fun _ => undef) fun _ _ => rfl]
    exact sum_undef _

/-- In the job the time of the messages received is zero, and the minimum of a size that of
its last line. -/
theorem parse_job :
    let s := (parseHents dat lines).J
    (∀ k, s.callSize k = sizeEntry (fun _ => undef) (sizeLines lines k)) ∧
      (∀ p, (s.tx p).time = txTime dat lines p) ∧ ∀ p, (s.rx p).time = 0 := by
  intro s
  have level : s = lines.foldl (MpiStats.addJob dat) .empty := parse_J dat lines
  rw [level]
  refine ⟨foldl_callSize (MpiStats.addJob dat) _ (fun _ _ => rfl) lines,
    fun p => foldl_tx (MpiStats.addJob dat) ParsedHent.ittot (fun _ _ => rfl) _ p, fun p => ?_⟩
  rw [foldl_rx (MpiStats.addJob dat) (fun _ => undef) fun _ _ => rfl]
  exact sum_undef _

/-- The totals of a call are right for the job, the regions, the tasks and their regions. -/
def TotalRight (t : CallTotal) (ls : List ParsedHent) (c : Label) : Prop :=
  t.ttot = ((ls.filter fun h => h.icall = c).map ParsedHent.ittot).sum ∧
    t.count = ((ls.filter fun h => h.icall = c).map ParsedHent.icount).sum

theorem foldl_call (step : MpiStats → ParsedHent → MpiStats)
    (adds : ∀ s h, (step s h).call = (s.addCall h).call) (ls : List ParsedHent) (c : Label) :
    TotalRight ((ls.foldl step .empty).call c) ls c := by
  have added : ∀ s h, ((step s h).call c).ttot =
      (s.call c).ttot + (if h.icall = c then h.ittot else 0) ∧
        ((step s h).call c).count = (s.call c).count + if h.icall = c then h.icount else 0 := by
    intro s h
    rw [adds, MpiStats.addCall]
    dsimp only
    rw [Function.update_apply]
    by_cases same : h.icall = c
    · rw [if_pos same.symm, if_pos same, if_pos same, same]
      exact ⟨rfl, rfl⟩
    · rw [if_neg (Ne.symm same), if_neg same, if_neg same, add_zero, add_zero]
      exact ⟨rfl, rfl⟩
  constructor
  · have ttot := foldl_sum (fun s : MpiStats => (s.call c).ttot)
      (fun s h => (added s h).1) ls .empty
    exact ttot.trans (zero_add _)
  · have count := foldl_sum (fun s : MpiStats => (s.call c).count)
      (fun s h => (added s h).2) ls .empty
    exact count.trans (zero_add _)

/-- The totals of the calls are right at every level. -/
theorem parse_call (c : Label) :
    let st := parseHents dat lines
    TotalRight (st.J.call c) lines c ∧
      (∀ r, TotalRight ((st.JR r).call c) (lines.filter fun h => h.ireg = r) c) ∧
      (∀ r, TotalRight ((st.T r).call c) (lines.filter fun h => h.irank = r) c) ∧
      ∀ k, TotalRight ((st.TR k).call c) (lines.filter fun h => (h.irank, h.ireg) = k) c := by
  intro st
  refine ⟨?_, fun r => ?_, fun r => ?_, fun k => ?_⟩
  · rw [parse_J]
    exact foldl_call (MpiStats.addJob dat) (fun _ _ => rfl) lines c
  · rw [parse_JR]
    exact foldl_call (MpiStats.addRegion dat) (fun _ _ => rfl) _ c
  · rw [parse_T]
    exact foldl_call MpiStats.addTask (fun _ _ => rfl) _ c
  · rw [parse_TR]
    exact foldl_call (MpiStats.addTaskRegion dat) (fun _ _ => rfl) _ c

variable {lines}

/-- A total of positive times is zero exactly when it has no line. -/
theorem sum_ittot_eq_zero {P : ParsedHent → Prop} [DecidablePred P]
    (positive : ∀ h ∈ lines, 0 < h.ittot) :
    ((lines.filter fun h => P h).map ParsedHent.ittot).sum = 0 ↔ ∀ h ∈ lines, ¬ P h := by
  constructor
  · intro zero h mem has
    have kept : h ∈ lines.filter fun h => P h := List.mem_filter.mpr ⟨mem, decide_eq_true has⟩
    refine absurd zero (ne_of_gt (List.sum_pos _ ?_ ?_))
    · rw [List.forall_mem_map]
      exact fun x mem => positive x (List.mem_of_mem_filter mem)
    · exact List.ne_nil_of_mem (List.mem_map_of_mem kept)
  · intro none
    have empty : (lines.filter fun h => P h) = [] := by
      rw [List.filter_eq_nil_iff]
      exact fun h mem => by simpa using none h mem
    rw [empty]
    rfl

/-- The sizes and the times are right exactly when no line sends or only receives a message,
and the last line of every size has its least minimum. -/
theorem hentsRight_iff (positive : ∀ h ∈ lines, h.Positive) :
    HentsRight dat lines (parseHents dat lines) ↔
      (∀ h ∈ lines, ¬ h.IsTx dat ∧ dat h.icall ≠ some .rx) ∧ LastLeast lines := by
  rcases parse_job dat lines with ⟨jobSize, jobTx, jobRx⟩
  have ittot : ∀ {ls : List ParsedHent}, (∀ h ∈ ls, h ∈ lines) → ∀ h ∈ ls, 0 < h.ittot :=
    fun sub h mem => (positive h (sub h mem)).1
  have least : (∀ k, SizeRight ((parseHents dat lines).J.callSize k) (sizeLines lines k)) ↔
      LastLeast lines := by
    refine forall_congr' fun k => ?_
    rw [jobSize k]
    exact sizeRight_undef fun h mem => (positive h (List.mem_of_mem_filter mem)).2.1
  constructor
  · intro right
    refine ⟨fun h mem => ⟨fun isTx => ?_, fun isRx => ?_⟩, least.mp right.job.callSize⟩
    · -- the region of the task has no time for the line
      have ours : h ∈ lines.filter fun x => (x.irank, x.ireg) = (h.irank, h.ireg) :=
        List.mem_filter.mpr ⟨mem, decide_eq_true rfl⟩
      have zero := (parse_taskRegion dat lines (h.irank, h.ireg)).2.1 h.pair
      rw [(right.taskRegion _).tx] at zero
      exact (sum_ittot_eq_zero (ittot fun _ => List.mem_of_mem_filter)).mp zero h ours ⟨rfl, isTx⟩
    · have zero := jobRx h.pair
      rw [right.job.rx] at zero
      exact (sum_ittot_eq_zero (ittot fun _ mem => mem)).mp zero h mem ⟨rfl, isRx⟩
  · intro both
    rcases both with ⟨quiet, last⟩
    refine ⟨⟨least.mpr last, jobTx, fun p => ?_⟩, parse_region dat lines, fun k => ?_⟩
    · rw [jobRx, rxTime, eq_comm, sum_ittot_eq_zero (ittot fun _ mem => mem)]
      exact fun h mem both => (quiet h mem).2 both.2
    · rcases parse_taskRegion dat lines k with ⟨size, tx, rx⟩
      refine ⟨size, fun p => ?_, rx⟩
      rw [tx, txTime, eq_comm, sum_ittot_eq_zero (ittot fun _ => List.mem_of_mem_filter)]
      exact fun h mem both => (quiet h (List.mem_of_mem_filter mem)).1 both.2

/-- Lines of each size with falling minima. -/
theorem lastLeast_of_falling
    (falling : lines.Pairwise fun x y => x.cskey = y.cskey → y.itmin ≤ x.itmin) :
    LastLeast lines := by
  intro k last found h mem
  have ordered : (sizeLines lines k).Pairwise fun x y => y.itmin ≤ x.itmin := by
    refine List.Pairwise.imp_of_mem (fun {x y} memX memY le => ?_) (falling.filter _)
    have isX := of_decide_eq_true (List.mem_filter.mp memX).2
    have isY := of_decide_eq_true (List.mem_filter.mp memY).2
    exact le (isX.trans isY.symm)
  obtain ⟨others, split⟩ := List.getLast?_eq_some_iff.mp found
  rw [split] at ordered mem
  rcases List.mem_append.mp mem with before | isLast
  · exact (List.pairwise_append.mp ordered).2.2 h before last List.mem_cons_self
  · rw [List.mem_singleton.mp isLast]

end Levels

/-- MPI_Send sends, the other calls are collective. -/
def sendDat (call : Label) : Option DataClass :=
  if call = "MPI_Send".toList then some .tx else some .collective

/-- Three entries of one size, with falling minima, between them an entry of another size; two
tasks and two regions. -/
def reduceLines : List ParsedHent :=
  [⟨0, "MPI_Reduce".toList, 8, 0, "ipm_noregion".toList, 2, 11, 5, 6⟩,
    ⟨1, "MPI_Reduce".toList, 8, 0, "solve".toList, 1, 4, 4, 4⟩,
    ⟨1, "MPI_Allreduce".toList, 16, 0, "solve".toList, 3, 6, 1, 3⟩,
    ⟨1, "MPI_Reduce".toList, 8, 0, "ipm_noregion".toList, 3, 12, 2, 7⟩]

/-- The minimum of the last line is that of the size. -/
theorem hentsRight_reduce : HentsRight sendDat reduceLines (parseHents sendDat reduceLines) := by
  refine (hentsRight_iff sendDat ?_).mpr ⟨by decide +kernel, lastLeast_of_falling ?_⟩
  · unfold ParsedHent.Positive
    decide +kernel
  · decide +kernel

/-- A line of a call of task 0 to task 1. -/
def lineTo1 (call : Label) : ParsedHent := ⟨0, call, 8, 1, "ipm_noregion".toList, 1, 1, 1, 1⟩

/-- A message that is sent: its time is missing in the region of the task. -/
theorem hentsRight_send : ¬ HentsRight sendDat [lineTo1 "MPI_Send".toList]
    (parseHents sendDat [lineTo1 "MPI_Send".toList]) := by
  intro right
  have time := (right.taskRegion (0, "ipm_noregion".toList)).tx (0, 1)
  exact absurd time (by decide +kernel)

end Ipm
