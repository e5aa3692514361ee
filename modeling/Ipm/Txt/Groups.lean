import Mathlib.Algebra.Order.Ring.Int
import Mathlib.Data.List.MinMax
import Ipm.Lib.ControlBreak
import Ipm.Lib.Tally

/-!
# Message summaries by rank pair

`ipm2txt.pl` groups the hash entries of a task by the partner rank: it sorts them by the rank and
writes a group when the rank changes.  A group has its entries by size, in bins up to 2 ^ 23.

* `sum_prepareBin`: a size is in one bin, or in none when it is beyond the last.
* `writeToFile_eq`: all groups but the last are written.
* `written_right`: what is written adds up, in the bins as far as the sizes are in one.
* `groupsRight_iff`: nothing is lost exactly when there are no entries.
-/

namespace Ipm

open Tallies

/-! ## The bins -/

/-- An entry of `Prepare_Bin`: its key and the range `min-max`. -/
structure SizeBin where
  key : Nat
  min : Int
  max : Int
deriving DecidableEq

/-- The loop of `Prepare_Bin` from `$a`. -/
def prepareBinFrom (a : Int) : List Nat → List SizeBin
  | [] => []
  | j :: js =>
      let tmpAns : Int := 2 ^ j
      ⟨j, a, tmpAns⟩ :: prepareBinFrom (tmpAns + 1) js

/-- `Prepare_Bin`. -/
def prepareBin : List SizeBin := prepareBinFrom 0 (List.range' 4 20)

/-- `%range` and `%range_total` under one key. -/
structure BinSum where
  range : Nat
  rangeTotal : Int
deriving DecidableEq

/-- The body of `Check_Range`. -/
def addToBin (bytes : Int) (counts : Nat) (range : Nat → Option BinSum) (b : SizeBin) :
    Nat → Option BinSum :=
  if b.min ≤ bytes ∧ bytes ≤ b.max then
    let s := (range b.key).getD ⟨0, 0⟩
    Function.update range b.key (some ⟨s.range + counts, bytes * counts + s.rangeTotal⟩)
  else range

/-- `Check_Range`. -/
def checkRange (range : Nat → Option BinSum) (bytes : Int) (counts : Nat) :
    Nat → Option BinSum :=
  prepareBin.foldl (addToBin bytes counts) range

/-! ## The groups -/

/-- The attributes of a `<hent>` element. -/
structure TxtHent where
  key : Nat
  orank : Int
  bytes : Int
  count : Nat
deriving DecidableEq

/-- The hashes after the elements of a task, with the order their keys are visited in. -/
def handleHents (hents : List TxtHent) : Table Nat TxtHent :=
  hents.foldl (fun table h => table.insert h.key h) ∅

/-- What is added up for a group. -/
structure GroupSums where
  messages : Nat
  arrBytes : List Int
  totalSize : Int
  range : Nat → Option BinSum

def GroupSums.empty : GroupSums := ⟨0, [], 0, fun _ => none⟩

def GroupSums.add (s : GroupSums) (h : TxtHent) : GroupSums where
  range := checkRange s.range h.bytes h.count
  arrBytes := s.arrBytes ++ [h.bytes]
  messages := s.messages + h.count
  totalSize := s.totalSize + h.count * h.bytes

/-- A row of a bin. -/
structure BinRow where
  count : Nat
  min : Int
  max : Int
  total : Int
deriving DecidableEq

/-- The rows of a group: its own and those of its bins. -/
structure Group where
  srank : Nat
  drank : Int
  messages : Nat
  minsize : Option Int
  maxSize : Option Int
  totalbytes : Int
  bins : List BinRow
deriving DecidableEq

def writeGroup (task : Nat) (trank : Int) (s : GroupSums) : Group where
  srank := task
  drank := trank
  messages := s.messages
  minsize := s.arrBytes.min?
  maxSize := s.arrBytes.max?
  totalbytes := s.totalSize
  bins := prepareBin.filterMap fun b =>
    (s.range b.key).map fun t => ⟨t.range, b.min, b.max, t.rangeTotal⟩

/-- The variables of `write_to_file`. -/
structure WriteVars where
  trank : Option Int
  sums : GroupSums
  groups : List Group

def writeHent (task : Nat) (v : WriteVars) (h : TxtHent) : WriteVars :=
  let crank := h.orank
  let v :=
    match v.trank with
    | some trank =>
        if crank ≠ trank then
          { v with groups := v.groups ++ [writeGroup task trank v.sums], sums := .empty }
        else v
    | none => v
  { v with sums := v.sums.add h, trank := some crank }

/-- `write_to_file`, with the entries in the order `keys` gives them. -/
def writeToFile (task : Nat) (entries : List TxtHent) : List Group :=
  ((entries.mergeSort fun a b => a.orank ≤ b.orank).foldl (writeHent task)
    ⟨none, .empty, []⟩).groups

/-! ## What is right -/

/-- The entries of a rank. -/
def rankHents (hents : List TxtHent) (r : Int) : List TxtHent := hents.filter fun h => h.orank = r

/-- The messages and the bytes of entries. -/
def messagesOf (hents : List TxtHent) : Nat := (hents.map TxtHent.count).sum

def bytesOf (hents : List TxtHent) : Int := (hents.map fun h => (h.count : Int) * h.bytes).sum

/-- One group for each rank, with its sums, and bins that add up. -/
structure GroupsRight (hents : List TxtHent) (groups : List Group) : Prop where
  nodup : (groups.map Group.drank).Nodup
  ranks : ∀ r, r ∈ groups.map Group.drank ↔ ∃ h ∈ hents, h.orank = r
  messages : ∀ g ∈ groups, g.messages = messagesOf (rankHents hents g.drank)
  totalbytes : ∀ g ∈ groups, g.totalbytes = bytesOf (rankHents hents g.drank)
  bins : ∀ g ∈ groups, (g.bins.map BinRow.count).sum = g.messages

/-! ## The sums of a group -/

theorem sums_messages (hents : List TxtHent) :
    (hents.foldl GroupSums.add .empty).messages = messagesOf hents :=
  (foldl_total GroupSums.messages (fun _ _ => rfl) hents .empty).trans (Nat.zero_add _)

theorem sums_totalSize (hents : List TxtHent) :
    (hents.foldl GroupSums.add .empty).totalSize = bytesOf hents :=
  (foldl_total GroupSums.totalSize (fun _ _ => rfl) hents .empty).trans (Int.zero_add _)

/-- The counts in the bins. -/
def binTotal (range : Nat → Option BinSum) : Nat :=
  (prepareBin.map fun b => ((range b.key).map BinSum.range).getD 0).sum

/-- A size that is in a bin. -/
def InBins (bytes : Int) : Prop := 0 ≤ bytes ∧ bytes ≤ 2 ^ 23

instance (bytes : Int) : Decidable (InBins bytes) := inferInstanceAs (Decidable (_ ∧ _))

theorem sum_prepareBinFrom (bytes : Int) (n : Nat) {js : List Nat} {a : Int}
    (sorted : js.Pairwise (· < ·)) (start : ∀ j ∈ js, a ≤ 2 ^ j + 1) :
    ((prepareBinFrom a js).map fun b => if b.min ≤ bytes ∧ bytes ≤ b.max then n else 0).sum =
      if a ≤ bytes ∧ ∃ j ∈ js, bytes ≤ 2 ^ j then n else 0 := by
  induction js generalizing a with
  | nil => simp [prepareBinFrom]
  | cons j js ih =>
      rcases List.pairwise_cons.mp sorted with ⟨greater, sorted⟩
      have next : ∀ j' ∈ js, (2 : Int) ^ j + 1 ≤ 2 ^ j' + 1 := by
        intro j' mem
        have power : (2 : Int) ^ j ≤ 2 ^ j' := pow_le_pow_right₀ (by decide) (greater j' mem).le
        omega
      have here := start j List.mem_cons_self
      rw [prepareBinFrom, List.map_cons, List.sum_cons, ih sorted next]
      by_cases below : bytes ≤ 2 ^ j
      · have rest : ¬((2 : Int) ^ j + 1 ≤ bytes ∧ ∃ j' ∈ js, bytes ≤ 2 ^ j') := by
          intro both
          rcases both with ⟨above, -⟩
          omega
        rw [if_neg rest, Nat.add_zero]
        refine if_congr (and_congr_right fun _ => ?_) rfl rfl
        exact iff_of_true below ⟨j, List.mem_cons_self, below⟩
      · rw [if_neg fun both => below both.2, Nat.zero_add]
        refine if_congr ?_ rfl rfl
        rw [List.exists_mem_cons_iff]
        constructor
        · intro both
          rcases both with ⟨above, inside⟩
          exact ⟨here.trans above, Or.inr inside⟩
        · intro both
          rcases both with ⟨-, inside⟩
          exact ⟨by omega, inside.resolve_left below⟩

/-- A size is in one bin, or in none when it is beyond the last. -/
theorem sum_prepareBin (bytes : Int) (n : Nat) :
    (prepareBin.map fun b => if b.min ≤ bytes ∧ bytes ≤ b.max then n else 0).sum =
      if InBins bytes then n else 0 := by
  rw [prepareBin, sum_prepareBinFrom bytes n (by decide) (by decide)]
  refine if_congr (and_congr_right fun _ => ⟨?_, fun below => ⟨23, by decide, below⟩⟩) rfl rfl
  intro inBin
  rcases inBin with ⟨j, mem, below⟩
  have last : j ≤ 23 := by
    rw [List.mem_range'_1] at mem
    omega
  exact below.trans (pow_le_pow_right₀ (by decide) last)

/-- Each bin has its key. -/
theorem prepareBin_key {b : SizeBin} (mem : b ∈ prepareBin) :
    (prepareBin.filter fun c => c.key = b.key) = [b] := by
  have all : ∀ b ∈ prepareBin, (prepareBin.filter fun c => c.key = b.key) = [b] := by
    decide +kernel
  exact all b mem

/-- The entry of a bin when its range holds the size. -/
def binEntry (bytes : Int) (counts : Nat) (e : Option BinSum) (b : SizeBin) : Option BinSum :=
  if b.min ≤ bytes ∧ bytes ≤ b.max then
    some ⟨(e.getD ⟨0, 0⟩).range + counts, bytes * counts + (e.getD ⟨0, 0⟩).rangeTotal⟩
  else e

theorem addToBin_eq (bytes : Int) (counts : Nat) (range : Nat → Option BinSum) (b : SizeBin) :
    addToBin bytes counts range b =
      Function.update range b.key (binEntry bytes counts (range b.key) b) := by
  unfold addToBin binEntry
  split
  · rfl
  · rw [Function.update_eq_self]

/-- A size is counted in its bin alone. -/
theorem checkRange_bin (range : Nat → Option BinSum) (bytes : Int) (counts : Nat) {b : SizeBin}
    (mem : b ∈ prepareBin) : ((checkRange range bytes counts b.key).map BinSum.range).getD 0 =
      ((range b.key).map BinSum.range).getD 0 +
        if b.min ≤ bytes ∧ bytes ≤ b.max then counts else 0 := by
  have entry : checkRange range bytes counts b.key = binEntry bytes counts (range b.key) b := by
    have changed := foldl_entry (fun range : Nat → Option BinSum => range)
      (addToBin_eq bytes counts) prepareBin range b.key
    rw [prepareBin_key mem] at changed
    exact changed
  rw [entry, binEntry]
  split
  · cases range b.key <;> rfl
  · rfl

/-- A size adds its count to the bins when it is in one. -/
theorem binTotal_checkRange (range : Nat → Option BinSum) (bytes : Int) (counts : Nat) :
    binTotal (checkRange range bytes counts) =
      binTotal range + if InBins bytes then counts else 0 := by
  rw [binTotal, List.map_congr_left fun b mem => checkRange_bin range bytes counts mem,
    List.sum_map_add, sum_prepareBin]
  rfl

theorem sums_bins (hents : List TxtHent) : binTotal (hents.foldl GroupSums.add .empty).range =
    messagesOf (hents.filter fun h => InBins h.bytes) := by
  have adds : ∀ (s : GroupSums) (h : TxtHent), binTotal (s.add h).range =
      binTotal s.range + if InBins h.bytes then h.count else 0 := by
    intro s h
    rw [GroupSums.add]
    exact binTotal_checkRange s.range h.bytes h.count
  have start : binTotal GroupSums.empty.range = 0 := by
    decide +kernel
  rw [foldl_sum (fun s : GroupSums => binTotal s.range) adds, start, Nat.zero_add]
  rfl

/-- The rows of a group have the counts of its bins. -/
theorem writeGroup_bins (task : Nat) (trank : Int) (s : GroupSums) :
    ((writeGroup task trank s).bins.map BinRow.count).sum = binTotal s.range := by
  unfold writeGroup binTotal
  dsimp only
  induction prepareBin with
  | nil => rfl
  | cons b bins ih =>
      rw [List.filterMap_cons, List.map_cons, List.sum_cons, ← ih]
      cases s.range b.key with
      | none => exact (Nat.zero_add _).symm
      | some t => rfl

/-! ## The groups that are written -/

/-- The variables as those of a control break. -/
def WriteVars.toState (v : WriteVars) : ControlBreak.State Int GroupSums Group :=
  ⟨v.trank, v.sums, v.groups⟩

theorem writeHent_toState (task : Nat) (v : WriteVars) (h : TxtHent) :
    (writeHent task v h).toState =
      ControlBreak.step TxtHent.orank .empty GroupSums.add (writeGroup task) v.toState h := by
  rcases v with ⟨trank, sums, groups⟩
  cases trank with
  | none => rfl
  | some trank =>
      unfold writeHent ControlBreak.step WriteVars.toState
      dsimp only
      split <;> rfl

def sortOrank (entries : List TxtHent) : List TxtHent :=
  entries.mergeSort fun a b => a.orank ≤ b.orank

theorem sortOrank_pairwise (entries : List TxtHent) :
    (sortOrank entries).Pairwise fun a b => a.orank ≤ b.orank := by
  have trans : ∀ a b c : TxtHent, decide (a.orank ≤ b.orank) = true →
      decide (b.orank ≤ c.orank) = true → decide (a.orank ≤ c.orank) = true := by
    intro a b c first second
    rw [decide_eq_true_iff] at first second ⊢
    exact first.trans second
  have total : ∀ a b : TxtHent,
      (decide (a.orank ≤ b.orank) || decide (b.orank ≤ a.orank)) = true := by
    intro a b
    simpa using le_total a.orank b.orank
  exact (List.pairwise_mergeSort trans total entries).imp of_decide_eq_true

/-- All groups but the last are written. -/
theorem writeToFile_eq (task : Nat) (entries : List TxtHent) :
    ∃ ks : List Int, ks.Pairwise (· < ·) ∧
      (∀ k, k ∈ ks ↔ (∃ h ∈ entries, h.orank = k) ∧ ∃ h ∈ entries, k < h.orank) ∧
        writeToFile task entries = ks.map fun k =>
          writeGroup task k ((rankHents (sortOrank entries) k).foldl GroupSums.add .empty) := by
  have ended := ControlBreak.run_broken TxtHent.orank GroupSums.empty GroupSums.add
    (writeGroup task) (sortOrank_pairwise entries)
  rcases ended with ⟨ks, broken⟩
  have written : writeToFile task entries =
      (ControlBreak.run TxtHent.orank .empty GroupSums.add (writeGroup task)
        (sortOrank entries)).out := by
    have same : (sortOrank entries).foldl _ (WriteVars.toState ⟨none, .empty, []⟩) = _ :=
      List.foldl_hom WriteVars.toState fun v h => (writeHent_toState task v h).symm
    exact congrArg ControlBreak.State.out same.symm
  refine ⟨ks, broken.sorted, fun k => ?_, written.trans broken.out⟩
  rw [broken.mem_iff_lt (sortOrank_pairwise entries)]
  simp only [sortOrank, List.mem_mergeSort]

/-- The elements in the hashes: one for each key. -/
def hashed (hents : List TxtHent) : List TxtHent := (handleHents hents).entries.map Sigma.snd

theorem handleHents_snoc (hents : List TxtHent) (h : TxtHent) :
    handleHents (hents ++ [h]) = (handleHents hents).insert h.key h := by
  rw [handleHents, List.foldl_append]
  rfl

theorem hashed_snoc (hents : List TxtHent) (h : TxtHent) : hashed (hents ++ [h]) =
    h :: ((handleHents hents).entries.kerase h.key).map Sigma.snd := by
  rw [hashed, handleHents_snoc, AList.entries_insert]
  rfl

theorem mem_of_hashed {hents : List TxtHent} {h : TxtHent} (mem : h ∈ hashed hents) :
    h ∈ hents := by
  induction hents using List.reverseRecOn with
  | nil => cases mem
  | append_singleton hents last ih =>
      rw [hashed_snoc] at mem
      rcases List.mem_cons.mp mem with rfl | old
      · exact List.mem_append_right _ List.mem_cons_self
      · rcases List.mem_map.mp old with ⟨e, memE, rfl⟩
        have kept := (List.kerase_sublist last.key _).subset memE
        exact List.mem_append_left _ (ih (List.mem_map_of_mem kept))

theorem hashed_ne_nil {hents : List TxtHent} (some : hents ≠ []) : hashed hents ≠ [] := by
  cases hents using List.reverseRecOn with
  | nil => exact absurd rfl some
  | append_singleton hents h =>
      rw [hashed_snoc]
      exact List.cons_ne_nil _ _

theorem mem_handleHents {hents : List TxtHent} {k : Nat} (mem : k ∈ handleHents hents) :
    k ∈ hents.map TxtHent.key := by
  induction hents using List.reverseRecOn with
  | nil => cases mem
  | append_singleton hents h ih =>
      rw [handleHents_snoc, AList.mem_insert] at mem
      rw [List.map_append, List.mem_append]
      rcases mem with rfl | old
      · exact Or.inr List.mem_cons_self
      · exact Or.inl (ih old)

/-- With different keys none overwrites another. -/
theorem hashed_perm {hents : List TxtHent} (distinct : (hents.map TxtHent.key).Nodup) :
    (hashed hents).Perm hents := by
  induction hents using List.reverseRecOn with
  | nil => exact .nil
  | append_singleton hents h ih =>
      rw [List.map_append, List.map_singleton, List.nodup_append] at distinct
      rcases distinct with ⟨before, -, apart⟩
      have fresh : h.key ∉ (handleHents hents).entries.keys := fun old =>
        apart _ (mem_handleHents old) _ (List.mem_singleton.mpr rfl) rfl
      rw [hashed_snoc, List.kerase_of_notMem_keys fresh]
      exact ((ih before).cons h).trans (List.perm_append_singleton h hents).symm

theorem messagesOf_perm {hents hents' : List TxtHent} (perm : hents.Perm hents') :
    messagesOf hents = messagesOf hents' := (perm.map _).sum_eq

theorem bytesOf_perm {hents hents' : List TxtHent} (perm : hents.Perm hents') :
    bytesOf hents = bytesOf hents' := (perm.map _).sum_eq

/-- What is written adds up: there is a group for each rank but the greatest, its sums are
right, and its bins have the entries with sizes up to the last bin. -/
theorem written_right (task : Nat) {hents keys : List TxtHent}
    (distinct : (hents.map TxtHent.key).Nodup) (order : keys.Perm (hashed hents)) :
    let groups := writeToFile task keys
    (groups.map Group.drank).Pairwise (· < ·) ∧
      (∀ r, r ∈ groups.map Group.drank ↔
        (∃ h ∈ hents, h.orank = r) ∧ ∃ h ∈ hents, r < h.orank) ∧
      ∀ g ∈ groups, g.messages = messagesOf (rankHents hents g.drank) ∧
        g.totalbytes = bytesOf (rankHents hents g.drank) ∧
          (g.bins.map BinRow.count).sum =
            messagesOf ((rankHents hents g.drank).filter fun h => InBins h.bytes) := by
  have perm : keys.Perm hents := order.trans (hashed_perm distinct)
  rcases writeToFile_eq task keys with ⟨ks, sorted, mem, written⟩
  have ranks : (writeToFile task keys).map Group.drank = ks := by
    rw [written, List.map_map]
    exact List.map_id ks
  intro groups
  refine ⟨ranks.symm ▸ sorted, fun r => ?_, fun g memG => ?_⟩
  · rw [ranks, mem]
    simp only [perm.mem_iff]
  · have memG' := memG
    rw [show groups = _ from written] at memG'
    rcases List.mem_map.mp memG' with ⟨k, -, rfl⟩
    have same : (rankHents (sortOrank keys) k).Perm (rankHents hents k) :=
      ((List.mergeSort_perm _ _).trans perm).filter _
    refine ⟨?_, ?_, ?_⟩
    · exact (sums_messages _).trans (messagesOf_perm same)
    · exact (sums_totalSize _).trans (bytesOf_perm same)
    · rw [writeGroup_bins, sums_bins]
      exact messagesOf_perm (same.filter _)

/-- Nothing is lost exactly when there are no entries: the group of the greatest rank is
never written. -/
theorem groupsRight_iff (task : Nat) {hents keys : List TxtHent}
    (order : keys.Perm (hashed hents)) :
    GroupsRight hents (writeToFile task keys) ↔ hents = [] := by
  constructor
  · intro right
    by_contra some
    rcases writeToFile_eq task keys with ⟨ks, -, mem, written⟩
    have ranks : (writeToFile task keys).map Group.drank = ks := by
      rw [written, List.map_map]
      exact List.map_id ks
    have nonempty : keys ≠ [] := fun empty => hashed_ne_nil some (empty ▸ order).nil_eq.symm
    obtain ⟨last, memLast, greatest⟩ : ∃ h ∈ keys, ∀ h' ∈ keys, h'.orank ≤ h.orank := by
      cases found : keys.argmax TxtHent.orank with
      | none => exact absurd (List.argmax_eq_none.mp found) nonempty
      | some h =>
          exact ⟨h, List.argmax_mem found, fun h' mem => List.le_of_mem_argmax mem found⟩
    have memRank : last.orank ∈ ks := by
      rw [← ranks, right.ranks]
      exact ⟨last, mem_of_hashed (order.mem_iff.mp memLast), rfl⟩
    rcases (mem last.orank).mp memRank with ⟨-, h, memH, less⟩
    exact absurd (greatest h memH) (not_le.mpr less)
  · intro none
    subst none
    cases order.eq_nil
    have none : writeToFile task [] = [] := by
      rw [writeToFile, List.mergeSort_nil]
      rfl
    rw [none]
    refine ⟨List.nodup_nil, fun r => iff_of_false ?_ ?_, ?_, ?_, ?_⟩ <;> simp

/-- A task without entries. -/
theorem groupsRight_none : GroupsRight [] (writeToFile 0 []) :=
  (groupsRight_iff 0 (List.Perm.refl _)).mpr rfl

/-- Two messages to rank 1. -/
def twoTo1 : List TxtHent := [⟨7, 1, 64, 2⟩]

/-- Their group is not written. -/
theorem groupsRight_two : ¬ GroupsRight twoTo1 (writeToFile 0 (hashed twoTo1)) := by
  intro right
  have unwritten : writeToFile 0 (hashed twoTo1) = [] := by
    decide +kernel
  rw [unwritten] at right
  exact absurd ((right.ranks 1).mpr ⟨⟨7, 1, 64, 2⟩, List.mem_cons_self, rfl⟩) List.not_mem_nil

end Ipm
