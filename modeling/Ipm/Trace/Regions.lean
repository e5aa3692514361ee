import Ipm.Region.Safety
import Ipm.Trace.Buffer

/-!
# Tracing by region

IPM_MPI_TRACE with one `region:` clause.  `ipm_trc_select` sets IPM_TRC_ACTIVE at once,
`ipm_region` sets it when a selected region is entered, and nothing clears it but a full
buffer.

* `regionClause_start`: the state the clause starts a run in.
* `selects_iff_named`: a clause of plain regions selects what it names.
* `trcActive_iff`: when IPM_TRC_ACTIVE is set in a run.
* `regionTracing_iff`: tracing is active only in the regions and passes the clause names
  exactly when the run makes no other events meanwhile.
-/

namespace Ipm

open Scan

/-! ## The clause -/

/-- A region of a clause, with the first and the last pass of its range. -/
structure TraceItem where
  name : Label
  range : Option (Label × Label)
  nonempty : name ≠ []
  single : ',' ∉ name ∧ '+' ∉ name
  digits : ∀ r ∈ range, IsDigits r.1 ∧ IsDigits r.2

/-- `name` or `name[first-last]`. -/
def TraceItem.text (item : TraceItem) : Label :=
  match item.range with
  | none => item.name
  | some (first, last) => item.name ++ '[' :: (first ++ '-' :: (last ++ [']']))

/-- `region:name+name[first-last]+...`. -/
def regionClause (items : List TraceItem) : Label :=
  "region:".toList ++ ['+'].intercalate (items.map TraceItem.text)

/-- The clause names the region, and its pass lies in the range if it has one. -/
def Named (items : List TraceItem) (label : Label) (pass : Nat) : Prop :=
  ∃ item ∈ items, sameLabel label item.name = true ∧
    ∀ r ∈ item.range, digitsVal r.1 ≤ pass ∧ pass ≤ digitsVal r.2

/-- Tracing is wanted where the run is. -/
def NamedAt (items : List TraceItem) (t : RegionState) : Prop :=
  Named items (t.label t.regionCurrent) (t.count t.regionCurrent)

theorem mem_intercalate {c d : Char} {ts : List Label} (mem : c ∈ [d].intercalate ts) :
    c = d ∨ ∃ t ∈ ts, c ∈ t := by
  induction ts with
  | nil => cases mem
  | cons t ts ih =>
      cases ts with
      | nil =>
          rw [List.intercalate_singleton] at mem
          exact Or.inr ⟨t, List.mem_singleton.2 rfl, mem⟩
      | cons t' ts =>
          rw [List.intercalate_cons_cons, List.mem_append, List.mem_append] at mem
          rcases mem with (mem | mem) | mem
          · exact Or.inr ⟨t, List.mem_cons_self, mem⟩
          · exact Or.inl (List.mem_singleton.1 mem)
          · rcases ih mem with same | ⟨u, memU, memC⟩
            · exact Or.inl same
            · exact Or.inr ⟨u, List.mem_cons_of_mem _ memU, memC⟩

/-- No text of a region has a separator. -/
theorem TraceItem.text_single (item : TraceItem) : ',' ∉ item.text ∧ '+' ∉ item.text := by
  have digit : ∀ {ds : Label}, IsDigits ds → ',' ∉ ds ∧ '+' ∉ ds := by
    intro ds isDigits
    constructor <;>
    · intro mem
      exact absurd (isDigits.2 _ mem) (by decide)
  unfold TraceItem.text
  cases range : item.range with
  | none => exact item.single
  | some r =>
      obtain ⟨first, last⟩ := item.digits r (by rw [range]; rfl)
      have noFirst := digit first
      have noLast := digit last
      have name := item.single
      simp [name.1, name.2, noFirst.1, noFirst.2, noLast.1, noLast.2]

theorem TraceItem.text_ne_nil (item : TraceItem) : item.text ≠ [] := by
  unfold TraceItem.text
  cases item.range with
  | none => exact item.nonempty
  | some r => simp [item.nonempty]

/-- The clause is one token. -/
theorem tokens_regionClause (items : List TraceItem) :
    tokens ',' (regionClause items) = [regionClause items] := by
  have letters : "region:".toList = ['r', 'e', 'g', 'i', 'o', 'n', ':'] := rfl
  have nonempty : regionClause items ≠ [] := by
    refine List.append_ne_nil_of_left_ne_nil ?_ _
    rw [letters]
    exact List.cons_ne_nil _ _
  refine tokens_of_not_mem nonempty fun mem => ?_
  rcases List.mem_append.1 mem with mem | mem
  · rw [letters] at mem
    exact absurd mem (by decide)
  · rcases mem_intercalate mem with same | ⟨t, memT, memC⟩
    · exact absurd same (by decide)
    · obtain ⟨item, -, rfl⟩ := List.mem_map.1 memT
      exact item.text_single.1 memC

/-- The clause is read region by region. -/
theorem ipmTrcSelect_regionClause (env : TrcEnv) (rank : Int) (s : TrcSettings)
    (items : List TraceItem) : ipmTrcSelect env rank s (regionClause items) =
      Runs.run selectRegion (s.selectAll env) (items.map TraceItem.text) := by
  have words : ∀ t ∈ items.map TraceItem.text, t ≠ [] ∧ '+' ∉ t := by
    intro t mem
    obtain ⟨item, -, rfl⟩ := List.mem_map.1 mem
    exact ⟨item.text_ne_nil, item.text_single.2⟩
  have clause : isClause "region:" (regionClause items) = true := by
    rw [isClause, List.isPrefixOf_iff_prefix]
    exact List.prefix_append _ _
  have rest : (regionClause items).drop 7 = ['+'].intercalate (items.map TraceItem.text) :=
    List.drop_left' rfl
  rw [ipmTrcSelect, tokens_regionClause, Runs.run_cons, trcClause, if_pos clause, rest,
    tokens_intercalate words]
  cases Runs.run selectRegion (s.selectAll env) (items.map TraceItem.text) <;> rfl

/-- The clause starts a run with IPM_TRC_ACTIVE set, an empty buffer and no alarm. -/
theorem regionClause_start {env : TrcEnv} {settings : RegionSettings} {stamp : Rat}
    {items : List TraceItem} {t₀ : TraceState}
    (start : traceInit env settings stamp (regionClause items) = .ok t₀) :
    t₀.region.trcActive = true ∧ t₀.trcCount = 0 ∧ t₀.alarm = .none := by
  obtain ⟨s, selected, rest⟩ := Runs.bind_eq_ok start
  cases rest
  rw [ipmTrcSelect_regionClause] at selected
  have same := selectRegions_others selected
  simp only [TrcSettings.others, Prod.mk.injEq] at same
  obtain ⟨active, -, -, timeInit, -⟩ := same
  have active' : s.active = true := active
  have unsliced : s.timeInit.nonneg = false := by
    rw [timeInit]
    rfl
  refine ⟨?_, rfl, ?_⟩
  · change (s.active && !s.timeInit.nonneg) = true
    rw [active', unsliced]
    rfl
  · change (if s.timeInit.nonneg = true then _ else _) = Alarm.none
    rw [unsliced, if_neg Bool.false_ne_true]

/-! ## What the clause selects -/

/-- A region as the scanning of its text expects it: no brackets and dashes of its own, and
with a range no blank in it and no label or number beyond its size. -/
structure TraceItem.Plain (item : TraceItem) : Prop where
  unbracketed : '[' ∉ item.name ∧ '-' ∉ item.name ∧ ']' ∉ item.name
  word : item.range.isSome → IsWord item.name ∧ item.name.length < maxsizeLabel
  passes : ∀ r ∈ item.range, digitsVal r.1 < 2 ^ 31 ∧ digitsVal r.2 < 2 ^ 31

/-- The passes `ipm_trc_select` stores for a region. -/
def TraceItem.iti (item : TraceItem) : Int :=
  match item.range with
  | none => -1
  | some (first, _) => digitsVal first

def TraceItem.itf (item : TraceItem) : Int :=
  match item.range with
  | none => -1
  | some (_, last) => digitsVal last

/-- A selection with one region more. -/
def TrcSettings.addItem (s : TrcSettings) (item : TraceItem) : TrcSettings :=
  { s with
    nregion := s.nregion + 1
    maskRegion := Function.update s.maskRegion s.nregion (copyLabel item.name)
    maskRegionIti := Function.update s.maskRegionIti s.nregion item.iti
    maskRegionItf := Function.update s.maskRegionItf s.nregion item.itf }

/-- The brackets and the dash of a range are the only ones. -/
theorem blankRange_text {name first last : Label}
    (unbracketed : '[' ∉ name ∧ '-' ∉ name ∧ ']' ∉ name)
    (digits : IsDigits first ∧ IsDigits last) :
    blankRange (name ++ '[' :: (first ++ '-' :: (last ++ [']']))) =
      name ++ ' ' :: (first ++ ' ' :: (last ++ [' '])) := by
  have kept : ∀ {l : Label}, '[' ∉ l ∧ '-' ∉ l ∧ ']' ∉ l →
      l.map (fun c => if c = '[' ∨ c = '-' ∨ c = ']' then ' ' else c) = l := by
    intro l none
    refine (List.map_congr_left fun c mem => if_neg ?_).trans (List.map_id' l)
    intro given
    rcases given with rfl | rfl | rfl
    · exact none.1 mem
    · exact none.2.1 mem
    · exact none.2.2 mem
  have number : ∀ {ds : Label}, IsDigits ds → '[' ∉ ds ∧ '-' ∉ ds ∧ ']' ∉ ds := by
    intro ds isDigits
    refine ⟨fun mem => ?_, fun mem => ?_, fun mem => ?_⟩ <;>
      exact absurd (isDigits.2 _ mem) (by decide)
  unfold blankRange
  simp only [List.map_append, List.map_cons, List.map_nil, kept unbracketed,
    kept (number digits.1), kept (number digits.2)]
  simp

/-- A plain region is read as it is written. -/
theorem selectRegion_plain {s : TrcSettings} {item : TraceItem} (plain : item.Plain)
    (room : s.nregion < maxsizeRegion) : selectRegion s item.text = .ok (s.addItem item) := by
  have read : s.readRegion item.text = .ok { s with
      maskRegion := Function.update s.maskRegion s.nregion (copyLabel item.name)
      maskRegionIti := Function.update s.maskRegionIti s.nregion item.iti
      maskRegionItf := Function.update s.maskRegionItf s.nregion item.itf } := by
    unfold TrcSettings.readRegion TraceItem.text TraceItem.iti TraceItem.itf
    cases range : item.range with
    | none =>
        simp only
        rw [if_neg fun all => plain.unbracketed.1 all.1]
    | some r =>
        obtain ⟨first, last⟩ := r
        have digits := item.digits (first, last) (by rw [range]; rfl)
        obtain ⟨small, small'⟩ := plain.passes (first, last) (by rw [range]; rfl)
        obtain ⟨word, short⟩ := plain.word (by rw [range]; rfl)
        have label : copyLabel item.name = item.name := List.take_of_length_le (Nat.le_of_lt short)
        have passes : ∀ {ds rest : Label}, IsDigits ds → digitsVal ds < 2 ^ 31 →
            scanInt (' ' :: (ds ++ ' ' :: rest)) = some ((digitsVal ds : Int), ' ' :: rest) := by
          intro ds rest isDigits small
          rw [scanInt, scanInteger_blank, scanInteger_append isDigits (stops_cons.mpr rfl),
            Option.map_some]
          simp only [longToInt_of_lt small]
        have blank : Stops (fun c => !isSpace c) (' ' :: (first ++ ' ' :: (last ++ [' ']))) :=
          stops_cons.mpr rfl
        simp only
        rw [if_pos (by simp), blankRange_text plain.unbracketed digits]
        unfold TrcSettings.scanPasses
        simp only [scanWord_append word blank, passes digits.1 small,
          passes digits.2 small', label]
        rw [if_neg (Nat.not_le.2 short)]
  unfold selectRegion
  rw [if_neg (Nat.not_le.2 room), read]
  rfl

/-- Plain regions are read one after the other. -/
theorem selectRegions_plain {s : TrcSettings} {items : List TraceItem}
    (plain : ∀ item ∈ items, item.Plain) (room : s.nregion + items.length ≤ maxsizeRegion) :
    Runs.run selectRegion s (items.map TraceItem.text) =
      .ok (items.foldl TrcSettings.addItem s) := by
  induction items generalizing s with
  | nil => rfl
  | cons item items ih =>
      rw [List.length_cons] at room
      rw [List.map_cons, Runs.run_cons, selectRegion_plain (plain item List.mem_cons_self)
        (by omega)]
      refine ih (fun item' mem => plain item' (List.mem_cons_of_mem _ mem)) ?_
      change s.nregion + 1 + items.length ≤ maxsizeRegion
      omega

/-- The regions of a selection are those before and the items. -/
theorem foldl_addItem (items : List TraceItem) (s : TrcSettings) :
    (items.foldl TrcSettings.addItem s).nregion = s.nregion + items.length ∧
      (∀ i, i < s.nregion →
        (items.foldl TrcSettings.addItem s).maskRegion i = s.maskRegion i ∧
        (items.foldl TrcSettings.addItem s).maskRegionIti i = s.maskRegionIti i ∧
        (items.foldl TrcSettings.addItem s).maskRegionItf i = s.maskRegionItf i) ∧
      ∀ i item, items[i]? = some item →
        (items.foldl TrcSettings.addItem s).maskRegion (s.nregion + i) = copyLabel item.name ∧
        (items.foldl TrcSettings.addItem s).maskRegionIti (s.nregion + i) = item.iti ∧
        (items.foldl TrcSettings.addItem s).maskRegionItf (s.nregion + i) = item.itf := by
  induction items generalizing s with
  | nil => exact ⟨rfl, fun _ _ => ⟨rfl, rfl, rfl⟩, nofun⟩
  | cons item items ih =>
      obtain ⟨number, before, here⟩ := ih (s.addItem item)
      have next : (s.addItem item).nregion = s.nregion + 1 := rfl
      rw [next] at number before here
      refine ⟨?_, fun i below => ?_, fun i item' at_ => ?_⟩
      · rw [List.foldl_cons, number, List.length_cons]
        omega
      · obtain ⟨label, iti, itf⟩ := before i (by omega)
        rw [List.foldl_cons, label, iti, itf]
        have other : i ≠ s.nregion := Nat.ne_of_lt below
        exact ⟨Function.update_of_ne other _ _, Function.update_of_ne other _ _,
          Function.update_of_ne other _ _⟩
      · cases i with
        | zero =>
            cases at_
            obtain ⟨label, iti, itf⟩ := before s.nregion (Nat.lt_succ_self _)
            rw [List.foldl_cons, Nat.add_zero, label, iti, itf]
            exact ⟨Function.update_self _ _ _, Function.update_self _ _ _,
              Function.update_self _ _ _⟩
        | succ i =>
            have later := here i item' at_
            rw [List.foldl_cons, show s.nregion + (i + 1) = s.nregion + 1 + i by omega]
            exact later

/-- `ipm_region` would switch tracing on where it is now. -/
def Selects (t : RegionState) : Bool := (List.range t.trcNregion).any t.traces

/-- The selection `ipm_region` reads. -/
def RegionState.selection (t : RegionState) : Nat × (Nat → Label) × (Nat → Int) × (Nat → Int) :=
  (t.trcNregion, t.trcMaskRegion, t.trcMaskRegionIti, t.trcMaskRegionItf)

theorem ipmRegion_selection {t t' : RegionState} {c : RegionCall}
    (h : ipmRegion t c = .ok t') : t'.selection = t.selection := by
  obtain ⟨-, m, regionTag, found, rfl⟩ := ipmRegion_eq_ok h
  have looked : m.selection = t.selection := by
    rcases RegionState.lookupRegion_cases found with ⟨i, -, -, -, rfl⟩ | ⟨-, -, -, rfl⟩ |
      ⟨-, -, -, -, rfl⟩ <;> rfl
  have moved : (m.moveTo c.io regionTag c.enter).selection = m.selection := by
    unfold RegionState.moveTo
    split <;> rfl
  exact moved.trans looked

/-- No action changes the selection. -/
theorem traceRun_selection {t t' : TraceState} {as : List TraceAction}
    (ran : Runs.run traceStep t as = .ok t') : t'.region.selection = t.region.selection := by
  have traced : ∀ (t : TraceState) (r : TrcRecord),
      (t.ipmTrace r).region.selection = t.region.selection := by
    intro t r
    unfold TraceState.ipmTrace
    split <;> rfl
  refine Runs.run_keeps (I := fun u => u.region.selection = t.region.selection) rfl ?keep ran
  case keep =>
    intro u a u' inv stepped
    cases a with
    | region c =>
        obtain ⟨region, moved, rest⟩ := Runs.bind_eq_ok stepped
        cases rest
        exact (ipmRegion_selection moved).trans inv
    | alarm =>
        cases stepped
        unfold TraceState.onAlarm
        cases u.alarm <;> exact inv
    | event e =>
        cases stepped
        unfold traceEvent
        split
        · rw [traced, traced, inv]
        · exact inv

/-- A clause of plain regions selects what it names. -/
theorem selects_iff_named {env : TrcEnv} {settings : RegionSettings} {stamp : Rat}
    {items : List TraceItem} {pre : List TraceAction} {t₀ u : TraceState}
    (plain : ∀ item ∈ items, item.Plain) (room : items.length ≤ maxsizeRegion)
    (start : traceInit env settings stamp (regionClause items) = .ok t₀)
    (ran : Runs.run traceStep t₀ pre = .ok u) :
    Selects u.region = true ↔ NamedAt items u.region := by
  have kept := traceRun_selection ran
  generalize u.region = t at kept ⊢
  obtain ⟨s, selected, rest⟩ := Runs.bind_eq_ok start
  cases rest
  rw [ipmTrcSelect_regionClause, selectRegions_plain plain (by
    change 0 + items.length ≤ maxsizeRegion
    omega)] at selected
  cases selected
  obtain ⟨number, -, here⟩ := foldl_addItem items ((TrcSettings.init env).selectAll env)
  have zero : ((TrcSettings.init env).selectAll env).nregion = 0 := rfl
  rw [zero] at number here
  simp only [RegionState.selection, ipmInit, Prod.mk.injEq] at kept
  obtain ⟨nregion, maskRegion, iti, itf⟩ := kept
  have read : ∀ i item, items[i]? = some item → (t.traces i = true ↔
      sameLabel (t.label t.regionCurrent) item.name = true ∧ ∀ r ∈ item.range,
        digitsVal r.1 ≤ t.count t.regionCurrent ∧ t.count t.regionCurrent ≤ digitsVal r.2) := by
    intro i item at_
    obtain ⟨label, first, last⟩ := here i item at_
    rw [Nat.zero_add] at label first last
    have passes := (plain item (List.mem_of_getElem? at_)).passes
    have word : ∀ {n : Nat}, n < 2 ^ 31 → toU64 n = n := by
      intro n small
      rw [toU64_of_nonneg (Int.natCast_nonneg n) (by omega), Int.toNat_natCast]
    rw [RegionState.traces, maskRegion, iti, itf, label, first, last, sameLabel_comm,
      sameLabel_copyLabel, sameLabel_comm, Bool.and_eq_true]
    refine and_congr_right fun _ => ?_
    unfold TraceItem.iti TraceItem.itf
    cases range : item.range with
    | none => simp
    | some r =>
        obtain ⟨small, small'⟩ := passes r (by rw [range]; rfl)
        have some : ((digitsVal r.1 : Int) == -1) = false := by
          rw [beq_eq_false_iff_ne]
          omega
        simp [some, word small, word small']
  rw [Selects, List.any_eq_true, nregion, number, Nat.zero_add]
  constructor
  · intro given
    rcases given with ⟨i, mem, traces⟩
    have below : i < items.length := List.mem_range.1 mem
    exact ⟨items[i], List.getElem_mem below,
      (read i items[i] (List.getElem?_eq_getElem below)).1 traces⟩
  · intro given
    rcases given with ⟨item, mem, named⟩
    obtain ⟨i, at_⟩ := List.mem_iff_getElem?.1 mem
    have below : i < items.length := (List.getElem?_eq_some_iff.1 at_).1
    exact ⟨i, List.mem_range.2 below, (read i item at_).2 named⟩

/-! ## The flag along a run -/

/-- Entering a region sets IPM_TRC_ACTIVE if the region is selected, and never clears it. -/
theorem ipmRegion_trcActive {t t' : RegionState} {c : RegionCall} (h : ipmRegion t c = .ok t') :
    t'.trcActive = (t.trcActive || Selects t') := by
  obtain ⟨-, m, regionTag, found, rfl⟩ := ipmRegion_eq_ok h
  have kept : m.trcActive = t.trcActive := by
    rcases RegionState.lookupRegion_cases found with ⟨i, -, -, -, rfl⟩ | ⟨-, -, -, rfl⟩ |
      ⟨-, -, -, -, rfl⟩ <;> rfl
  have moved : (m.moveTo c.io regionTag c.enter).trcActive = m.trcActive := by
    unfold RegionState.moveTo
    split <;> rfl
  rw [← kept, ← moved]
  rfl

/-- The call of an event has CALL_OPT_TRACE. -/
def Traceable (t : TraceState) (a : TraceAction) : Bool :=
  match a with
  | .event e => t.callMask e.call &&& callOptTrace != 0
  | _ => false

/-- Since the last traceable event a selected region has been entered. -/
def Reentered (t₀ : TraceState) (pre : List TraceAction) : Prop :=
  ∃ p c q u, pre = p ++ .region c :: q ∧ (∀ a ∈ q, Traceable t₀ a = false) ∧
    Runs.run traceStep t₀ (p ++ [.region c]) = .ok u ∧ Selects u.region = true

section Reentered

variable {t₀ t : TraceState} {pre : List TraceAction}

/-- What comes before the last action, and the last action. -/
theorem snoc_eq_snoc {α : Type} {pre p q : List α} {a x b : α}
    (split : pre ++ [a] = p ++ x :: (q ++ [b])) : pre = p ++ x :: q ∧ a = b := by
  have both : pre ++ [a] = (p ++ x :: q) ++ [b] := by
    rw [split, List.append_assoc, List.cons_append]
  obtain ⟨front, last⟩ := List.append_inj' both rfl
  exact ⟨front, List.singleton_inj.1 last⟩

/-- What is neither a traceable event nor a region call changes nothing. -/
theorem reentered_other {a : TraceAction} (silent : Traceable t₀ a = false)
    (other : ∀ c, a ≠ .region c) : Reentered t₀ (pre ++ [a]) ↔ Reentered t₀ pre := by
  constructor
  · intro given
    rcases given with ⟨p, c, q, u, split, quiet, ran, selects⟩
    rcases List.eq_nil_or_concat q with rfl | ⟨q, b, rfl⟩
    · have last := List.append_inj_right' split rfl
      exact absurd (List.singleton_inj.1 last) (other c)
    · rw [List.concat_eq_append] at split quiet
      obtain ⟨front, -⟩ := snoc_eq_snoc split
      exact ⟨p, c, q, u, front, fun d mem => quiet d (List.mem_append_left _ mem), ran, selects⟩
  · intro given
    rcases given with ⟨p, c, q, u, rfl, quiet, ran, selects⟩
    refine ⟨p, c, q ++ [a], u, by simp, fun d mem => ?_, ran, selects⟩
    rcases List.mem_append.1 mem with mem | mem
    · exact quiet d mem
    · rw [List.mem_singleton.1 mem]
      exact silent

/-- A traceable event forgets the regions before it. -/
theorem not_reentered_event {a : TraceAction} (traceable : Traceable t₀ a = true) :
    ¬Reentered t₀ (pre ++ [a]) := by
  intro given
  rcases given with ⟨p, c, q, u, split, quiet, -⟩
  rcases List.eq_nil_or_concat q with rfl | ⟨q, b, rfl⟩
  · have last := List.append_inj_right' split rfl
    rw [List.singleton_inj.1 last] at traceable
    cases traceable
  · rw [List.concat_eq_append] at split quiet
    obtain ⟨-, last⟩ := snoc_eq_snoc split
    rw [last, quiet b (List.mem_append_right _ List.mem_cons_self)]
      at traceable
    cases traceable

/-- A region call is remembered if it enters a selected region. -/
theorem reentered_region {c : RegionCall}
    (ran : Runs.run traceStep t₀ (pre ++ [.region c]) = .ok t) :
    Reentered t₀ (pre ++ [.region c]) ↔ Reentered t₀ pre ∨ Selects t.region = true := by
  constructor
  · intro given
    rcases given with ⟨p, c', q, u, split, quiet, ran', selects⟩
    rcases List.eq_nil_or_concat q with rfl | ⟨q, b, rfl⟩
    · rw [← split, ran] at ran'
      cases ran'
      exact Or.inr selects
    · rw [List.concat_eq_append] at split quiet
      obtain ⟨front, -⟩ := snoc_eq_snoc split
      exact Or.inl ⟨p, c', q, u, front, fun d mem => quiet d (List.mem_append_left _ mem), ran',
        selects⟩
  · intro given
    rcases given with ⟨p, c', q, u, rfl, quiet, ran', selects⟩ | selects
    · refine ⟨p, c', q ++ [.region c], u, by simp, fun d mem => ?_, ran', selects⟩
      rcases List.mem_append.1 mem with mem | mem
      · exact quiet d mem
      · rw [List.mem_singleton.1 mem]
        rfl
    · exact ⟨pre, c, [], t, rfl, fun d mem => absurd mem List.not_mem_nil, ran, selects⟩

end Reentered

/-- IPM_TRC_ACTIVE after `n` traceable events: set, with all their records stored, while
there is room for another record pair or the first event without; then the buffer is full, and
the flag remembers whether a selected region has been entered since the last event. -/
structure FlagAfter (t₀ : TraceState) (pre : List TraceAction) (t : TraceState) : Prop where
  mask : t.callMask = t₀.callMask
  max : t.trcCountMax = t₀.trcCountMax
  alarm : t.alarm = .none
  early : pre.countP (Traceable t₀) ≤ t₀.trcCountMax / 2 →
    t.region.trcActive = true ∧ t.trcCount = 2 * pre.countP (Traceable t₀)
  late : t₀.trcCountMax / 2 < pre.countP (Traceable t₀) →
    t.trcCount = t₀.trcCountMax ∧ (t.region.trcActive = true ↔ Reentered t₀ pre)

section Flag

variable {t₀ t u : TraceState} {pre : List TraceAction}

/-- An action that is no traceable event and leaves flag, count and alarm. -/
theorem FlagAfter.other {a : TraceAction} (flag : FlagAfter t₀ pre t)
    (silent : Traceable t₀ a = false) (other : ∀ c, a ≠ .region c) :
    FlagAfter t₀ (pre ++ [a]) t := by
  have count : (pre ++ [a]).countP (Traceable t₀) = pre.countP (Traceable t₀) := by
    rw [List.countP_append, List.countP_singleton, silent]
    rfl
  constructor
  · exact flag.mask
  · exact flag.max
  · exact flag.alarm
  · rw [count]
    exact flag.early
  · rw [count, reentered_other silent other]
    exact flag.late

/-- Two records are stored, or the flag is cleared. -/
theorem traceEvent_active (t : TraceState) (e : TraceEvent) (traces : t.traces e = true) :
    (traceEvent t e).callMask = t.callMask ∧ (traceEvent t e).trcCountMax = t.trcCountMax ∧
      (traceEvent t e).alarm = t.alarm ∧
      (t.trcCount + 2 ≤ t.trcCountMax → (traceEvent t e).region.trcActive = true ∧
        (traceEvent t e).trcCount = t.trcCount + 2) ∧
      (t.trcCountMax < t.trcCount + 2 → t.trcCount ≤ t.trcCountMax →
        (traceEvent t e).region.trcActive = false ∧
          (traceEvent t e).trcCount = t.trcCountMax) := by
  have active : t.region.trcActive = true := by
    unfold TraceState.traces at traces
    exact (Bool.and_eq_true_iff.1 traces).1
  unfold traceEvent
  rw [if_pos traces]
  by_cases full : t.trcCountMax ≤ t.trcCount
  · have first : t.ipmTrace ⟨e.key, e.t1⟩ = t.setActive false := if_pos full
    have second : (t.setActive false).ipmTrace ⟨e.key, e.t2⟩ =
        (t.setActive false).setActive false := if_pos full
    rw [first, second]
    refine ⟨rfl, rfl, rfl, fun room => ?_, fun _ le => ⟨rfl, Nat.le_antisymm le full⟩⟩
    omega
  · have first : t.ipmTrace ⟨e.key, e.t1⟩ = { t with
        stored := t.stored ++ [(⟨e.key, e.t1⟩, t.trcCount)], trcCount := t.trcCount + 1 } :=
      if_neg full
    rw [first]
    unfold TraceState.ipmTrace
    split
    · rename_i cut
      have cut' : t.trcCountMax ≤ t.trcCount + 1 := cut
      refine ⟨rfl, rfl, rfl, fun room => ?_, fun _ _ => ⟨rfl, ?_⟩⟩
      · omega
      · change t.trcCount + 1 = t.trcCountMax
        omega
    · rename_i room
      have room' : ¬t.trcCountMax ≤ t.trcCount + 1 := room
      refine ⟨rfl, rfl, rfl, fun _ => ⟨active, rfl⟩, fun cut _ => ?_⟩
      omega

/-- A region call may set the flag. -/
theorem FlagAfter.region {c : RegionCall} (flag : FlagAfter t₀ pre t)
    (ran : Runs.run traceStep t₀ (pre ++ [.region c]) = .ok u)
    (stepped : traceStep t (.region c) = .ok u) : FlagAfter t₀ (pre ++ [.region c]) u := by
  obtain ⟨region, moved, rest⟩ := Runs.bind_eq_ok stepped
  cases rest
  have count : (pre ++ [TraceAction.region c]).countP (Traceable t₀) =
      pre.countP (Traceable t₀) := by
    rw [List.countP_append]
    rfl
  have active := ipmRegion_trcActive moved
  constructor
  · exact flag.mask
  · exact flag.max
  · exact flag.alarm
  · intro early
    rw [count] at early ⊢
    obtain ⟨set, stored⟩ := flag.early early
    refine ⟨?_, stored⟩
    change region.trcActive = true
    rw [active, set]
    rfl
  · intro late
    rw [count] at late
    obtain ⟨full, set⟩ := flag.late late
    refine ⟨full, ?_⟩
    rw [reentered_region ran, ← set]
    change region.trcActive = true ↔ _
    rw [active, Bool.or_eq_true]

theorem FlagAfter.stored_le (flag : FlagAfter t₀ pre t) : t.trcCount ≤ t₀.trcCountMax := by
  rcases Nat.lt_or_ge (t₀.trcCountMax / 2) (pre.countP (Traceable t₀)) with late | early
  · exact Nat.le_of_eq (flag.late late).1
  · have := (flag.early early).2
    omega

/-- The event after which there is no room for a pair finds none. -/
theorem FlagAfter.no_room (flag : FlagAfter t₀ pre t)
    (late : t₀.trcCountMax / 2 < pre.countP (Traceable t₀) + 1) :
    t₀.trcCountMax < t.trcCount + 2 := by
  rcases Nat.lt_or_ge (t₀.trcCountMax / 2) (pre.countP (Traceable t₀)) with later | early
  · have := (flag.late later).1
    omega
  · have := (flag.early early).2
    omega

theorem countP_event {e : TraceEvent} (traceable : Traceable t₀ (.event e) = true) :
    (pre ++ [TraceAction.event e]).countP (Traceable t₀) = pre.countP (Traceable t₀) + 1 := by
  rw [List.countP_append, List.countP_singleton, traceable]
  rfl

/-- A traceable event with the flag set is stored, or clears the flag. -/
theorem FlagAfter.traced {e : TraceEvent} (flag : FlagAfter t₀ pre t)
    (traceable : Traceable t₀ (.event e) = true) (active : t.region.trcActive = true) :
    FlagAfter t₀ (pre ++ [.event e]) (traceEvent t e) := by
  have mask : (t.callMask e.call &&& callOptTrace != 0) = true := by
    rw [flag.mask]
    exact traceable
  have traces : t.traces e = true := by
    rw [TraceState.traces, active, mask]
    rfl
  obtain ⟨mask', max', alarm', fits, cut⟩ := traceEvent_active t e traces
  rw [flag.max] at fits cut
  constructor
  · exact mask'.trans flag.mask
  · exact max'.trans flag.max
  · exact alarm'.trans flag.alarm
  · intro early
    rw [countP_event traceable] at early ⊢
    have stored := (flag.early (by omega)).2
    obtain ⟨set, count'⟩ := fits (by omega)
    exact ⟨set, by omega⟩
  · intro late
    rw [countP_event traceable] at late
    obtain ⟨clear, count'⟩ := cut (flag.no_room late) flag.stored_le
    refine ⟨count', ?_⟩
    rw [clear]
    exact ⟨nofun, fun again => absurd again (not_reentered_event traceable)⟩

/-- With the flag clear it only forgets the regions before it. -/
theorem FlagAfter.passed {e : TraceEvent} (flag : FlagAfter t₀ pre t)
    (traceable : Traceable t₀ (.event e) = true) (inactive : ¬t.region.trcActive = true) :
    FlagAfter t₀ (pre ++ [.event e]) t := by
  have late : t₀.trcCountMax / 2 < pre.countP (Traceable t₀) := by
    by_contra early
    exact inactive (flag.early (by omega)).1
  constructor
  · exact flag.mask
  · exact flag.max
  · exact flag.alarm
  · intro early
    rw [countP_event traceable] at early
    omega
  · intro _
    refine ⟨(flag.late late).1, fun set => absurd set inactive, fun again => ?_⟩
    exact absurd again (not_reentered_event traceable)

theorem traceEvent_untraced {e : TraceEvent} (untraced : t.traces e = false) :
    traceEvent t e = t := by
  rw [traceEvent, untraced]
  rfl

/-- Every action keeps the flag as described. -/
theorem FlagAfter.step {a : TraceAction} (flag : FlagAfter t₀ pre t)
    (ran : Runs.run traceStep t₀ (pre ++ [a]) = .ok u) (stepped : traceStep t a = .ok u) :
    FlagAfter t₀ (pre ++ [a]) u := by
  cases a with
  | region c => exact flag.region ran stepped
  | alarm =>
      cases stepped
      have quiet : t.onAlarm = t := by
        rw [TraceState.onAlarm, flag.alarm]
      rw [quiet]
      exact flag.other rfl (fun c => nofun)
  | event e =>
      cases stepped
      cases traceable : Traceable t₀ (.event e) with
      | true =>
          by_cases active : t.region.trcActive = true
          · exact flag.traced traceable active
          · have untraced : t.traces e = false := by
              rw [TraceState.traces, Bool.eq_false_iff.2 active]
              rfl
            rw [traceEvent_untraced untraced]
            exact flag.passed traceable active
      | false =>
          have mask : (t.callMask e.call &&& callOptTrace != 0) = false := by
            rw [flag.mask]
            exact traceable
          have untraced : t.traces e = false := by
            rw [TraceState.traces, mask, Bool.and_false]
          rw [traceEvent_untraced untraced]
          exact flag.other traceable (fun c => nofun)

/-- When IPM_TRC_ACTIVE is set: until the buffer is full, and then from the entry of a
selected region to the next traceable event. -/
theorem trcActive_iff (active : t₀.region.trcActive = true) (empty : t₀.trcCount = 0)
    (unsliced : t₀.alarm = .none) (ran : Runs.run traceStep t₀ pre = .ok t) :
    t.region.trcActive = true ↔
      pre.countP (Traceable t₀) ≤ t₀.trcCountMax / 2 ∨ Reentered t₀ pre := by
  have flag : FlagAfter t₀ pre t := by
    induction pre using List.reverseRecOn generalizing t with
    | nil =>
        cases ran
        exact ⟨rfl, rfl, unsliced, fun _ => ⟨active, empty⟩, fun late => absurd late (by simp)⟩
    | append_singleton pre a ih =>
        obtain ⟨u, before, stepped⟩ := Runs.run_snoc_eq_ok ran
        exact (ih before).step ran stepped
  rcases Nat.lt_or_ge (t₀.trcCountMax / 2) (pre.countP (Traceable t₀)) with late | early
  · rw [(flag.late late).2]
    constructor
    · exact Or.inr
    · intro given
      rcases given with early | again
      · omega
      · exact again
  · exact ⟨fun _ => Or.inl early, fun _ => (flag.early early).1⟩

end Flag

/-- Region-filtered tracing over runs.  At every event of the run tracing is active only
in a region and pass the clause names exactly when every event made before the buffer is full,
or after a selected region has been entered again, is made in one. -/
theorem regionTracing_iff (env : TrcEnv) (settings : RegionSettings) (stamp : Rat)
    (items : List TraceItem) (actions : List TraceAction) (t₀ : TraceState)
    (start : traceInit env settings stamp (regionClause items) = .ok t₀) :
    (∀ pre e t, pre ++ [.event e] <+: actions → Runs.run traceStep t₀ pre = .ok t →
      t.region.trcActive = true → NamedAt items t.region) ↔
      ∀ pre e t, pre ++ [.event e] <+: actions → Runs.run traceStep t₀ pre = .ok t →
        pre.countP (Traceable t₀) ≤ t₀.trcCountMax / 2 ∨ Reentered t₀ pre →
          NamedAt items t.region := by
  obtain ⟨active, empty, unsliced⟩ := regionClause_start start
  constructor
  · intro filtered pre e t sub ran set
    exact filtered pre e t sub ran ((trcActive_iff active empty unsliced ran).2 set)
  · intro filtered pre e t sub ran set
    exact filtered pre e t sub ran ((trcActive_iff active empty unsliced ran).1 set)

/-- The clause `region:a`. -/
def itemA : TraceItem where
  name := ['a']
  range := none
  nonempty := by decide
  single := by decide
  digits := by simp

/-- An event in the region `a`. -/
def insideA : List TraceAction := [.region ⟨1, ['a'], .at 1, .at 2⟩, .event barrierEvent]

/-- An event in the region `MPI_Init` enters. -/
def outsideA : List TraceAction := [.region ⟨1, noregion, .at 1, .at 2⟩, .event barrierEvent]

theorem regionTracing_a :
    ∃ t₀, traceInit .small .plain 0 (regionClause [itemA]) = .ok t₀ ∧
      ((∀ pre e t, pre ++ [.event e] <+: insideA → Runs.run traceStep t₀ pre = .ok t →
        t.region.trcActive = true → NamedAt [itemA] t.region) ↔
        ∀ pre e t, pre ++ [.event e] <+: insideA → Runs.run traceStep t₀ pre = .ok t →
          pre.countP (Traceable t₀) ≤ t₀.trcCountMax / 2 ∨ Reentered t₀ pre →
            NamedAt [itemA] t.region) := by
  have ran : Runs.okWith (traceInit .small .plain 0 (regionClause [itemA])) (fun _ => true) =
      true := by
    decide +kernel
  obtain ⟨t₀, start, -⟩ := Runs.okWith_eq_true ran
  exact ⟨t₀, start, regionTracing_iff .small .plain 0 [itemA] _ t₀ start⟩

/-- With the clause `region:a`, an event in the region `MPI_Init` enters, before any other
region has been made: tracing is active. -/
theorem traced_outside :
    ∃ t₀, traceInit .small .plain 0 (regionClause [itemA]) = .ok t₀ ∧
      ¬∀ pre e t, pre ++ [.event e] <+: outsideA → Runs.run traceStep t₀ pre = .ok t →
        t.region.trcActive = true → NamedAt [itemA] t.region := by
  have ran : Runs.okWith (traceInit .small .plain 0 (regionClause [itemA])) (fun t₀ =>
      Runs.okWith (Runs.run traceStep t₀ [.region ⟨1, noregion, .at 1, .at 2⟩]) fun t =>
        t.region.trcActive && !sameLabel (t.region.label t.region.regionCurrent) ['a']) =
          true := by
    decide +kernel
  obtain ⟨t₀, start, later⟩ := Runs.okWith_eq_true ran
  obtain ⟨t, ok, check⟩ := Runs.okWith_eq_true later
  obtain ⟨active, other⟩ := Bool.and_eq_true_iff.1 check
  refine ⟨t₀, start, fun filtered => ?_⟩
  obtain ⟨item, mem, same, -⟩ := filtered [.region ⟨1, noregion, .at 1, .at 2⟩] barrierEvent t
    (List.prefix_refl _) ok active
  rw [List.mem_singleton.1 mem] at same
  rw [show itemA.name = ['a'] from rfl] at same
  rw [same] at other
  cases other

end Ipm
