import Ipm.Log.Ranks

/-!
# Repeated trace selection

`ipm_trc_select` after other calls of it (`src/ipm_env.c`).  The number of regions, the time
window, the size of the buffer and IPM_TRC_CANCELED are not reset, and the number of regions is
compared with MAXSIZE_REGION after the region is stored.

* `trcCall_effect`: each part of the selection is what the clauses wrote last, or as before.
* `SameMasks.selected`: the traced calls do not depend on the calls before.
* `repeats_iff`: a call selects what it does as the first one exactly when what it does not
  overwrite is as `ipm_init` left it.
* `lastDecides_iff`: so for a sequence of calls.
-/

namespace Ipm

open Scan

/-! ## Calls -/

/-- A call of `ipm_trc_select`: the rank of the task, the options, and what is on the stack where
`xbuf` lies. -/
structure TrcCall where
  rank : Int
  opt : Label
  xbuf : Double

def trcCall (env : TrcEnv) (s : TrcSettings) (c : TrcCall) : Except TrcStop TrcSettings :=
  ipmTrcSelect env c.rank { s with xbuf := c.xbuf } c.opt

/-- A selection: the regions with their passes, the time window, the size of the buffer, the
traced calls and the flags. -/
structure TrcSelection where
  regions : List (Label × Int × Int)
  timeInit : Double
  timeFinal : Double
  countMax : Nat
  traced : List Bool
  active : Bool
  canceled : Bool
deriving DecidableEq

def TrcSettings.selection (env : TrcEnv) (s : TrcSettings) : TrcSelection where
  regions := (List.range s.nregion).map fun i =>
    (s.maskRegion i, s.maskRegionIti i, s.maskRegionItf i)
  timeInit := s.timeInit
  timeFinal := s.timeFinal
  countMax := s.countMax
  traced := (List.range env.build.maxsizeCalls).map fun i =>
    s.callMask (i + 1) &&& callOptTrace != 0
  active := s.active
  canceled := s.canceled

/-- The call stays inside the arrays and selects what it does as the first call, whatever is on
the stack there. -/
def Repeats (env : TrcEnv) (s : TrcSettings) (c : TrcCall) : Prop :=
  ∃ t, trcCall env s c = .ok t ∧ ∀ xbuf, ∃ t₁, trcCall env (.init env) { c with xbuf := xbuf } =
    .ok t₁ ∧ t.selection env = t₁.selection env

/-- Every call of a sequence does: its last option string decides. -/
def LastDecides (env : TrcEnv) (calls : List TrcCall) : Prop :=
  ∀ before c, before ++ [c] <+: calls →
    ∃ t, Runs.run (trcCall env) (.init env) (before ++ [c]) = .ok t ∧
      ∀ xbuf, ∃ t₁, Runs.run (trcCall env) (.init env) [{ c with xbuf := xbuf }] = .ok t₁ ∧
        t.selection env = t₁.selection env

/-- Some clause of an option string writes. -/
def Writes {α : Type} (writes : Label → Option α) (opt : Label) : Prop :=
  ∃ clause ∈ tokens ',' opt, (writes clause).isSome = true

instance {α : Type} (writes : Label → Option α) (opt : Label) : Decidable (Writes writes opt) :=
  inferInstanceAs (Decidable (∃ clause ∈ tokens ',' opt, _))

/-- Some clause of an option string is a `mem:` clause. -/
def HasMem (opt : Label) : Prop := ∃ clause ∈ tokens ',' opt, clauseKind clause = some .mem

instance (opt : Label) : Decidable (HasMem opt) :=
  inferInstanceAs (Decidable (∃ clause ∈ tokens ',' opt, _))

/-- What a call does not overwrite is as `ipm_init` left it. -/
structure ResetFor (s : TrcSettings) (c : TrcCall) : Prop where
  fits : ∀ r ∈ optRegions c.opt, RegionFits r
  room : (optRegions c.opt).length ≤ maxsizeRegion
  nregion : s.nregion = 0
  timeInit : Writes timeInitBy c.opt ∨ s.timeInit = .finite (-1)
  timeFinal : Writes timeFinalBy c.opt ∨ s.timeFinal = .finite (-2)
  canceled : Writes (canceledBy c.rank) c.opt ∨ s.canceled = false
  countMax : Writes memNumber c.opt ∨ ¬ HasMem c.opt ∧ s.countMax = 0

/-! ## What a call does -/

section Effect

variable {env : TrcEnv} {rank : Int} {s s' : TrcSettings} {opt : Label}

/-- What the clauses of the options write last. -/
def written {α : Type} (writes : Label → Option α) (opt : Label) : Option α :=
  Runs.lastWrite writes (tokens ',' opt)

theorem written_isSome {α : Type} {writes : Label → Option α} :
    (written writes opt).isSome = true ↔ Writes writes opt := by
  rw [← not_iff_not, Bool.not_eq_true, Option.isSome_eq_false_iff, Option.isNone_iff_eq_none,
    written, Runs.lastWrite_eq_none]
  simp [Writes]

/-- Two values by default agree exactly when the default is not used or they do. -/
theorem written_getD {α : Type} {writes : Label → Option α} {a b : α} :
    (written writes opt).getD a = (written writes opt).getD b ↔ Writes writes opt ∨ a = b := by
  rw [← written_isSome]
  cases written writes opt <;> simp

/-- Each part of the selection after a call. -/
structure CallEffect (env : TrcEnv) (rank : Int) (opt : Label) (s s' : TrcSettings) : Prop where
  nregion : s'.nregion = s.nregion + (optRegions opt).length
  active : s'.active = (((tokens ',' opt).filter (isClause "rank:")).getLast?.map
    (rankSelected rank)).getD true
  canceled : s'.canceled = (written (canceledBy rank) opt).getD s.canceled
  timeInit : s'.timeInit = (written timeInitBy opt).getD s.timeInit
  timeFinal : s'.timeFinal = (written timeFinalBy opt).getD s.timeFinal
  countMax : s'.countMax =
    if HasMem opt then memCount env ((written memNumber opt).getD s.xbuf) else s.countMax

/-- The size of the buffer is that of the last number read. -/
theorem runClauses_countMax {texts : List Label}
    (ok : Runs.run (trcClause env rank) s texts = .ok s') :
    s'.countMax =
      if ∃ clause ∈ texts, clauseKind clause = some .mem then memCount env s'.xbuf
      else s.countMax := by
  induction texts using List.reverseRecOn generalizing s' with
  | nil =>
      cases ok
      simp
  | append_singleton texts text ih =>
      rcases Runs.run_snoc_eq_ok ok with ⟨u, ran, stepped⟩
      have effect := trcClause_effect stepped
      have before := ih ran
      rw [effect.countMax]
      by_cases mem : clauseKind text = some .mem
      · rw [if_pos mem, if_pos ⟨text, by simp, mem⟩]
      · have same : s'.xbuf = u.xbuf := by
          rw [effect.xbuf, memNumber, if_neg mem, Option.getD_none]
        rw [if_neg mem, before, same]
        simp [mem]

theorem ipmTrcSelect_effect (ok : ipmTrcSelect env rank s opt = .ok s') :
    CallEffect env rank opt s s' := by
  have ran : Runs.run (trcClause env rank) (s.selectAll env) (tokens ',' opt) = .ok s' := ok
  have effect : ∀ u text u', trcClause env rank u text = .ok u' →
      ClauseEffect env rank text u u' := fun _ _ _ stepped => trcClause_effect stepped
  have canceled : s'.canceled = (written (canceledBy rank) opt).getD (s.selectAll env).canceled :=
    Runs.run_lastWrite (fun u text u' step => (effect u text u' step).canceled) ran
  have timeInit : s'.timeInit = (written timeInitBy opt).getD (s.selectAll env).timeInit :=
    Runs.run_lastWrite (fun u text u' step => (effect u text u' step).timeInit) ran
  have timeFinal : s'.timeFinal = (written timeFinalBy opt).getD (s.selectAll env).timeFinal :=
    Runs.run_lastWrite (fun u text u' step => (effect u text u' step).timeFinal) ran
  have xbuf : s'.xbuf = (written memNumber opt).getD (s.selectAll env).xbuf :=
    Runs.run_lastWrite (fun u text u' step => (effect u text u' step).xbuf) ran
  have countMax := runClauses_countMax ran
  rw [xbuf] at countMax
  exact ⟨ipmTrcSelect_nregion ok, ipmTrcSelect_active ok, canceled, timeInit, timeFinal, countMax⟩

end Effect

/-! ## What the calls before do not change -/

section Same

variable {env : TrcEnv} {rank : Int} {u v u' v' : TrcSettings}

/-- The masks agree in the trace option and in what `MPI_P2P` and `MPI_COL` test. -/
def SameMasks (env : TrcEnv) (u v : TrcSettings) : Prop :=
  ∀ i, 1 ≤ i ∧ i ≤ env.build.maxsizeCalls →
    (u.callMask i).testBit 0 = (v.callMask i).testBit 0 ∧
      (u.callMask i).testBit 48 = (v.callMask i).testBit 48

theorem SameMasks.setTrace (same : SameMasks env u v) {p q : Nat → Bool}
    (agree : ∀ i, 1 ≤ i ∧ i ≤ env.build.maxsizeCalls → p i = q i) :
    SameMasks env (u.setTrace env p) (v.setTrace env q) := by
  intro i inRange
  rw [setTrace_testBit, setTrace_testBit, setTrace_testBit, setTrace_testBit, agree i inRange,
    (same i inRange).1, (same i inRange).2]
  exact ⟨rfl, rfl⟩

/-- A word of a `call:` clause. -/
theorem SameMasks.callWord (same : SameMasks env u v) (word : Label) :
    SameMasks env (callWord env u word) (callWord env v word) := by
  have classed : ∀ {u v : TrcSettings}, SameMasks env u v →
      SameMasks env (u.setTrace env fun i => u.callMask i &&& 1 != 0)
        (v.setTrace env fun i => v.callMask i &&& 1 != 0) := by
    intro u v same
    refine same.setTrace fun i inRange => ?_
    rw [and_one_bne_zero, and_one_bne_zero, (same i inRange).1]
  have named := same.setTrace (p := fun i => sameLabel word (env.callLabel i)) fun _ _ => rfl
  unfold Ipm.callWord
  dsimp only
  split
  · split
    · exact classed (classed named)
    · exact classed named
  · split
    · exact classed named
    · exact named

theorem SameMasks.trcClause (same : SameMasks env u v) {text : Label}
    (ok : trcClause env rank u text = .ok u') (ok' : trcClause env rank v text = .ok v') :
    SameMasks env u' v' := by
  cases call : isClause "call:" text with
  | false =>
      intro i inRange
      rw [(trcClause_effect ok).callMask call, (trcClause_effect ok').callMask call]
      exact same i inRange
  | true =>
      have cleared : SameMasks env (u.clearTrace env) (v.clearTrace env) := by
        intro i inRange
        rw [clearTrace_testBit, clearTrace_testBit, clearTrace_testBit, clearTrace_testBit,
          (same i inRange).1, (same i inRange).2]
        exact ⟨rfl, rfl⟩
      rw [trcClause_call call] at ok ok'
      cases ok
      cases ok'
      exact List.foldl_rel cleared fun word _ _ _ same => same.callWord word

/-- Tracing is switched on for all calls first: only the other bit is left of the state before. -/
theorem SameMasks.ipmTrcSelect {opt : Label}
    (same : ∀ i, (u.callMask i).testBit 0 = (v.callMask i).testBit 0)
    (ok : ipmTrcSelect env rank u opt = .ok u') (ok' : ipmTrcSelect env rank v opt = .ok v') :
    SameMasks env u' v' := by
  have started : SameMasks env (u.selectAll env) (v.selectAll env) := by
    intro i inRange
    have traced : ∀ w : TrcSettings, ((w.selectAll env).callMask i).testBit 48 = true := by
      intro w
      have set := setTrace_testBit env w (fun _ => true) i 48
      have selected : decide (1 ≤ i ∧ i ≤ env.build.maxsizeCalls ∧ true = true) = true :=
        decide_eq_true ⟨inRange.1, inRange.2, rfl⟩
      rw [selected] at set
      exact set.trans (Bool.or_true _)
    rw [traced, traced]
    refine ⟨?_, rfl⟩
    have kept : ∀ w : TrcSettings,
        ((w.selectAll env).callMask i).testBit 0 = (w.callMask i).testBit 0 :=
      fun w => setTrace_keeps NoOption.zero w (fun _ => true) i
    exact (kept u).trans ((same i).trans (kept v).symm)
  have keeps : ∀ u v text u' v', SameMasks env u v → Ipm.trcClause env rank u text = .ok u' →
      Ipm.trcClause env rank v text = .ok v' → SameMasks env u' v' :=
    fun _ _ _ _ _ same step step' => same.trcClause step step'
  exact Runs.run_related keeps started ok ok'

/-- A region is stored by what the regions before are, not by the other fields. -/
theorem selectRegion_regions {text : Label} (same : u.regions = v.regions)
    (ok : selectRegion u text = .ok u') (ok' : selectRegion v text = .ok v') :
    u'.regions = v'.regions := by
  rcases selectRegion_stored text with ⟨label, iti, itf, stored⟩
  simp only [TrcSettings.regions, Prod.mk.injEq] at same
  rcases same with ⟨nregion, mask, first, last⟩
  rw [(stored ok).2, (stored ok').2]
  simp only [TrcSettings.regions, TrcSettings.stored, nregion, mask, first, last]

/-- The stored regions are reset, and after the same number of them the same are stored. -/
theorem ipmTrcSelect_regions {opt : Label} (same : u.nregion = v.nregion)
    (ok : ipmTrcSelect env rank u opt = .ok u') (ok' : ipmTrcSelect env rank v opt = .ok v') :
    u'.regions = v'.regions := by
  have started : (u.selectAll env).regions = (v.selectAll env).regions := by
    simp only [TrcSettings.regions, TrcSettings.selectAll, TrcSettings.setTrace, same]
  have keeps : ∀ u v text u' v', u.regions = v.regions → trcClause env rank u text = .ok u' →
      trcClause env rank v text = .ok v' → u'.regions = v'.regions := by
    intro u v text u' v' same ok ok'
    cases region : isClause "region:" text with
    | false =>
        rw [(trcClause_effect ok).regions region, (trcClause_effect ok').regions region]
        exact same
    | true =>
        rw [trcClause_of_region region] at ok ok'
        exact Runs.run_related (R := fun u v => u.regions = v.regions)
          (fun _ _ _ _ _ => selectRegion_regions) same ok ok'
  exact Runs.run_related (R := fun u v => u.regions = v.regions) keeps started ok ok'

end Same

/-! ## Repeated calls -/

section Repeated

variable {env : TrcEnv} {s : TrcSettings} {c : TrcCall}

/-- Before a call the bit that `MPI_P2P` and `MPI_COL` test is as `ipm_init` left it. -/
def Kept (env : TrcEnv) (s : TrcSettings) : Prop :=
  ∀ i, (s.callMask i).testBit 0 = ((TrcSettings.init env).callMask i).testBit 0

theorem Kept.step (kept : Kept env s) {s' : TrcSettings} (ok : trcCall env s c = .ok s') :
    Kept env s' := by
  intro i
  have same := ipmTrcSelect_keeps NoOption.zero ok i
  exact same.trans (kept i)

/-- The number on the stack is told by the size of the buffer. -/
theorem memCount_ne (env : TrcEnv) : ∃ x y, memCount env x ≠ memCount env y := by
  have size : (env.sizeofEnt : Rat) ≠ 0 := by
    unfold TrcEnv.sizeofEnt
    exact_mod_cast (by omega : 16 + 8 * env.hpmCounters ≠ 0)
  have small : env.sizeofEnt < 2 ^ 20 := by
    have few := env.hpmCounters_lt
    unfold TrcEnv.sizeofEnt
    omega
  -- as many megabytes as an entry has bytes
  have some_ : memCount env (.finite env.sizeofEnt) = 2 ^ 20 := by
    have bytes : (1024 * 1024 : Rat) * env.sizeofEnt = (2 ^ 20 * env.sizeofEnt : Nat) := by
      push_cast
      norm_num
    have entries : (1 / env.sizeofEnt : Rat) * (2 ^ 20 * env.sizeofEnt : Nat) = (2 ^ 20 : Nat) := by
      push_cast
      field_simp
    rw [memCount, Double.scale, bytes, Double.ofRat_natCast (by omega), Double.scale, entries,
      Double.ofRat_natCast (by norm_num), Double.toUInt64_natCast (by norm_num)]
  have none : memCount env (.finite (0 : Nat)) = 0 := by
    have zero : Double.ofRat 0 = .finite (0 : Nat) := by
      exact_mod_cast Double.ofRat_natCast (n := 0) (by norm_num)
    rw [memCount, Double.scale, Nat.cast_zero, mul_zero, zero, Double.scale, Nat.cast_zero,
      mul_zero, zero, Double.toUInt64_natCast (by norm_num)]
  refine ⟨.finite (0 : Nat), .finite env.sizeofEnt, ?_⟩
  rw [none, some_]
  norm_num

/-- The call succeeds exactly when it fits after the regions of the calls before. -/
theorem trcCall_isOk (inside : s.nregion ≤ maxsizeRegion) :
    (∃ t, trcCall env s c = .ok t) ↔ (∀ r ∈ optRegions c.opt, RegionFits r) ∧
      s.nregion + (optRegions c.opt).length ≤ maxsizeRegion :=
  ipmTrcSelect_isOk_iff env c.rank (s := { s with xbuf := c.xbuf }) inside

/-- A call against one as the first: what both select agrees exactly when what is not
overwritten does. -/
theorem selection_eq_iff (kept : Kept env s) {t t₁ : TrcSettings} {xbuf : Double}
    (ok : trcCall env s c = .ok t)
    (ok₁ : trcCall env (.init env) { c with xbuf := xbuf } = .ok t₁) :
    t.selection env = t₁.selection env ↔ s.nregion = 0 ∧
      (Writes timeInitBy c.opt ∨ s.timeInit = .finite (-1)) ∧
      (Writes timeFinalBy c.opt ∨ s.timeFinal = .finite (-2)) ∧
      (Writes (canceledBy c.rank) c.opt ∨ s.canceled = false) ∧ t.countMax = t₁.countMax := by
  have effect := ipmTrcSelect_effect ok
  have first := ipmTrcSelect_effect ok₁
  have nregion : t.nregion = t₁.nregion ↔ s.nregion = 0 := by
    rw [effect.nregion, first.nregion]
    exact Nat.add_right_cancel_iff
  have timeInit : t.timeInit = t₁.timeInit ↔
      Writes timeInitBy c.opt ∨ s.timeInit = .finite (-1) := by
    rw [effect.timeInit, first.timeInit]
    exact written_getD
  have timeFinal : t.timeFinal = t₁.timeFinal ↔
      Writes timeFinalBy c.opt ∨ s.timeFinal = .finite (-2) := by
    rw [effect.timeFinal, first.timeFinal]
    exact written_getD
  have canceled : t.canceled = t₁.canceled ↔
      Writes (canceledBy c.rank) c.opt ∨ s.canceled = false := by
    rw [effect.canceled, first.canceled]
    exact written_getD
  rw [← nregion, ← timeInit, ← timeFinal, ← canceled]
  constructor
  · intro same
    have length := congrArg (fun x => x.regions.length) same
    simp only [TrcSettings.selection, List.length_map, List.length_range] at length
    exact ⟨length, congrArg TrcSelection.timeInit same, congrArg TrcSelection.timeFinal same,
      congrArg TrcSelection.canceled same, congrArg TrcSelection.countMax same⟩
  · intro agree
    rcases agree with ⟨sameCount, sameInit, sameFinal, sameCanceled, sameMax⟩
    have regions := ipmTrcSelect_regions (nregion.mp sameCount) ok ok₁
    simp only [TrcSettings.regions, Prod.mk.injEq] at regions
    rcases regions with ⟨-, mask, iti, itf⟩
    have masks := SameMasks.ipmTrcSelect (u := { s with xbuf := c.xbuf })
      (v := { TrcSettings.init env with xbuf := xbuf }) kept ok ok₁
    have traced : ∀ i ∈ List.range env.build.maxsizeCalls,
        (t.callMask (i + 1) &&& callOptTrace != 0) =
          (t₁.callMask (i + 1) &&& callOptTrace != 0) := by
      intro i mem
      rw [Bool.eq_iff_iff, bne_iff_ne, bne_iff_ne, callOptTrace, and_one_shiftLeft_ne_zero,
        and_one_shiftLeft_ne_zero,
        (masks (i + 1) ⟨Nat.succ_pos i, List.mem_range.mp mem⟩).2]
    simp only [TrcSettings.selection, TrcSelection.mk.injEq]
    refine ⟨?_, sameInit, sameFinal, sameMax, List.map_congr_left traced, ?_, sameCanceled⟩
    · rw [sameCount, mask, iti, itf]
    · exact effect.active.trans first.active.symm

/-- The size of the buffer against any other value on the stack. -/
theorem countMax_iff {t : TrcSettings} (ok : trcCall env s c = .ok t) :
    (∀ xbuf, t.countMax =
      if HasMem c.opt then memCount env ((written memNumber c.opt).getD xbuf) else 0) ↔
      Writes memNumber c.opt ∨ ¬ HasMem c.opt ∧ s.countMax = 0 := by
  have effect := (ipmTrcSelect_effect ok).countMax
  have hasMem : Writes memNumber c.opt → HasMem c.opt := by
    intro writes
    rcases writes with ⟨clause, mem, wrote⟩
    refine ⟨clause, mem, ?_⟩
    by_contra other
    rw [memNumber, if_neg other] at wrote
    cases wrote
  by_cases mem : HasMem c.opt
  · rw [← written_isSome]
    simp only [mem, if_true, not_true_eq_false, false_and, or_false] at effect ⊢
    cases number : written memNumber c.opt with
    | none =>
        refine iff_of_false (fun all => ?_) Bool.false_ne_true
        rcases memCount_ne env with ⟨x, y, differ⟩
        exact differ ((all x).symm.trans (all y))
    | some x =>
        rw [number] at effect
        exact iff_of_true (fun _ => effect) rfl
  · simp only [if_neg mem] at effect ⊢
    rw [or_iff_right (fun wrote => mem (hasMem wrote)), and_iff_right mem, effect]
    exact ⟨fun all => all .nan, fun same _ => same⟩

/-- A call selects what it does as the first one exactly when what it does not overwrite is as
`ipm_init` left it. -/
theorem repeats_iff (kept : Kept env s) : Repeats env s c ↔ ResetFor s c := by
  have firstMax : ∀ {xbuf t₁}, trcCall env (.init env) { c with xbuf := xbuf } = .ok t₁ →
      t₁.countMax =
        if HasMem c.opt then memCount env ((written memNumber c.opt).getD xbuf) else 0 := by
    intro xbuf t₁ ok₁
    exact (ipmTrcSelect_effect ok₁).countMax
  constructor
  · intro repeats
    rcases repeats with ⟨t, ok, same⟩
    rcases same (.finite 0) with ⟨t₁, ok₁, same₁⟩
    rcases (trcCall_isOk (s := .init env) (Nat.zero_le _)).mp ⟨t₁, ok₁⟩ with ⟨fits, room⟩
    obtain ⟨nregion, timeInit, timeFinal, canceled, -⟩ := (selection_eq_iff kept ok ok₁).mp same₁
    have sized : ∀ xbuf, t.countMax =
        if HasMem c.opt then memCount env ((written memNumber c.opt).getD xbuf) else 0 := by
      intro xbuf
      rcases same xbuf with ⟨t₂, ok₂, same₂⟩
      rw [← firstMax ok₂]
      exact congrArg TrcSelection.countMax same₂
    exact ⟨fits, (Nat.zero_add _).symm.trans_le room, nregion, timeInit, timeFinal, canceled,
      (countMax_iff ok).mp sized⟩
  · intro reset
    have succeeds : ∃ t, trcCall env s c = .ok t := by
      rw [trcCall_isOk (by rw [reset.nregion]; exact Nat.zero_le _), reset.nregion, Nat.zero_add]
      exact ⟨reset.fits, reset.room⟩
    rcases succeeds with ⟨t, ok⟩
    refine ⟨t, ok, fun xbuf => ?_⟩
    have succeeds₁ : ∃ t₁, trcCall env (.init env) { c with xbuf := xbuf } = .ok t₁ := by
      rw [trcCall_isOk (Nat.zero_le _)]
      exact ⟨reset.fits, (Nat.zero_add _).trans_le reset.room⟩
    rcases succeeds₁ with ⟨t₁, ok₁⟩
    refine ⟨t₁, ok₁, (selection_eq_iff kept ok ok₁).mpr ?_⟩
    refine ⟨reset.nregion, reset.timeInit, reset.timeFinal, reset.canceled, ?_⟩
    rw [firstMax ok₁]
    exact (countMax_iff ok).mpr reset.countMax xbuf

/-- The last option string of every call of a sequence decides exactly when each call finds
what it does not overwrite as `ipm_init` left it. -/
theorem lastDecides_iff (env : TrcEnv) (calls : List TrcCall) :
    LastDecides env calls ↔
      ∀ s c, Runs.Visit (trcCall env) (.init env) calls s c → ResetFor s c := by
  have kept : ∀ {before s}, Runs.run (trcCall env) (.init env) before = .ok s → Kept env s := by
    intro before s ran
    exact Runs.run_keeps (I := Kept env) (fun _ => rfl) (fun inv stepped => inv.step stepped) ran
  have alone : ∀ c, Runs.run (trcCall env) (.init env) [c] = trcCall env (.init env) c := by
    intro c
    rw [Runs.run_cons]
    cases trcCall env (.init env) c <;> rfl
  constructor
  · rintro decides s c ⟨before, isPrefix, ran⟩
    rcases decides before c isPrefix with ⟨t, ok, same⟩
    rcases Runs.run_snoc_eq_ok ok with ⟨s', ran', stepped⟩
    rw [ran] at ran'
    cases ran'
    simp only [alone] at same
    exact (repeats_iff (kept ran)).mp ⟨t, stepped, same⟩
  · intro reset before c isPrefix
    have runs : ∀ before, before <+: calls →
        ∃ s, Runs.run (trcCall env) (.init env) before = .ok s := by
      intro before isPrefix
      induction before using List.reverseRecOn with
      | nil => exact ⟨_, rfl⟩
      | append_singleton before last ih =>
          rcases ih ((List.prefix_append before [last]).trans isPrefix) with ⟨s, ran⟩
          obtain ⟨t, stepped, -⟩ :=
            (repeats_iff (kept ran)).mpr (reset s last ⟨before, isPrefix, ran⟩)
          exact ⟨t, Runs.run_snoc ran stepped⟩
    rcases runs before ((List.prefix_append before [c]).trans isPrefix) with ⟨s, ran⟩
    obtain ⟨t, stepped, same⟩ := (repeats_iff (kept ran)).mpr (reset s c ⟨before, isPrefix, ran⟩)
    refine ⟨t, Runs.run_snoc ran stepped, ?_⟩
    simp only [alone]
    exact same

end Repeated

/-- A region, then all of them. -/
def regionThenAll : List TrcCall :=
  [⟨0, "region:a".toList, .finite 0⟩, ⟨0, "rank:even".toList, .finite 0⟩]

/-- The second call leaves the region of the first. -/
theorem lastDecides_region : ¬ LastDecides fiveEnv regionThenAll := by
  have ran : Runs.okWith (Runs.run (trcCall fiveEnv) (.init fiveEnv) regionThenAll)
      (fun t => t.nregion == 1) = true := by
    decide +kernel
  have ran₁ : Runs.okWith
      (Runs.run (trcCall fiveEnv) (.init fiveEnv) [⟨0, "rank:even".toList, .finite 0⟩])
      (fun t => t.nregion == 0) = true := by
    decide +kernel
  intro decides
  have second := decides [⟨0, "region:a".toList, .finite 0⟩] ⟨0, "rank:even".toList, .finite 0⟩
    (List.prefix_refl _)
  rcases second with ⟨t, ok, same⟩
  rcases same (.finite 0) with ⟨t₁, ok₁, agree⟩
  rcases Runs.okWith_eq_true ran with ⟨u, done, one⟩
  rcases Runs.okWith_eq_true ran₁ with ⟨u₁, done₁, zero⟩
  cases done.symm.trans ok
  cases done₁.symm.trans ok₁
  have length := congrArg (fun x => x.regions.length) agree
  simp only [TrcSettings.selection, List.length_map, List.length_range] at length
  rw [beq_iff_eq] at one zero
  omega

end Ipm
