import Ipm.Hash.Termination
import Ipm.Sync

/-!
# The `<func>` lines of the log

`ipm_log_write` prints the summaries by call that `ipm_sync` has left, from call 0 on.
`ipm_hash_cull` uses them for its own count of the slots by call, the vacant ones under
call 0, and both clear them from call 1 on.

* `ipmHashCull_mcount`: every cull raises the count of call 0 in region 0.
* `logRun_mcount`: a run changes the summaries exactly when it culls.
* `logRun_keys`: without a cull the keys of the table are those of the events.
* `ipmSync_calls_iff`: after a run and `ipm_sync` the summaries are those of the table
  exactly when the run has not culled, and its events have a row in them.
-/

namespace Ipm

/-! ## The lines -/

/-- A `<func>` line of a region; its name is the label of the call. -/
structure FuncLine where
  ireg : Nat
  icall : Nat
  count : Nat
  time : Rat

/-- The `<func>` lines of `ipm_log_write`, in order. -/
def funcLines (b : Build) (t : TaskState) : List FuncLine :=
  (List.range t.region.nregion).flatMap fun ireg =>
    (List.range (b.maxsizeCalls + 1)).filterMap fun icall =>
      if t.table.callMcount ireg icall > 0 then
        some ⟨ireg, icall, t.table.callMcount ireg icall, t.table.callMtime ireg icall⟩
      else none

theorem mem_funcLines {b : Build} {t : TaskState} {line : FuncLine} :
    line ∈ funcLines b t ↔
      line.ireg < t.region.nregion ∧ line.icall ≤ b.maxsizeCalls ∧ 0 < line.count ∧
        line.count = t.table.callMcount line.ireg line.icall ∧
        line.time = t.table.callMtime line.ireg line.icall := by
  simp only [funcLines, List.mem_flatMap, List.mem_filterMap, List.mem_range]
  constructor
  · intro printed
    obtain ⟨ireg, below, icall, inRange, made⟩ := printed
    split at made
    · rename_i positive
      cases made
      exact ⟨below, Nat.lt_succ_iff.mp inRange, positive, rfl, rfl⟩
    · cases made
  · intro fields
    obtain ⟨below, inRange, positive, count, time⟩ := fields
    refine ⟨line.ireg, below, line.icall, Nat.lt_succ_iff.mpr inRange, ?_⟩
    rw [if_pos (count ▸ positive), ← count, ← time]

/-- The summaries the log writer scans are those of the table, and so are its lines. -/
structure CallsMatch (b : Build) (u : TaskState) : Prop where
  count : ∀ r < u.region.nregion, ∀ c ≤ b.maxsizeCalls,
    u.table.callMcount r c = callCount b u.table.hash r c
  time : ∀ r < u.region.nregion, ∀ c ≤ b.maxsizeCalls,
    u.table.callMtime r c = callTime b u.table.hash r c
  lines : ∀ line, line ∈ funcLines b u ↔
    line.ireg < u.region.nregion ∧ line.icall ≤ b.maxsizeCalls ∧ 0 < line.count ∧
      line.count = callCount b u.table.hash line.ireg line.icall ∧
      line.time = callTime b u.table.hash line.ireg line.icall

/-- The lines follow the summaries. -/
theorem CallsMatch.of_summaries {b : Build} {u : TaskState}
    (count : ∀ r < u.region.nregion, ∀ c ≤ b.maxsizeCalls,
      u.table.callMcount r c = callCount b u.table.hash r c)
    (time : ∀ r < u.region.nregion, ∀ c ≤ b.maxsizeCalls,
      u.table.callMtime r c = callTime b u.table.hash r c) : CallsMatch b u := by
  refine ⟨count, time, fun line => ?_⟩
  rw [mem_funcLines]
  refine and_congr_right fun below => and_congr_right fun inRange => ?_
  rw [count _ below _ inRange, time _ below _ inRange]

/-! ## What a cull leaves under call 0 -/

/-- The slots that `ipm_hash_cull` has counted under call 0, the vacant ones among them. -/
def HashState.scratch (t : HashState) : Nat := t.callMcount 0 0

/-- The slot behind those the probes reach. -/
def LastVacant (b : Build) (t : HashState) : Prop := t.keys b.maxsizeHash = 0

theorem LastVacant.newKey {b : Build} {t : HashState} (vacant : LastVacant b t) {h : Nat}
    (below : h < b.maxsizeHash) (fkey : Nat) : LastVacant b (t.newKey h fkey) := by
  rw [LastVacant, HashState.keys_newKey, Function.update_of_ne (Nat.ne_of_gt below)]
  exact vacant

theorem LastVacant.setEnt {b : Build} {t : HashState} (vacant : LastVacant b t) {h : Nat}
    {ent : HashEnt} (key : ent.key = (t.hash h).key) : LastVacant b (t.setEnt h ent) := by
  rw [LastVacant, t.keys_setEnt_same h ent key]
  exact vacant

theorem scratch_countCall (t : HashState) (i : Nat) :
    (countCall t i).scratch = t.scratch + if keyCall (t.hash i).key = 0 then 1 else 0 := by
  have added := update_update t.callMcount 0 0 0 (keyCall (t.hash i).key) 1
  simp only [true_and] at added
  exact added

theorem foldl_countCall_hash (slots : List Nat) (t : HashState) :
    (slots.foldl countCall t).hash = t.hash := by
  induction slots generalizing t with
  | nil => rfl
  | cons i slots ih => exact ih (countCall t i)

theorem scratch_foldl (slots : List Nat) (t : HashState) :
    t.scratch ≤ (slots.foldl countCall t).scratch := by
  induction slots generalizing t with
  | nil => exact le_rfl
  | cons i slots ih =>
      have first := scratch_countCall t i
      have rest := ih (countCall t i)
      rw [List.foldl_cons]
      omega

/-- The loops that clear start at call 1. -/
theorem scratch_clearCalls (b : Build) (t : HashState) : (clearCalls b t).scratch = t.scratch := by
  change (if 0 < maxsizeRegion ∧ 1 ≤ 0 ∧ 0 ≤ b.maxsizeCalls then 0 else t.callMcount 0 0) = _
  rw [if_neg (by omega)]
  rfl

/-- The densities count the last slot under call 0, which nothing clears. -/
theorem scratch_callDensity {b : Build} {t : HashState} (vacant : LastVacant b t) :
    t.scratch < (callDensity b t).scratch := by
  have cleared := scratch_clearCalls b t
  have before := scratch_foldl (List.range b.maxsizeHash) (clearCalls b t)
  rw [callDensity, List.range_succ, List.foldl_append, List.foldl_cons, List.foldl_nil,
    scratch_countCall, foldl_countCall_hash]
  have last : keyCall ((clearCalls b t).hash b.maxsizeHash).key = 0 := by
    change keyCall (t.keys b.maxsizeHash) = 0
    rw [vacant]
    rfl
  rw [if_pos last]
  omega

theorem cullStart_scratch {b : Build} {t start : HashState} (vacant : LastVacant b t)
    (h : cullStart b t = .ok start) : t.scratch < start.scratch := by
  simp only [cullStart] at h
  split at h
  · cases h
  · cases h
    exact scratch_callDensity vacant

/-- A cull counts a vacant slot under call 0. -/
def CullCounts (b : Build) (cull : HashState → Except Stop HashState) : Prop :=
  ∀ t u, LastVacant b t → cull t = .ok u → LastVacant b u ∧ t.scratch < u.scratch

section Loop

variable {b : Build} {cull : HashState → Except Stop HashState} (counts : CullCounts b cull)
  {fkey fuel : Nat} {t t' : HashState} {h h' : Nat}
include counts

/-- A probe takes nothing from the count. -/
theorem hkeyLoop_scratch (below : h < b.maxsizeHash) (vacant : LastVacant b t)
    (ok : hkeyLoop b cull fkey fuel t h = .ok (t', h')) :
    LastVacant b t' ∧ t.scratch ≤ t'.scratch := by
  let I : HashState → Nat → Prop := fun u k =>
    k < b.maxsizeHash ∧ LastVacant b u ∧ t.scratch ≤ u.scratch
  have ended : I t' h' ∧ (t'.hash h').key = fkey := by
    refine hkeyLoop_rule (I := I) (R := fun _ _ => true) ?new ?collide ?culled
      ⟨below, vacant, le_rfl⟩ hkeyLoopResumes_true ok
    case new =>
      intro u k inv _ _
      exact ⟨inv.1, inv.2.1.newKey inv.1 fkey, inv.2.2⟩
    case collide =>
      intro u k inv _ _ _
      exact ⟨hkeyAt_lt b fkey _, inv.2⟩
    case culled =>
      intro u k v inv _ _ ran _ _ _
      obtain ⟨last, more⟩ := counts u v inv.2.1 ran
      exact ⟨hkeyAt_lt b fkey _, last, inv.2.2.trans more.le⟩
  exact ended.1.2

/-- A probe that a cull resumes has added to the count. -/
theorem hkeyLoop_resumed {inner : HashState → Bool} (below : h < b.maxsizeHash)
    (vacant : LastVacant b t)
    (resumed : hkeyLoopResumes b (fun _ _ => false) cull inner fkey fuel t h = false)
    (ok : hkeyLoop b cull fkey fuel t h = .ok (t', h')) : t.scratch < t'.scratch := by
  induction fuel generalizing t h with
  | zero => cases ok
  | succ fuel ih =>
      rw [hkeyLoopResumes] at resumed
      by_cases found : (t.hash h).key = fkey ∨ (t.hash h).key = 0
      · rw [if_pos found] at resumed
        cases resumed
      rw [if_neg found] at resumed
      obtain ⟨other, occupied⟩ := not_or.mp found
      rw [hkeyLoop, if_neg other, if_neg occupied] at ok
      obtain ⟨u, culledTo, ok⟩ := Runs.bind_eq_ok ok
      split at ok
      · cases ok
      by_cases full : b.maxsizeHashlimit ≤ t.hashNkey
      · rw [cullIfFull, if_pos full] at culledTo
        obtain ⟨last, more⟩ := counts t u vacant culledTo
        have rest := hkeyLoop_scratch (t := u.collide) counts (hkeyAt_lt b fkey _) last ok
        exact more.trans_le rest.2
      · rw [cullIfFull, if_neg full] at culledTo
        rw [if_neg full] at resumed
        cases culledTo
        exact ih (t := t.collide) (hkeyAt_lt b fkey _) vacant resumed ok

end Loop

/-- A probe that no cull resumes leaves the summaries alone. -/
theorem hkeyLoop_quiet {b : Build} {cull : HashState → Except Stop HashState}
    {inner : HashState → Bool} {fkey fuel : Nat} {t t' : HashState} {h h' : Nat}
    (quiet : hkeyLoopResumes b (fun _ _ => false) cull inner fkey fuel t h = true)
    (ok : hkeyLoop b cull fkey fuel t h = .ok (t', h')) :
    t'.callMcount = t.callMcount ∧ t'.callMtime = t.callMtime := by
  let I : HashState → Nat → Prop := fun u _ =>
    u.callMcount = t.callMcount ∧ u.callMtime = t.callMtime
  have ended : I t' h' ∧ (t'.hash h').key = fkey := by
    refine hkeyLoop_rule (I := I) ?new ?collide ?culled ⟨rfl, rfl⟩ quiet ok
    case new =>
      intro u k inv _ _
      exact inv
    case collide =>
      intro u k inv _ _ _
      exact inv
    case culled =>
      intro u k v _ _ _ _ _ resumes _
      cases resumes
  exact ended.1

/-- A probe that no cull resumes stores its key, and no other. -/
structure Stored (b : Build) (fkey : Nat) (t t' : HashState) (h' : Nat) : Prop where
  callMask : t'.callMask = t.callMask
  below : h' < b.maxsizeHash
  stored : (t'.hash h').key = fkey
  others : ∀ i, (t'.hash i).key = (t.hash i).key ∨ (t.hash i).key = 0 ∧ (t'.hash i).key = fkey

theorem hkeyLoop_stored {b : Build} {cull : HashState → Except Stop HashState}
    {inner : HashState → Bool} {fkey fuel : Nat} {t t' : HashState} {h h' : Nat}
    (below : h < b.maxsizeHash)
    (quiet : hkeyLoopResumes b (fun _ _ => false) cull inner fkey fuel t h = true)
    (ok : hkeyLoop b cull fkey fuel t h = .ok (t', h')) : Stored b fkey t t' h' := by
  let I : HashState → Nat → Prop := fun u k => u.callMask = t.callMask ∧ k < b.maxsizeHash ∧
    ∀ i, (u.hash i).key = (t.hash i).key ∨ (t.hash i).key = 0 ∧ (u.hash i).key = fkey
  have ended : I t' h' ∧ (t'.hash h').key = fkey := by
    refine hkeyLoop_rule (I := I) ?new ?collide ?culled ⟨rfl, below, fun _ => .inl rfl⟩ quiet ok
    case new =>
      intro u k inv vacant _
      refine ⟨inv.1, inv.2.1, fun i => ?_⟩
      change ((Function.update u.hash k (HashEnt.new fkey)) i).key = _ ∨ _
      rcases eq_or_ne i k with rfl | other
      · have old : (t.hash i).key = 0 := by
          rcases inv.2.2 i with same | new
          · exact same.symm.trans vacant
          · exact new.1
        refine .inr ⟨old, ?_⟩
        change ((Function.update u.hash i (HashEnt.new fkey)) i).key = fkey
        rw [Function.update_self]
        rfl
      · have kept : (u.newKey k fkey).hash i = u.hash i := Function.update_of_ne other _ _
        rw [Function.update_of_ne other, kept]
        exact inv.2.2 i
    case collide =>
      intro u k inv _ _ _
      exact ⟨inv.1, hkeyAt_lt b fkey _, inv.2.2⟩
    case culled =>
      intro u k v _ _ _ _ _ resumes _
      cases resumes
  exact ⟨ended.1.1, ended.1.2.1, ended.2, ended.1.2.2⟩

/-- Every cull raises the count of call 0 in region 0. -/
theorem ipmHashCull_mcount (b : Build) (fuel : Nat) : CullCounts b (ipmHashCull b fuel) := by
  induction fuel with
  | zero => exact fun _ _ _ => nofun
  | succ fuel ih =>
      intro t u vacant culled
      obtain ⟨start, started, rebuilt⟩ := ipmHashCull_eq_ok culled
      have more := cullStart_scratch vacant started
      have cleared : LastVacant b start := by
        rw [LastVacant, HashState.keys, (cullStart_eq_ok started).1]
        rfl
      have kept : LastVacant b u ∧ start.scratch ≤ u.scratch := by
        refine Runs.run_keeps (I := fun v => LastVacant b v ∧ start.scratch ≤ v.scratch)
          ⟨cleared, le_rfl⟩ ?_ rebuilt
        intro v saved v' inv stepped
        rcases reinsert_cases stepped with ⟨-, rfl⟩ | ⟨-, w, hkey, probed, rfl⟩
        · exact inv
        · obtain ⟨last, le⟩ := hkeyLoop_scratch (t := { v with collisions := 0 }) ih
            (Nat.mod_lt _ b.maxsizeHash_pos) inv.1 probed
          exact ⟨last.setEnt (HashEnt.key_merge _ _), inv.2.trans le⟩
      exact ⟨kept.1, more.trans_le kept.2⟩

/-! ## Runs -/

/-- No probe of the run is resumed by a cull, the nested ones included: the run does not call
`ipm_hash_cull`. -/
def NoCull (b : Build) (fuel : Nat) (t : HashState) (events : List MpiEvent) : Prop :=
  logRunResumes b (fun _ _ => false) fuel t events = true

instance (b : Build) (fuel : Nat) (t : HashState) (events : List MpiEvent) :
    Decidable (NoCull b fuel t events) :=
  inferInstanceAs (Decidable (_ = true))

theorem noCull_cons {b : Build} {fuel : Nat} {t u : HashState} {e : MpiEvent}
    {events : List MpiEvent} (logged : wrapperLog b fuel t e = .ok u) :
    NoCull b fuel t (e :: events) ↔
      logResumes b (fun _ _ => false) fuel t e = true ∧ NoCull b fuel u events := by
  rw [NoCull, logRunResumes, Runs.checkVisits, logged, Bool.and_eq_true]
  rfl

/-- The keys of the table are those of the events: all of them, but for the key 0 of a vacant
slot, and no others. -/
structure HasKeys (b : Build) (callMask : Nat → Nat) (events : List MpiEvent) (t : HashState) :
    Prop where
  mask : t.callMask = callMask
  logged : ∀ e ∈ events, e.key callMask ≠ 0 →
    ∃ i < b.maxsizeHash, (t.hash i).key = e.key callMask
  only : ∀ i, (t.hash i).key ≠ 0 → ∃ e ∈ events, (t.hash i).key = e.key callMask

theorem HasKeys.wrapperLog {b : Build} {fuel : Nat} {callMask : Nat → Nat}
    {events : List MpiEvent} {t t' : HashState} {e : MpiEvent} (keys : HasKeys b callMask events t)
    (quiet : logResumes b (fun _ _ => false) fuel t e = true)
    (ok : Ipm.wrapperLog b fuel t e = .ok t') : HasKeys b callMask (events ++ [e]) t' := by
  obtain ⟨u, hkey, probed, rfl⟩ := wrapperLog_eq_ok ok
  have stored : Stored b (e.key t.callMask) { t with hashNlog := t.hashNlog + 1, collisions := 0 }
      u hkey := hkeyLoop_stored (Nat.mod_lt _ b.maxsizeHash_pos) quiet probed
  have key : ∀ i, ((u.setEnt hkey ((u.hash hkey).log e)).hash i).key = (u.hash i).key :=
    congrFun (u.keys_setEnt_same hkey _ (HashEnt.key_log _ e))
  obtain ⟨same, below, here, others⟩ := stored
  rw [keys.mask] at here others
  refine ⟨same.trans keys.mask, fun e' mem named => ?_, fun i occupied => ?_⟩
  · rcases List.mem_append.mp mem with old | new
    · obtain ⟨i, inside, at_⟩ := keys.logged e' old named
      refine ⟨i, inside, ?_⟩
      rw [key]
      rcases others i with kept | ⟨vacant, -⟩
      · exact kept.trans at_
      · exact absurd (at_.symm.trans vacant) named
    · rw [List.mem_singleton.mp new]
      exact ⟨hkey, below, (key hkey).trans here⟩
  · rw [key] at occupied ⊢
    rcases others i with kept | ⟨-, new⟩
    · rw [kept] at occupied ⊢
      obtain ⟨e', mem, at_⟩ := keys.only i occupied
      exact ⟨e', List.mem_append_left _ mem, at_⟩
    · exact ⟨e, List.mem_append_right _ (List.mem_singleton_self _), new⟩

/-- Without a cull the keys of the table are those of the events. -/
theorem logRun_keys {b : Build} {fuel : Nat} {callMask : Nat → Nat}
    {before events : List MpiEvent} {t t' : HashState} (keys : HasKeys b callMask before t)
    (quiet : NoCull b fuel t events) (ok : logRun b fuel t events = .ok t') :
    HasKeys b callMask (before ++ events) t' := by
  induction events generalizing t before with
  | nil =>
      cases ok
      rwa [List.append_nil]
  | cons e events ih =>
      obtain ⟨u, logged, rest⟩ := Runs.run_cons_eq_ok ok
      obtain ⟨here, later⟩ := (noCull_cons logged).mp quiet
      have all := ih (keys.wrapperLog here logged) later rest
      rwa [List.append_assoc] at all

/-- So `ipm_sync` stays inside of the summaries when the events have a row there. -/
theorem syncsInRows_iff {b : Build} {fuel : Nat} {events : List MpiEvent} {t : HashState}
    (quiet : NoCull b fuel .init events) (ok : logRun b fuel .init events = .ok t) :
    SyncsInRows b t ↔ ∀ e ∈ events, KeyInRows b (e.key HashState.init.callMask) := by
  have start : HasKeys b HashState.init.callMask [] .init :=
    ⟨rfl, fun _ mem => absurd mem List.not_mem_nil, fun _ occupied => absurd rfl occupied⟩
  obtain ⟨-, logged, only⟩ := logRun_keys start quiet ok
  rw [List.nil_append] at logged only
  constructor
  · intro inRows e mem
    rcases eq_or_ne (e.key HashState.init.callMask) 0 with zero | named
    · rw [zero]
      exact ⟨by decide, Nat.zero_le _⟩
    · obtain ⟨i, inside, at_⟩ := logged e mem named
      rw [← at_] at named ⊢
      exact inRows i (List.mem_range.mpr (Nat.lt_succ_of_lt inside)) named
  · intro inRows i _ occupied
    obtain ⟨e, mem, at_⟩ := only i occupied
    rw [at_]
    exact inRows e mem

example : ¬ KeyInRows .five ({ sizeEvent 1 5 with region := -1 }.key fun _ => callMaskBprec) := by
  decide

theorem wrapperLog_vacant {b : Build} {fuel : Nat} {t t' : HashState} {e : MpiEvent}
    (vacant : LastVacant b t) (ok : wrapperLog b fuel t e = .ok t') :
    LastVacant b t' ∧ t.scratch ≤ t'.scratch := by
  obtain ⟨u, hkey, probed, rfl⟩ := wrapperLog_eq_ok ok
  obtain ⟨last, le⟩ :=
    hkeyLoop_scratch (t := { t with hashNlog := t.hashNlog + 1, collisions := 0 })
      (ipmHashCull_mcount b fuel) (Nat.mod_lt _ b.maxsizeHash_pos) vacant probed
  exact ⟨last.setEnt (HashEnt.key_log _ e), le⟩

/-- One event changes the summaries exactly when it culls. -/
theorem wrapperLog_mcount {b : Build} {fuel : Nat} {t t' : HashState} {e : MpiEvent}
    (vacant : LastVacant b t) (ok : wrapperLog b fuel t e = .ok t') :
    if logResumes b (fun _ _ => false) fuel t e = true then
      t'.callMcount = t.callMcount ∧ t'.callMtime = t.callMtime
    else t.scratch < t'.scratch := by
  obtain ⟨u, hkey, probed, rfl⟩ := wrapperLog_eq_ok ok
  let v : HashState := { t with hashNlog := t.hashNlog + 1, collisions := 0 }
  split
  case isTrue quiet =>
    have same : u.callMcount = v.callMcount ∧ u.callMtime = v.callMtime :=
      hkeyLoop_quiet quiet probed
    exact same
  case isFalse resumed =>
    have more : v.scratch < u.scratch :=
      hkeyLoop_resumed (ipmHashCull_mcount b fuel) (Nat.mod_lt _ b.maxsizeHash_pos) vacant
        (Bool.eq_false_iff.mpr resumed) probed
    exact more

theorem logRun_scratch {b : Build} {fuel : Nat} {events : List MpiEvent} {t t' : HashState}
    (vacant : LastVacant b t) (ok : logRun b fuel t events = .ok t') : t.scratch ≤ t'.scratch := by
  have kept : LastVacant b t' ∧ t.scratch ≤ t'.scratch := by
    refine Runs.run_keeps (I := fun v => LastVacant b v ∧ t.scratch ≤ v.scratch)
      ⟨vacant, le_rfl⟩ ?_ ok
    intro v e v' inv stepped
    obtain ⟨last, le⟩ := wrapperLog_vacant inv.1 stepped
    exact ⟨last, inv.2.trans le⟩
  exact kept.2

/-- A run changes the summaries exactly when it culls, and then it leaves a count under
call 0. -/
theorem logRun_mcount {b : Build} {fuel : Nat} {events : List MpiEvent} {t t' : HashState}
    (vacant : LastVacant b t) (ok : logRun b fuel t events = .ok t') :
    if NoCull b fuel t events then t'.callMcount = t.callMcount ∧ t'.callMtime = t.callMtime
    else t.scratch < t'.scratch := by
  induction events generalizing t with
  | nil =>
      cases ok
      exact ⟨rfl, rfl⟩
  | cons e events ih =>
      obtain ⟨u, logged, rest⟩ := Runs.run_cons_eq_ok ok
      obtain ⟨last, le⟩ := wrapperLog_vacant vacant logged
      have first := wrapperLog_mcount vacant logged
      have later := ih last rest
      have unfolded : NoCull b fuel t (e :: events) ↔
          logResumes b (fun _ _ => false) fuel t e = true ∧ NoCull b fuel u events :=
        noCull_cons logged
      by_cases quiet : logResumes b (fun _ _ => false) fuel t e = true
      · rw [if_pos quiet] at first
        by_cases quietLater : NoCull b fuel u events
        · rw [if_pos quietLater] at later
          rw [if_pos (unfolded.mpr ⟨quiet, quietLater⟩)]
          exact ⟨later.1.trans first.1, later.2.trans first.2⟩
        · rw [if_neg quietLater] at later
          rw [if_neg fun all => quietLater (unfolded.mp all).2]
          exact le.trans_lt later
      · rw [if_neg quiet] at first
        rw [if_neg fun all => quiet (unfolded.mp all).1]
        exact first.trans_le (logRun_scratch last rest)

/-- What stands under call 0 of region 0 before the sync is still there after it. -/
theorem CallsMatch.scratch_eq_zero {b : Build} {t : TaskState} {now : SyncReading}
    (regions : 0 < t.region.nregion) (matched : CallsMatch b (ipmSync b t now)) :
    t.table.scratch = 0 := by
  have kept := ipmSync_region b t now
  have zero := matched.count 0 (by rw [kept]; exact regions) 0 (Nat.zero_le _)
  have synced : (ipmSync b t now).table.callMcount 0 0 =
      (clearCalls b t.table).scratch + callCount b t.table.hash 0 0 :=
    syncSums_callMcount b t now 0 0
  rw [ipmSync_hash, synced, scratch_clearCalls] at zero
  omega

/-- The summaries by call match the table exactly when the run has not culled, and its events
have a row: after a cull the vacant slots it has counted stand under call 0 of region 0. -/
theorem ipmSync_calls_iff {b : Build} {fuel : Nat} {events : List MpiEvent} {t : TaskState}
    (rooted : Rooted t.region) (logged : logRun b fuel .init events = .ok t.table)
    (now : SyncReading) :
    SyncsInRows b t.table ∧ CallsMatch b (ipmSync b t now) ↔
      NoCull b fuel .init events ∧ ∀ e ∈ events, KeyInRows b (e.key HashState.init.callMask) := by
  have regions : (ipmSync b t now).region = t.region := ipmSync_region b t now
  have count := syncSums_callMcount b t now
  have time := syncSums_callMtime b t now
  have vacant : LastVacant b .init := rfl
  have run := logRun_mcount vacant logged
  have culls : CallsMatch b (ipmSync b t now) ↔ NoCull b fuel .init events := by
    constructor
    · intro matched
      by_contra culled
      rw [if_neg culled] at run
      have zero := matched.scratch_eq_zero rooted.nregion_pos
      omega
    · intro quiet
      rw [if_pos quiet] at run
      -- what the loops do not clear is still as the task was started
      have cleared : ∀ r c, r < maxsizeRegion → c ≤ b.maxsizeCalls →
          (clearCalls b t.table).callMcount r c = 0 ∧
            (clearCalls b t.table).callMtime r c = 0 := by
        intro r c below inRange
        simp only [clearCalls, run.1, run.2]
        exact ⟨ite_self 0, ite_self 0⟩
      refine CallsMatch.of_summaries ?_ ?_
      · intro r below c inRange
        rw [regions] at below
        change (syncSums b t now).table.callMcount r c = _
        rw [ipmSync_hash, count r c, (cleared r c (below.trans_le rooted.nregion_le) inRange).1,
          Nat.zero_add]
      · intro r below c inRange
        rw [regions] at below
        change (syncSums b t now).table.callMtime r c = _
        rw [ipmSync_hash, time r c, (cleared r c (below.trans_le rooted.nregion_le) inRange).2,
          zero_add]
  rw [culls, and_comm]
  exact and_congr_right fun quiet => syncsInRows_iff quiet logged

/-- Three events of two calls in two regions do not cull. -/
theorem ipmSync_calls_three :
    ∃ region table,
      Runs.run ipmRegion (ipmInit .plain 0) [firstCall, ⟨1, ['a'], .at 3, .at 4⟩] = .ok region ∧
      logRun .five 20 .init
        [sizeEvent 1 5 1, { sizeEvent 2 7 4 with region := 1 }, sizeEvent 1 5 2] = .ok table ∧
      ((funcLines .five
        (ipmSync .five { TaskState.start region 0 with table := table } ⟨0, 0, 0, 0⟩)).map
          fun line => (line.ireg, line.icall, line.count, line.time)) =
            [(0, 1, 2, 3), (1, 2, 1, 4)] ∧
      SyncsInRows .five table ∧ CallsMatch .five
        (ipmSync .five { TaskState.start region 0 with table := table } ⟨0, 0, 0, 0⟩) := by
  have started : Runs.okWith
      (Runs.run ipmRegion (ipmInit .plain 0) [firstCall, ⟨1, ['a'], .at 3, .at 4⟩])
      (fun region => region.nregion == 2 && Runs.okWith (logRun .five 20 .init
        [sizeEvent 1 5 1, { sizeEvent 2 7 4 with region := 1 }, sizeEvent 1 5 2]) fun table =>
          ((funcLines .five
            (ipmSync .five { TaskState.start region 0 with table := table } ⟨0, 0, 0, 0⟩)).map
              fun line => (line.ireg, line.icall, line.count, line.time)) ==
                [(0, 1, 2, 3), (1, 2, 1, 4)]) = true := by
    decide +kernel
  obtain ⟨region, ran, rest⟩ := Runs.okWith_eq_true started
  rw [Bool.and_eq_true] at rest
  obtain ⟨table, logged, lines⟩ := Runs.okWith_eq_true rest.2
  obtain ⟨first, entered, second⟩ := Runs.run_cons_eq_ok ran
  obtain ⟨_, inside, last⟩ := Runs.run_cons_eq_ok second
  cases last
  refine ⟨region, table, ran, logged, beq_iff_eq.mp lines, ?_⟩
  exact (ipmSync_calls_iff (t := { TaskState.start region 0 with table := table })
    (ipmRegion_rooted (firstCall_rooted entered).1 inside) logged ⟨0, 0, 0, 0⟩).mpr
      ⟨by decide +kernel, by decide +kernel⟩

/-- Three events with five slots cull once: the log shows the four slots that were vacant as
events of call 0, of which the table has none. -/
theorem ipmSync_calls_culled :
    ∃ region table, ipmRegion (ipmInit .plain 0) firstCall = .ok region ∧
      logRun .five 20 .init [sizeEvent 1 5, sizeEvent 2 7, sizeEvent 2 2] = .ok table ∧
      ¬ CallsMatch .five
        (ipmSync .five { TaskState.start region 0 with table := table } ⟨0, 0, 0, 0⟩) := by
  have started : Runs.okWith (ipmRegion (ipmInit .plain 0) firstCall) (fun region =>
      region.nregion == 1 &&
        Runs.okWith (logRun .five 20 .init [sizeEvent 1 5, sizeEvent 2 7, sizeEvent 2 2])
          fun table => table.callMcount 0 0 == 4) = true := by
    decide +kernel
  obtain ⟨region, first, rest⟩ := Runs.okWith_eq_true started
  rw [Bool.and_eq_true] at rest
  obtain ⟨table, logged, four⟩ := Runs.okWith_eq_true rest.2
  refine ⟨region, table, first, logged, fun matched => ?_⟩
  have zero := matched.scratch_eq_zero (by
    change 0 < region.nregion
    rw [beq_iff_eq.mp rest.1]
    exact Nat.one_pos)
  have vacant : table.scratch = 4 := beq_iff_eq.mp four
  change table.scratch = 0 at zero
  omega

end Ipm
