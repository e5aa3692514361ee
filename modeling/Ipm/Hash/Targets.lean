import Ipm.Hash.Precision
import Ipm.Hash.Profile
import Ipm.Key.Precision

/-!
# Targets of the stored keys

What the keys of a table say of a run whatever its events lasted, and what the run leaves of
`call_mask`.

* `ipmHashCull_targets`: a cull keeps the set of regions, calls and ranks the keys decode to.
* `logRun_targets`: after a run they are those of the logged events.
* `logRun_lowered`: a run lowers precisions and changes no other bit of a mask.
-/

namespace Ipm

/-! ## The targets of a table -/

/-- The regions, calls and partner ranks that the keys of the table decode to. -/
def HashState.targets (t : HashState) (b : Build) : Set (Nat × Nat × Int) :=
  {x | ∃ i ∈ b.slots, t.keys i ≠ 0 ∧ keyTarget (t.keys i) = x}

/-- Every key of the table names a call. -/
def HashState.Named (t : HashState) (b : Build) : Prop := ∀ x ∈ t.targets b, 1 ≤ x.2.1

/-- The region, the call and the rank that reach the key of an event. -/
def MpiEvent.keyed (e : MpiEvent) : Nat × Nat × Int := ((e.region % 256).toNat, e.call, e.rank)

theorem MpiEvent.InLayout.keyTarget_key {e : MpiEvent} (ok : e.InLayout)
    (callMask : Nat → Nat) : keyTarget (e.key callMask) = e.keyed := by
  have region : keyRegion (e.key callMask) = (e.region % 256).toNat := by
    rw [MpiEvent.key, ipmMpiKey_emod]
    have decoded : (keyRegion (ipmMpiKey callMask _ _ _ _) : Int) = _ :=
      keyRegion_ipmMpiKey ok.fields
    omega
  rw [keyTarget, region, MpiEvent.key, ipmMpiKey_emod, keyCall_ipmMpiKey ok.fields,
    keyRank_ipmMpiKey ok.fields]
  rfl

theorem MpiEvent.InLayout.keyOk {e : MpiEvent} (ok : e.InLayout) (callMask : Nat → Nat) :
    KeyOk (e.key callMask) := by
  rw [KeyOk, MpiEvent.key, ipmMpiKey_emod, keyCall_ipmMpiKey ok.fields]
  exact ok.named

section Table

variable {b : Build} {t t' : HashState}

/-- Only the keys matter. -/
theorem HashState.targets_congr (keys : t'.keys = t.keys) : t'.targets b = t.targets b := by
  rw [HashState.targets, HashState.targets, keys]

theorem HashState.targets_setEnt {h : Nat} {ent : HashEnt} (key : ent.key = (t.hash h).key) :
    (t.setEnt h ent).targets b = t.targets b :=
  HashState.targets_congr (t.keys_setEnt_same h ent key)

theorem HashState.targets_clear (cleared : t.hash = fun _ => HashEnt.clear) :
    t.targets b = ∅ := by
  refine Set.eq_empty_of_forall_notMem fun x stored => ?_
  obtain ⟨i, -, occupied, -⟩ := stored
  refine occupied ?_
  rw [HashState.keys, cleared]
  rfl

/-- The new-key branch adds the target of its key. -/
theorem HashState.targets_newKey {h fkey : Nat} (slot : h ∈ b.slots) (free : t.keys h = 0)
    (named : fkey ≠ 0) :
    (t.newKey h fkey).targets b = insert (keyTarget fkey) (t.targets b) := by
  ext x
  simp only [HashState.targets, HashState.keys_newKey, Set.mem_insert_iff, Set.mem_ofPred_eq]
  constructor
  · intro stored
    obtain ⟨i, inRange, occupied, target⟩ := stored
    rcases eq_or_ne i h with rfl | other
    · rw [Function.update_self] at target
      exact Or.inl target.symm
    · rw [Function.update_of_ne other] at occupied target
      exact Or.inr ⟨i, inRange, occupied, target⟩
  · intro stored
    rcases stored with rfl | ⟨i, inRange, occupied, target⟩
    · exact ⟨h, slot, by rwa [Function.update_self], by rw [Function.update_self]⟩
    · have other : i ≠ h := by
        intro same
        rw [same] at occupied
        exact occupied free
      exact ⟨i, inRange, by rwa [Function.update_of_ne other],
        by rwa [Function.update_of_ne other]⟩

theorem HashState.Named.of_empty (empty : t.targets b = ∅) : t.Named b := by
  intro x mem
  rw [empty] at mem
  exact absurd mem (Set.notMem_empty x)

/-- One more target that names a call. -/
theorem HashState.Named.insert {x : Nat × Nat × Int} (named : t.Named b) (call : 1 ≤ x.2.1)
    (stored : t'.targets b = Insert.insert x (t.targets b)) : t'.Named b := by
  intro y mem
  rw [stored] at mem
  rcases mem with rfl | mem
  · exact call
  · exact named y mem

/-- A key that is stored names its target. -/
theorem HashState.keyTarget_mem {i : Nat} (slot : i ∈ b.slots) (occupied : t.keys i ≠ 0) :
    keyTarget (t.keys i) ∈ t.targets b :=
  ⟨i, slot, occupied, rfl⟩

end Table

/-! ## Probes and culls -/

/-- A cull that loses and invents no target. -/
def KeepsTargets (b : Build) (cull : HashState → Except Stop HashState) : Prop :=
  ∀ t u, t.Named b → cull t = .ok u → u.targets b = t.targets b

/-- A probe adds the target of its key. -/
theorem ipmHashHkey_targets {b : Build} {cull : HashState → Except Stop HashState}
    (keeps : KeepsTargets b cull) {fuel fkey hkey : Nat} {t t' : HashState} (named : t.Named b)
    (ok : KeyOk fkey) (probed : ipmHashHkey b cull fuel t fkey = .ok (t', hkey)) :
    t'.targets b = insert (keyTarget fkey) (t.targets b) := by
  let I : HashState → Nat → Prop := fun u k =>
    k ∈ b.slots ∧ (u.targets b = t.targets b ∨
      u.targets b = insert (keyTarget fkey) (t.targets b) ∧ u.keys k = fkey)
  have before : ∀ {u k}, I u k → (u.hash k).key ≠ fkey → u.targets b = t.targets b :=
    fun inv other => inv.2.resolve_right fun added => other added.2
  have ended : I t' hkey ∧ (t'.hash hkey).key = fkey := by
    refine ipmHashHkey_rule (I := I) ?new ?collide ?culled
      ⟨b.mod_mem_slots fkey, Or.inl rfl⟩ probed
    case new =>
      intro u k inv free _
      have other : (u.hash k).key ≠ fkey := fun same => ok.ne_zero (same.symm.trans free)
      refine ⟨inv.1, Or.inr ⟨?_, ?_⟩⟩
      · rw [HashState.targets_newKey inv.1 free ok.ne_zero, before inv other]
      · rw [HashState.keys_newKey, Function.update_self]
    case collide =>
      intro u k inv _ other
      exact ⟨b.mod_mem_slots _, Or.inl (before inv other)⟩
    case culled =>
      intro u k v inv _ other ran
      have same := before inv other
      have kept := keeps u v (by rwa [HashState.Named, same]) ran
      exact ⟨b.mod_mem_slots _, Or.inl (kept.trans same)⟩
  obtain ⟨⟨slot, unchanged | added⟩, hit⟩ := ended
  · -- the key was there already
    have stored := HashState.keyTarget_mem (t := t') slot (by
      rw [HashState.keys, hit]
      exact ok.ne_zero)
    rw [HashState.keys, hit, unchanged] at stored
    rw [unchanged, Set.insert_eq_of_mem stored]
  · exact added.1

/-- Putting saved entries back adds their targets. -/
theorem reinsert_targets {b : Build} {cull : HashState → Except Stop HashState}
    (keeps : KeepsTargets b cull) {fuel : Nat} {saved : HashState} {slots : List Nat}
    (savedOk : ∀ i ∈ slots, saved.keys i ≠ 0 → KeyOk (saved.keys i)) {t u : HashState}
    (named : t.Named b)
    (ran : Runs.run (reinsert b cull fuel) t (slots.map saved.hash) = .ok u) :
    u.targets b =
      t.targets b ∪ {x | ∃ i ∈ slots, saved.keys i ≠ 0 ∧ keyTarget (saved.keys i) = x} := by
  induction slots generalizing t with
  | nil =>
      cases ran
      ext x
      simp
  | cons i slots ih =>
      obtain ⟨v, stepped, rest⟩ := Runs.run_cons_eq_ok ran
      have later : ∀ j ∈ slots, saved.keys j ≠ 0 → KeyOk (saved.keys j) :=
        fun j mem => savedOk j (List.mem_cons_of_mem i mem)
      rcases reinsert_cases stepped with ⟨vacant, rfl⟩ | ⟨occupied, w, hkey, probed, rfl⟩
      · have skipped : saved.keys i = 0 := vacant
        rw [ih later named rest]
        ext x
        simp [skipped]
      · have occupied : saved.keys i ≠ 0 := occupied
        have ok := savedOk i List.mem_cons_self occupied
        have added := ipmHashHkey_targets keeps named (ok.rekey _) probed
        rw [keyTarget_rekey] at added
        have stored : (w.setEnt hkey ((w.hash hkey).merge (saved.hash i))).targets b =
            insert (keyTarget (saved.keys i)) (t.targets b) := by
          rw [HashState.targets_setEnt (HashEnt.key_merge _ _)]
          exact added
        have call : 1 ≤ (keyTarget (saved.keys i)).2.1 := ok
        rw [ih later (named.insert call stored) rest, stored]
        ext x
        simp only [Set.mem_union, Set.mem_insert_iff, Set.mem_ofPred_eq, List.exists_mem_cons_iff,
          ne_eq, occupied, not_false_eq_true, true_and, eq_comm (a := x)]
        tauto

/-- A cull loses and invents no target. -/
theorem ipmHashCull_targets (b : Build) (fuel : Nat) : KeepsTargets b (ipmHashCull b fuel) := by
  induction fuel with
  | zero => exact fun _ _ _ => nofun
  | succ fuel ih =>
      intro t u named culled
      obtain ⟨start, started, rebuilt⟩ := ipmHashCull_eq_ok culled
      have cleared : start.targets b = ∅ := HashState.targets_clear (cullStart_eq_ok started).1
      have savedOk : ∀ i ∈ List.range (b.maxsizeHash + 1), t.keys i ≠ 0 → KeyOk (t.keys i) := by
        intro i inRange occupied
        have slot : i ∈ b.slots := Finset.mem_range.mpr (List.mem_range.mp inRange)
        exact named _ (HashState.keyTarget_mem slot occupied)
      rw [reinsert_targets ih savedOk (.of_empty cleared) rebuilt, cleared, Set.empty_union]
      ext x
      simp [HashState.targets, Build.slots]

/-! ## Runs -/

theorem wrapperLog_targets {b : Build} {fuel : Nat} {t t' : HashState} {e : MpiEvent}
    (layout : e.InLayout) (named : t.Named b) (logged : wrapperLog b fuel t e = .ok t') :
    t'.targets b = insert e.keyed (t.targets b) := by
  obtain ⟨u, hkey, probed, rfl⟩ := wrapperLog_eq_ok logged
  have counted : HashState.Named { t with hashNlog := t.hashNlog + 1 } b := named
  have added := ipmHashHkey_targets (ipmHashCull_targets b fuel) counted (layout.keyOk _) probed
  rw [HashState.targets_setEnt (HashEnt.key_log _ e), added, layout.keyTarget_key]
  rfl

/-- After a run the targets of the keys are those of its events. -/
theorem logRun_targets {b : Build} {fuel : Nat} {events : List MpiEvent} {t u : HashState}
    (layout : ∀ e ∈ events, e.InLayout) (named : t.Named b)
    (ran : logRun b fuel t events = .ok u) :
    u.targets b = t.targets b ∪ {x | ∃ e ∈ events, e.keyed = x} := by
  induction events generalizing t with
  | nil =>
      cases ran
      ext x
      simp
  | cons e events ih =>
      obtain ⟨v, logged, rest⟩ := Runs.run_cons_eq_ok ran
      have ok := layout e List.mem_cons_self
      have added := wrapperLog_targets ok named logged
      have later := ih (fun e' mem => layout e' (List.mem_cons_of_mem e mem))
        (named.insert (x := e.keyed) ok.named added) rest
      rw [later, added]
      ext x
      simp only [Set.mem_union, Set.mem_insert_iff, Set.mem_ofPred_eq, List.exists_mem_cons_iff,
        eq_comm (a := x)]
      tauto

/-! ## Masks -/

/-- The masks have lost precision and nothing else. -/
def Lowered (callMask callMask' : Nat → Nat) : Prop :=
  ∃ calls, callMask' = precisionDowns callMask calls

theorem Lowered.refl (callMask : Nat → Nat) : Lowered callMask callMask := ⟨[], rfl⟩

theorem Lowered.trans {callMask callMask' callMask'' : Nat → Nat}
    (first : Lowered callMask callMask') (second : Lowered callMask' callMask'') :
    Lowered callMask callMask'' := by
  obtain ⟨calls, rfl⟩ := first
  obtain ⟨more, rfl⟩ := second
  exact ⟨calls ++ more, (List.foldl_append).symm⟩

/-- Every bit above the precision is as it was. -/
theorem Lowered.options {callMask callMask' : Nat → Nat} (lowered : Lowered callMask callMask')
    (call : Nat) : callMask' call &&& (callMaskState ||| callMaskOpt) =
      callMask call &&& (callMaskState ||| callMaskOpt) := by
  obtain ⟨calls, rfl⟩ := lowered
  induction calls using List.reverseRecOn with
  | nil => rfl
  | append_singleton calls last ih =>
      rw [precisionDowns, List.foldl_append, ← ih]
      change precisionDown (precisionDowns callMask calls) last call &&& _ = _
      rw [precisionDown]
      rcases eq_or_ne call last with rfl | other
      · rw [Function.update_self, callBufPrecisionDown_options]
      · rw [Function.update_of_ne other]

section Masks

variable {b : Build} {fuel : Nat}

/-- A probe lowers what its culls lower. -/
theorem ipmHashHkey_lowered {cull : HashState → Except Stop HashState}
    (lowers : ∀ t u, cull t = .ok u → Lowered t.callMask u.callMask) {fkey hkey : Nat}
    {t t' : HashState} (probed : ipmHashHkey b cull fuel t fkey = .ok (t', hkey)) :
    Lowered t.callMask t'.callMask := by
  let I : HashState → Nat → Prop := fun u _ => Lowered t.callMask u.callMask
  have ended : I t' hkey ∧ (t'.hash hkey).key = fkey := by
    refine ipmHashHkey_rule (I := I) ?new ?collide ?culled (Lowered.refl _) probed
    case new => exact fun inv _ _ => inv
    case collide => exact fun inv _ _ => inv
    case culled =>
      intro u k v inv _ _ ran
      exact inv.trans (lowers u v ran)
  exact ended.1

theorem ipmHashCull_lowered {t u : HashState} (culled : ipmHashCull b fuel t = .ok u) :
    Lowered t.callMask u.callMask := by
  induction fuel generalizing t u with
  | zero => cases culled
  | succ fuel ih =>
      obtain ⟨start, started, rebuilt⟩ := ipmHashCull_eq_ok culled
      obtain ⟨-, -, -, call, mask⟩ := cullStart_eq_ok started
      refine Runs.run_keeps (I := fun v => Lowered t.callMask v.callMask) ⟨[call], mask⟩ ?_ rebuilt
      intro v saved v' inv stepped
      rcases reinsert_cases stepped with ⟨-, rfl⟩ | ⟨-, w, hkey, probed, rfl⟩
      · exact inv
      · have lowered := ipmHashHkey_lowered (fun _ _ ran => ih ran) probed
        exact inv.trans lowered

/-- A run lowers precisions and changes no other bit of a mask. -/
theorem logRun_lowered {events : List MpiEvent} {t u : HashState}
    (ran : logRun b fuel t events = .ok u) : Lowered t.callMask u.callMask := by
  refine Runs.run_keeps (I := fun v => Lowered t.callMask v.callMask) (Lowered.refl _) ?_ ran
  intro v e v' inv stepped
  obtain ⟨w, hkey, probed, rfl⟩ := wrapperLog_eq_ok stepped
  have lowered := ipmHashHkey_lowered
    (fun (t u : HashState) (ran : ipmHashCull b fuel t = .ok u) => ipmHashCull_lowered ran) probed
  exact inv.trans lowered

end Masks

end Ipm
