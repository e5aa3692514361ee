import Ipm.Hash.Table

/-!
# Rules for the hash table code

What later modules use of `Ipm/Hash/Table.lean` instead of unfolding it:

* what a successful `cullStart`, `reinsert`, `ipmHashCull` or `wrapperLog` did;
* `hkeyLoop_rule` and `ipmHashCull_rule`, the invariant rules of the probe loop and of
  the rebuilt table;
* the *resume* checks.  A probe resumes when an `ipm_hash_cull` it fired returns
  into it.  `hkeyResumes R`, `cullResumes R` and `logRunResumes R` evaluate `R` on
  the rebuilt table and the interrupted key at every resume of an execution, the
  nested ones included.
-/

namespace Ipm

/-! ## Field updates -/

section Fields

variable (t : HashState) (hkey fkey : Nat) (ent : HashEnt)

/-- The keys of the table, slot by slot. -/
def HashState.keys (t : HashState) : Nat → Nat := fun i => (t.hash i).key

@[simp] theorem HashState.keys_setEnt :
    (t.setEnt hkey ent).keys = Function.update t.keys hkey ent.key := by
  funext i
  by_cases same : i = hkey
  · subst same
    simp [HashState.keys, HashState.setEnt]
  · simp [HashState.keys, HashState.setEnt, Function.update_of_ne same]

@[simp] theorem HashState.keys_newKey :
    (t.newKey hkey fkey).keys = Function.update t.keys hkey fkey :=
  t.keys_setEnt hkey (HashEnt.new fkey)

@[simp] theorem HashEnt.key_merge (saved : HashEnt) : (ent.merge saved).key = ent.key := rfl

@[simp] theorem HashEnt.key_log (e : MpiEvent) : (ent.log e).key = ent.key := by
  simp only [HashEnt.log, HashEnt.addTime]
  split_ifs <;> rfl

/-- Storing an entry that keeps the key of its slot keeps every key. -/
theorem HashState.keys_setEnt_same (same : ent.key = (t.hash hkey).key) :
    (t.setEnt hkey ent).keys = t.keys := by
  rw [t.keys_setEnt, same]
  exact Function.update_eq_self hkey t.keys

end Fields

/-! ## What a step did -/

/-- The part of the state the density count leaves alone. -/
theorem callDensity_frame (b : Build) (t : HashState) :
    (callDensity b t).hash = t.hash ∧ (callDensity b t).hashNlog = t.hashNlog ∧
      (callDensity b t).callMask = t.callMask := by
  unfold callDensity
  have counted : ∀ (slots : List Nat) (u : HashState),
      (slots.foldl countCall u).hash = u.hash ∧ (slots.foldl countCall u).hashNlog = u.hashNlog ∧
        (slots.foldl countCall u).callMask = u.callMask := by
    intro slots
    induction slots with
    | nil => exact fun u => ⟨rfl, rfl, rfl⟩
    | cons i slots ih => exact fun u => ih (countCall u i)
  exact counted _ (clearCalls b t)

/-- A cull that starts empties the table and lowers the precision of one call. -/
theorem cullStart_eq_ok {b : Build} {t start : HashState} (h : cullStart b t = .ok start) :
    start.hash = (fun _ => HashEnt.clear) ∧ start.hashNkey = 0 ∧ start.hashNlog = t.hashNlog ∧
      ∃ call, start.callMask =
        Function.update t.callMask call (callBufPrecisionDown (t.callMask call)) := by
  obtain ⟨-, nlog, mask⟩ := callDensity_frame b t
  simp only [cullStart] at h
  split at h
  · cases h
  · cases h
    exact ⟨rfl, rfl, nlog, _, by rw [mask]⟩

/-- A vacant saved entry is passed over, an occupied one is merged into the slot of its rebuilt
key. -/
theorem reinsert_cases {b : Build} {cull : HashState → Except Stop HashState} {fuel : Nat}
    {t t' : HashState} {saved : HashEnt} (h : reinsert b cull fuel t saved = .ok t') :
    saved.key = 0 ∧ t' = t ∨ saved.key ≠ 0 ∧
      ∃ u hkey, ipmHashHkey b cull fuel t (rekey t.callMask saved.key) = .ok (u, hkey) ∧
        t' = u.setEnt hkey ((u.hash hkey).merge saved) := by
  by_cases vacant : saved.key = 0
  · rw [reinsert, if_pos vacant] at h
    cases h
    exact Or.inl ⟨vacant, rfl⟩
  · rw [reinsert, if_neg vacant] at h
    obtain ⟨⟨u, hkey⟩, probed, stored⟩ := Runs.bind_eq_ok h
    cases stored
    exact Or.inr ⟨vacant, u, hkey, probed, rfl⟩

theorem ipmHashCull_eq_ok {b : Build} {fuel : Nat} {t t' : HashState}
    (h : ipmHashCull b (fuel + 1) t = .ok t') :
    ∃ start, cullStart b t = .ok start ∧
      Runs.run (reinsert b (ipmHashCull b fuel) fuel) start (savedTable b t) = .ok t' :=
  Runs.bind_eq_ok h

/-- The key a wrapper builds for an event. -/
def MpiEvent.key (callMask : Nat → Nat) (e : MpiEvent) : Nat :=
  ipmMpiKey callMask e.region e.call e.rank e.bytes

theorem wrapperLog_eq_ok {b : Build} {fuel : Nat} {t t' : HashState} {e : MpiEvent}
    (h : wrapperLog b fuel t e = .ok t') :
    ∃ u hkey, ipmHashHkey b (ipmHashCull b fuel) fuel
        { t with hashNlog := t.hashNlog + 1 } (e.key t.callMask) = .ok (u, hkey) ∧
      t' = u.setEnt hkey ((u.hash hkey).log e) := by
  obtain ⟨⟨u, hkey⟩, probed, stored⟩ := Runs.bind_eq_ok h
  cases stored
  exact ⟨u, hkey, probed, rfl⟩

/-! ## Resume checks -/

section Resumes

variable (b : Build) (R : HashState → Nat → Bool)

/-- `R` at every resume of the probe loop; `inner` is the check of a cull. -/
def hkeyLoopResumes (cull : HashState → Except Stop HashState) (inner : HashState → Bool)
    (fkey : Nat) : Nat → HashState → Nat → Bool
  | 0, _, _ => true
  | fuel + 1, t, hkey =>
      if (t.hash hkey).key = fkey ∨ (t.hash hkey).key = 0 then true
      else if b.maxsizeHashlimit ≤ t.hashNkey then
        inner t && match cull t with
          | .ok u => R u fkey &&
              hkeyLoopResumes cull inner fkey fuel u.collide (hkeyAt b fkey u.collide.collisions)
          | .error _ => true
      else
        hkeyLoopResumes cull inner fkey fuel t.collide (hkeyAt b fkey t.collide.collisions)

/-- `R` at every resume of one `IPM_HASH_HKEY`. -/
def hkeyResumes (cull : HashState → Except Stop HashState) (inner : HashState → Bool)
    (fuel : Nat) (t : HashState) (fkey : Nat) : Bool :=
  hkeyLoopResumes b R cull inner fkey fuel { t with collisions := 0 } (fkey % b.maxsizeHash)

/-- `R` at every resume inside one `ipm_hash_cull`. -/
def cullResumes : Nat → HashState → Bool
  | 0, _ => true
  | fuel + 1, t =>
      match cullStart b t with
      | .ok start =>
          Runs.checkVisits (reinsert b (ipmHashCull b fuel) fuel)
            (fun u saved => saved.key == 0 ||
              hkeyResumes b R (ipmHashCull b fuel) (cullResumes fuel) fuel u
                (rekey u.callMask saved.key))
            start (savedTable b t)
      | .error _ => true

/-- `R` at every resume of one logged event. -/
def logResumes (fuel : Nat) (t : HashState) (e : MpiEvent) : Bool :=
  hkeyResumes b R (ipmHashCull b fuel) (cullResumes b R fuel) fuel
    { t with hashNlog := t.hashNlog + 1 } (e.key t.callMask)

/-- `R` at every resume of a run. -/
def logRunResumes (fuel : Nat) (t : HashState) (events : List MpiEvent) : Bool :=
  Runs.checkVisits (wrapperLog b fuel) (logResumes b R fuel) t events

end Resumes

/-! ## The probe loop -/

/-- Invariant rule of the probe loop.  An invariant of state and slot that the
new-key branch, a plain collision and a collision that culls each keep holds when
the loop ends, and the loop ends at a slot that holds the key. -/
theorem hkeyLoop_rule {b : Build} {R : HashState → Nat → Bool}
    {cull : HashState → Except Stop HashState} {inner : HashState → Bool} {fkey : Nat}
    {I : HashState → Nat → Prop}
    (new : ∀ {t h}, I t h → (t.hash h).key = 0 → fkey ≠ 0 → I (t.newKey h fkey) h)
    (collide : ∀ {t h}, I t h → (t.hash h).key ≠ 0 → (t.hash h).key ≠ fkey →
      b.maxsizeHash ≠ 2 → I t.collide (hkeyAt b fkey t.collide.collisions))
    (culled : ∀ {t h u}, I t h → (t.hash h).key ≠ 0 → (t.hash h).key ≠ fkey →
      cull t = .ok u → inner t = true → R u fkey = true → b.maxsizeHash ≠ 2 →
      I u.collide (hkeyAt b fkey u.collide.collisions))
    {fuel : Nat} {t t' : HashState} {h h' : Nat} (start : I t h)
    (resumes : hkeyLoopResumes b R cull inner fkey fuel t h = true)
    (ok : hkeyLoop b cull fkey fuel t h = .ok (t', h')) :
    I t' h' ∧ (t'.hash h').key = fkey := by
  induction fuel generalizing t h with
  | zero => cases ok
  | succ fuel ih =>
      rw [hkeyLoop] at ok
      rw [hkeyLoopResumes] at resumes
      by_cases hit : (t.hash h).key = fkey
      · rw [if_pos hit] at ok
        cases ok
        exact ⟨start, hit⟩
      rw [if_neg hit] at ok
      by_cases vacant : (t.hash h).key = 0
      · rw [if_pos vacant] at ok
        have named : fkey ≠ 0 := fun zero => hit (vacant.trans zero.symm)
        have stored : ((t.newKey h fkey).hash h).key = fkey := by
          simp [HashState.newKey, HashState.setEnt, HashEnt.new]
        -- the next pass finds the new key and checks nothing
        have quiet : hkeyLoopResumes b R cull inner fkey fuel (t.newKey h fkey) h = true := by
          cases fuel with
          | zero => rfl
          | succ fuel => rw [hkeyLoopResumes, if_pos (Or.inl stored)]
        exact ih (new start vacant named) quiet ok
      rw [if_neg vacant] at ok
      rw [if_neg (by simp only [hit, vacant, or_self, not_false_eq_true])] at resumes
      obtain ⟨u, culledTo, ok⟩ := Runs.bind_eq_ok ok
      split at ok
      · cases ok
      rename_i defined
      by_cases full : b.maxsizeHashlimit ≤ t.hashNkey
      · rw [cullIfFull, if_pos full] at culledTo
        rw [if_pos full, culledTo, Bool.and_eq_true, Bool.and_eq_true] at resumes
        exact ih (culled start vacant hit culledTo resumes.1 resumes.2.1 defined) resumes.2.2 ok
      · rw [cullIfFull, if_neg full] at culledTo
        rw [if_neg full] at resumes
        cases culledTo
        exact ih (collide start vacant hit defined) resumes ok

/-- A check that always holds holds at every resume. -/
theorem hkeyLoopResumes_true {b : Build} {cull : HashState → Except Stop HashState}
    {fkey fuel : Nat} {t : HashState} {h : Nat} :
    hkeyLoopResumes b (fun _ _ => true) cull (fun _ => true) fkey fuel t h = true := by
  induction fuel generalizing t h with
  | zero => rfl
  | succ fuel ih =>
      rw [hkeyLoopResumes]
      split
      · rfl
      · split
        · cases cull t with
          | error _ => rfl
          | ok u => simpa using ih
        · exact ih

/-- The invariant rule of one `IPM_HASH_HKEY`, with nothing asked of its resumes. -/
theorem ipmHashHkey_rule {b : Build} {cull : HashState → Except Stop HashState} {fkey : Nat}
    {I : HashState → Nat → Prop}
    (new : ∀ {t h}, I t h → (t.hash h).key = 0 → fkey ≠ 0 → I (t.newKey h fkey) h)
    (collide : ∀ {t h}, I t h → (t.hash h).key ≠ 0 → (t.hash h).key ≠ fkey →
      I t.collide (hkeyAt b fkey t.collide.collisions))
    (culled : ∀ {t h u}, I t h → (t.hash h).key ≠ 0 → (t.hash h).key ≠ fkey →
      cull t = .ok u → I u.collide (hkeyAt b fkey u.collide.collisions))
    {fuel : Nat} {t t' : HashState} {h' : Nat}
    (start : I { t with collisions := 0 } (fkey % b.maxsizeHash))
    (ok : ipmHashHkey b cull fuel t fkey = .ok (t', h')) :
    I t' h' ∧ (t'.hash h').key = fkey :=
  hkeyLoop_rule new (fun inv occupied other _ => collide inv occupied other)
    (fun inv occupied other ran _ _ _ => culled inv occupied other ran) start
    hkeyLoopResumes_true ok

/-- Invariant rule of `ipm_hash_cull`.  What the emptied table has, a probe for a
rebuilt key keeps and an update of statistics keeps, the rebuilt table has, whatever
the table before.  The culls inside those probes may be assumed to have it already. -/
theorem ipmHashCull_rule {b : Build} {R : HashState → Nat → Bool} {I : HashState → Prop}
    (empty : ∀ {t}, t.hash = (fun _ => HashEnt.clear) → I t)
    (probe : ∀ {fuel t t' key hkey},
      (∀ {t u}, ipmHashCull b fuel t = .ok u → cullResumes b R fuel t = true → I u) → I t →
      hkeyResumes b R (ipmHashCull b fuel) (cullResumes b R fuel) fuel t
        (rekey t.callMask key) = true →
      ipmHashHkey b (ipmHashCull b fuel) fuel t (rekey t.callMask key) = .ok (t', hkey) → I t')
    (store : ∀ {t h ent}, I t → ent.key = (t.hash h).key → I (t.setEnt h ent))
    {fuel : Nat} {t u : HashState} (culled : ipmHashCull b fuel t = .ok u)
    (resumes : cullResumes b R fuel t = true) : I u := by
  induction fuel generalizing t u with
  | zero => cases culled
  | succ fuel ih =>
      obtain ⟨start, started, rebuilt⟩ := ipmHashCull_eq_ok culled
      rw [cullResumes, started] at resumes
      refine Runs.run_invariant (I := I) (empty (cullStart_eq_ok started).1) ?keep
        (fun v saved visit => Runs.checkVisits_visit resumes visit) rebuilt
      case keep =>
        intro v saved v' inv checked stepped
        rcases reinsert_cases stepped with ⟨-, rfl⟩ | ⟨occupied, w, hkey, probed, rfl⟩
        · exact inv
        · have quiet := ((Bool.or_eq_true _ _).mp checked).resolve_left (by simpa using occupied)
          have kept : I w := probe (fun culled quiet => ih culled quiet) inv quiet probed
          exact store kept (HashEnt.key_merge _ _)

theorem hkeyAt_zero (b : Build) (fkey : Nat) : hkeyAt b fkey 0 = fkey % b.maxsizeHash := by
  rw [hkeyAt, Nat.zero_mul, Nat.add_zero, Nat.mod_mod]

/-- In the smallest shipped build, the sizes 0 to 279 of one call fill the table to its limit.
The next event culls in its probe: the size 318 twice takes two slots, and the size 319 is
stored with a bit that the cull took from the mask. -/
theorem xtiny_full :
    Runs.okWith (logRun .xtiny 400 .init ((List.range 280).map fun size : Nat => sizeEvent 1 size))
      (fun t =>
        Runs.okWith (logRun .xtiny 400 t [sizeEvent 1 318, sizeEvent 1 318])
            (fun u => u.keys 82 == 2 ^ 48 + 318 && u.keys 92 == 2 ^ 48 + 318) &&
          Runs.okWith (logRun .xtiny 400 t [sizeEvent 1 319]) fun u =>
            u.keys 48 == 2 ^ 48 + 319 && rekey u.callMask (u.keys 48) == 2 ^ 48 + 318) =
      true := by
  decide +kernel

end Ipm
