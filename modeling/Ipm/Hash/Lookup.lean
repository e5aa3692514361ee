import Ipm.Lib.OpenAddressing
import Ipm.Hash.Rules

/-!
# Lookup in the event hash table

When every key of the table can be found again.

* `HashLookup`: no nonzero key is stored twice, and probing for a stored key from
  scratch meets other keys only before the slot that stores it.
* `logRun_hashLookup`: a run whose interrupted probes skip only slots that hold
  other keys keeps the table in that state.  A probe that fires no
  `ipm_hash_cull` is never interrupted.
-/

namespace Ipm

open OpenAddressing

/-! ## The property -/

/-- Every stored key has one slot, and `IPM_HASH_HKEY` finds it. -/
structure HashLookup (b : Build) (t : HashState) : Prop where
  unique : ∀ i j, i ≤ b.maxsizeHash → j ≤ b.maxsizeHash →
    t.keys i ≠ 0 → t.keys i = t.keys j → i = j
  found : ∀ i, i ≤ b.maxsizeHash → t.keys i ≠ 0 →
    ∃ c, hkeyAt b (t.keys i) c = i ∧ (c = 0 ∨ b.maxsizeHash ≠ 2) ∧
      ∀ d, d < c → t.keys (hkeyAt b (t.keys i) d) ≠ 0 ∧
        t.keys (hkeyAt b (t.keys i) d) ≠ t.keys i
  accumulated : ∀ i, i ≤ b.maxsizeHash → t.keys i ≠ 0 →
    t.hashNkey < b.maxsizeHashlimit → ∃ c, ∀ cull fuel, c < fuel →
      ipmHashHkey b cull fuel t (t.keys i) = .ok ({ t with collisions := c }, i)

/-- The slots a probe for `fkey` visits; with two slots there is only the first,
because the step of the probe formula divides by zero. -/
def hkeyProbe (b : Build) (fkey c : Nat) : Nat :=
  if b.maxsizeHash = 2 then fkey % b.maxsizeHash else hkeyAt b fkey c

theorem hkeyProbe_zero (b : Build) (fkey : Nat) :
    hkeyProbe b fkey 0 = fkey % b.maxsizeHash := by
  rw [hkeyProbe, hkeyAt_zero, ite_self]

theorem hkeyProbe_of_ne {b : Build} (defined : b.maxsizeHash ≠ 2) :
    hkeyProbe b = hkeyAt b := by
  funext fkey c
  rw [hkeyProbe, if_neg defined]

/-- With two slots a stored key is met at once. -/
theorem defined_or_zero {b : Build} {tbl : Nat → Nat} {i c : Nat}
    (here : hkeyProbe b (tbl i) c = i)
    (crowded : Crowded (hkeyProbe b) 0 tbl (tbl i) c) : c = 0 ∨ b.maxsizeHash ≠ 2 := by
  by_cases two : b.maxsizeHash = 2
  · left
    have first : hkeyProbe b (tbl i) 0 = i := by
      rw [hkeyProbe, if_pos two] at here ⊢
      exact here
    exact Nat.le_zero.mp (crowded.le_of_hit (by rw [first]))
  · exact Or.inr two

/-- A probe below the limit walks past other keys to the slot of its key. -/
theorem hkeyLoop_walk {b : Build} {cull : HashState → Except Stop HashState} {t : HashState}
    {fkey n : Nat} (below : t.hashNkey < b.maxsizeHashlimit)
    (hit : t.keys (hkeyAt b fkey n) = fkey) (defined : n = 0 ∨ b.maxsizeHash ≠ 2)
    (crowded : ∀ d, d < n → t.keys (hkeyAt b fkey d) ≠ 0 ∧ t.keys (hkeyAt b fkey d) ≠ fkey)
    {fuel c : Nat} (started : c ≤ n) (enough : n - c < fuel) :
    hkeyLoop b cull fkey fuel { t with collisions := c } (hkeyAt b fkey c) =
      .ok ({ t with collisions := n }, hkeyAt b fkey n) := by
  induction fuel generalizing c with
  | zero => omega
  | succ fuel ih =>
      rw [hkeyLoop]
      rcases Nat.eq_or_lt_of_le started with rfl | short
      · rw [if_pos (by exact hit)]
      · obtain ⟨occupied, other⟩ := crowded c short
        have three : b.maxsizeHash ≠ 2 := defined.resolve_left (by omega)
        rw [if_neg (by exact other), if_neg (by exact occupied), cullIfFull,
          if_neg (by exact Nat.not_le.mpr below)]
        simp only [bind, Except.bind, if_neg three]
        exact ih (c := c + 1) short (by omega)

/-- The invariant of open addressing gives the lookup property. -/
theorem Placed.hashLookup {b : Build} {t : HashState} (placed : Placed (hkeyProbe b) 0 t.keys) :
    HashLookup b t := by
  have found : ∀ i, t.keys i ≠ 0 →
      ∃ c, hkeyAt b (t.keys i) c = i ∧ (c = 0 ∨ b.maxsizeHash ≠ 2) ∧
        ∀ d, d < c → t.keys (hkeyAt b (t.keys i) d) ≠ 0 ∧
          t.keys (hkeyAt b (t.keys i) d) ≠ t.keys i := by
    intro i occupied
    obtain ⟨c, here, crowded⟩ := placed i occupied
    have defined := defined_or_zero here crowded
    refine ⟨c, ?_, defined, ?_⟩
    · rcases defined with rfl | three
      · rwa [hkeyProbe_zero, ← hkeyAt_zero] at here
      · rwa [hkeyProbe_of_ne three] at here
    · intro d below
      have three : b.maxsizeHash ≠ 2 := defined.resolve_left (by omega)
      have met := crowded d below
      rwa [hkeyProbe_of_ne three] at met
  refine ⟨fun i j _ _ occupied same => placed.slot_unique occupied same,
    fun i _ occupied => found i occupied, ?_⟩
  intro i _ occupied below
  obtain ⟨c, here, defined, crowded⟩ := found i occupied
  refine ⟨c, fun cull fuel enough => ?_⟩
  have walk : hkeyLoop b cull (t.keys i) fuel { t with collisions := 0 }
      (hkeyAt b (t.keys i) 0) = .ok ({ t with collisions := c }, hkeyAt b (t.keys i) c) :=
    hkeyLoop_walk below (by rw [here]) defined crowded (Nat.zero_le c) (by omega)
  rw [hkeyAt_zero, here] at walk
  exact walk

/-! ## One probe, one cull, one run -/

/-- The probe of `fkey` resumes on `u` having skipped only other keys: the slots
of all collision numbers up to the counter are occupied, none by `fkey`. -/
def skipsOthers (b : Build) (u : HashState) (fkey : Nat) : Bool :=
  (List.range (u.collisions + 1)).all fun c =>
    u.keys (hkeyAt b fkey c) != 0 && u.keys (hkeyAt b fkey c) != fkey

theorem skipsOthers_crowded {b : Build} {u : HashState} {fkey : Nat}
    (skips : skipsOthers b u fkey = true) :
    Crowded (hkeyAt b) 0 u.keys fkey (u.collisions + 1) := by
  intro c below
  have met := List.all_eq_true.mp skips c (List.mem_range.mpr below)
  simpa using met

/-- One insertion keeps the table placed, if the culls it fires do. -/
theorem ipmHashHkey_placed {b : Build} {cull : HashState → Except Stop HashState}
    {inner : HashState → Bool}
    (cullPlaced : ∀ {t u}, cull t = .ok u → inner t = true → Placed (hkeyProbe b) 0 u.keys)
    {fuel : Nat} {t t' : HashState} {fkey hkey : Nat}
    (placed : Placed (hkeyProbe b) 0 t.keys)
    (resumes : hkeyResumes b (skipsOthers b) cull inner fuel t fkey = true)
    (ok : ipmHashHkey b cull fuel t fkey = .ok (t', hkey)) :
    Placed (hkeyProbe b) 0 t'.keys := by
  -- the probe has reached slot number `collisions` past other keys only
  let I : HashState → Nat → Prop := fun t h =>
    Placed (hkeyProbe b) 0 t.keys ∧ h = hkeyProbe b fkey t.collisions ∧
      Crowded (hkeyProbe b) 0 t.keys fkey t.collisions
  have start : I { t with collisions := 0 } (fkey % b.maxsizeHash) :=
    ⟨placed, (hkeyProbe_zero b fkey).symm, Crowded.zero⟩
  refine (hkeyLoop_rule (I := I) ?new ?collide ?culled start resumes ok).1.1
  case new =>
    rintro t h ⟨placed, rfl, crowded⟩ free -
    simp only [I, HashState.keys_newKey]
    exact ⟨placed.insert crowded free, rfl, crowded.update free⟩
  case collide =>
    rintro t h ⟨placed, rfl, crowded⟩ occupied other defined
    refine ⟨placed, ?_, crowded.succ occupied other⟩
    rw [hkeyProbe_of_ne defined]
  case culled =>
    rintro t h u - - - culled quiet skips defined
    have rebuilt := cullPlaced culled quiet
    refine ⟨rebuilt, ?_, ?_⟩
    · rw [hkeyProbe_of_ne defined]
    · rw [hkeyProbe_of_ne defined]
      exact skipsOthers_crowded skips

/-- `ipm_hash_cull` rebuilds a placed table, whatever the table it started from. -/
theorem ipmHashCull_placed {b : Build} {fuel : Nat} {t u : HashState}
    (culled : ipmHashCull b fuel t = .ok u)
    (resumes : cullResumes b (skipsOthers b) fuel t = true) :
    Placed (hkeyProbe b) 0 u.keys := by
  refine ipmHashCull_rule (I := fun v => Placed (hkeyProbe b) 0 v.keys) ?empty ?probe ?store
    culled resumes
  case empty =>
    intro start cleared
    have keys : start.keys = fun _ => 0 := by
      funext i
      rw [HashState.keys, cleared]
      rfl
    rw [keys]
    exact placed_empty
  case probe =>
    intro fuel v v' key hkey cullPlaced placed quiet probed
    exact ipmHashHkey_placed cullPlaced placed quiet probed
  case store =>
    intro v h ent placed key
    rwa [HashState.keys_setEnt_same _ _ _ key]

/-- One logged event keeps the table placed. -/
theorem wrapperLog_placed {b : Build} {fuel : Nat} {t t' : HashState} {e : MpiEvent}
    (placed : Placed (hkeyProbe b) 0 t.keys)
    (resumes : logResumes b (skipsOthers b) fuel t e = true)
    (ok : wrapperLog b fuel t e = .ok t') : Placed (hkeyProbe b) 0 t'.keys := by
  obtain ⟨u, hkey, probed, rfl⟩ := wrapperLog_eq_ok ok
  rw [HashState.keys_setEnt_same _ _ _ (HashEnt.key_log _ _)]
  refine ipmHashHkey_placed ?_ ?_ resumes probed
  · exact fun culled quiet => ipmHashCull_placed culled quiet
  · exact placed

/-- Lookup over runs.  In every run of logged events from the empty table whose
interrupted probes skip only other keys, every state reached has one slot for each
stored key and finds it. -/
theorem logRun_hashLookup (b : Build) (fuel : Nat) (events : List MpiEvent)
    (resumes : logRunResumes b (skipsOthers b) fuel .init events = true) (t : HashState)
    (reached : Runs.Reached (wrapperLog b fuel) .init events t) : HashLookup b t :=
  Placed.hashLookup
    (Runs.reached_invariant (I := fun v => Placed (hkeyProbe b) 0 v.keys) placed_empty
      (fun placed checked stepped => wrapperLog_placed placed checked stepped)
      (fun _ _ visit => Runs.checkVisits_visit resumes visit) reached)

/-! ## Runs -/

/-- A run whose third event culls in the middle of its probe. -/
theorem logRun_hashLookup_five :
    ∃ t, logRun .five 20 .init [sizeEvent 1 5, sizeEvent 2 7, sizeEvent 2 2] = .ok t ∧
      t.callMask 1 ≠ callMaskBprec ∧ HashLookup .five t := by
  have ran : Runs.okWith (logRun .five 20 .init [sizeEvent 1 5, sizeEvent 2 7, sizeEvent 2 2])
      (fun t => t.callMask 1 != callMaskBprec) = true := by decide +kernel
  obtain ⟨t, ok, culled⟩ := Runs.okWith_eq_true ran
  exact ⟨t, ok, by simpa using culled,
    logRun_hashLookup .five 20 _ (by decide +kernel) t (Runs.Reached.finish ok)⟩

/-- In the smallest shipped build, the sizes 0 to 279 fill the table to its limit,
the size 318 culls in the middle of its probe and goes on past a vacant slot of the
rebuilt table, and the same event again is stored in that vacant slot. -/
theorem xtiny_stored_twice :
    ∃ t, logRun .xtiny 400 .init
        ((List.range 280 ++ [318, 318]).map fun size => sizeEvent 1 size) = .ok t ∧
      t.keys 82 = 2 ^ 48 + 318 ∧ t.keys 92 = 2 ^ 48 + 318 ∧ ¬ HashLookup .xtiny t := by
  obtain ⟨s, filled, next⟩ := Runs.okWith_eq_true xtiny_full
  rw [Bool.and_eq_true] at next
  obtain ⟨t, last, twice⟩ := Runs.okWith_eq_true next.1
  have ok : logRun .xtiny 400 .init
      ((List.range 280 ++ [318, 318]).map fun size => sizeEvent 1 size) = .ok t := by
    have events : ((List.range 280 ++ [318, 318]).map fun size => sizeEvent 1 size) =
        ((List.range 280).map fun size : Nat => sizeEvent 1 size) ++
          [sizeEvent 1 318, sizeEvent 1 318] := by
      simp [← List.map_eq_flatMap]
    rw [events]
    exact Runs.run_trans filled last
  obtain ⟨low, high⟩ : t.keys 82 = 2 ^ 48 + 318 ∧ t.keys 92 = 2 ^ 48 + 318 := by
    simpa using twice
  refine ⟨t, ok, low, high, fun lookup => ?_⟩
  have same : 82 = 92 :=
    lookup.unique 82 92 (by decide) (by decide) (by rw [low]; decide) (low.trans high.symm)
  exact absurd same (by decide)

end Ipm
