import Ipm.Hash.Rules

/-!
# Precision of the stored sizes

`ipm_hash_cull` lowers the size precision of a call and rebuilds every saved key
under the new `call_mask`.

* `Canonical`: every stored key is the key of its own decoded fields under the
  current mask.
* `ipmHashCull_canonical`: the rebuilt table is canonical, whatever the table
  before.
* `logRun_canonical`: a run keeps its table canonical when no interrupted probe
  goes on with a key the cull has taken precision from.
-/

namespace Ipm

/-- Every stored key is the key `IPM_MPI_KEY` builds from its own fields now. -/
def Canonical (t : HashState) : Prop :=
  ∀ i, t.keys i ≠ 0 → rekey t.callMask (t.keys i) = t.keys i

/-- The events of a run: the call, rank and size fit the key layout.  Of the region
only the low eight bits reach the key. -/
structure MpiEvent.InLayout (e : MpiEvent) : Prop where
  fields : FieldsOk (e.region % 256) e.call e.rank e.bytes
  named : 1 ≤ e.call

instance (e : MpiEvent) : Decidable e.InLayout :=
  decidable_of_iff (FieldsOk (e.region % 256) e.call e.rank e.bytes ∧ 1 ≤ e.call)
    ⟨fun ⟨fields, named⟩ => ⟨fields, named⟩, fun ⟨fields, named⟩ => ⟨fields, named⟩⟩

/-- An event's key is canonical under the mask it is built with. -/
theorem MpiEvent.InLayout.rekey_key {e : MpiEvent} (ok : e.InLayout) (callMask : Nat → Nat) :
    rekey callMask (e.key callMask) = e.key callMask := by
  rw [MpiEvent.key, ipmMpiKey_emod]
  exact rekey_ipmMpiKey ok.fields

/-- The key of an interrupted probe has kept its precision. -/
def keepsPrecision (u : HashState) (fkey : Nat) : Bool := rekey u.callMask fkey == fkey

theorem Canonical.newKey {t : HashState} (canonical : Canonical t) {fkey : Nat}
    (settled : rekey t.callMask fkey = fkey) (h : Nat) : Canonical (t.newKey h fkey) := by
  intro i occupied
  rw [HashState.keys_newKey] at occupied ⊢
  by_cases same : i = h
  · rw [same, Function.update_self]
    exact settled
  · rw [Function.update_of_ne same] at occupied ⊢
    exact canonical i occupied

/-- Storing an entry that keeps its key changes no key. -/
theorem Canonical.setEnt {t : HashState} (canonical : Canonical t) {h : Nat} {ent : HashEnt}
    (key : ent.key = (t.hash h).key) : Canonical (t.setEnt h ent) := by
  intro i
  rw [t.keys_setEnt_same h ent key]
  exact canonical i

section Runs

variable {b : Build}

/-- A probe for a canonical key keeps the table canonical, if its culls do. -/
theorem ipmHashHkey_canonical {cull : HashState → Except Stop HashState}
    {inner : HashState → Bool}
    (cullCanonical : ∀ {t u}, cull t = .ok u → inner t = true → Canonical u)
    {fuel : Nat} {t t' : HashState} {fkey hkey : Nat} (canonical : Canonical t)
    (settled : rekey t.callMask fkey = fkey)
    (resumes : hkeyResumes b keepsPrecision cull inner fuel t fkey = true)
    (ok : ipmHashHkey b cull fuel t fkey = .ok (t', hkey)) : Canonical t' := by
  let I : HashState → Nat → Prop := fun t _ => Canonical t ∧ rekey t.callMask fkey = fkey
  have start : I { t with collisions := 0 } (fkey % b.maxsizeHash) := ⟨canonical, settled⟩
  refine (hkeyLoop_rule (I := I) ?new ?collide ?culled start resumes ok).1.1
  case new =>
    rintro t h ⟨canonical, settled⟩ - -
    exact ⟨canonical.newKey settled h, settled⟩
  case collide =>
    intro t h inv _ _ _
    exact inv
  case culled =>
    intro t h u _ _ _ culled quiet keeps _
    have rebuilt := cullCanonical culled quiet
    exact ⟨rebuilt, beq_iff_eq.mp keeps⟩

theorem ipmHashCull_canonical {fuel : Nat} {t u : HashState}
    (culled : ipmHashCull b fuel t = .ok u)
    (resumes : cullResumes b keepsPrecision fuel t = true) : Canonical u := by
  refine ipmHashCull_rule (I := Canonical) ?empty ?probe ?store culled resumes
  case empty =>
    intro start cleared i occupied
    refine absurd ?_ occupied
    rw [HashState.keys, cleared]
    rfl
  case probe =>
    intro fuel v v' key hkey cullCanonical canonical quiet probed
    have settled := rekey_rekey v.callMask key
    exact ipmHashHkey_canonical cullCanonical canonical settled quiet probed
  case store =>
    intro v h ent canonical key
    exact canonical.setEnt key

theorem wrapperLog_canonical {fuel : Nat} {t t' : HashState} {e : MpiEvent} (layout : e.InLayout)
    (canonical : Canonical t) (resumes : logResumes b keepsPrecision fuel t e = true)
    (ok : wrapperLog b fuel t e = .ok t') : Canonical t' := by
  obtain ⟨u, hkey, probed, rfl⟩ := wrapperLog_eq_ok ok
  have kept : Canonical u := by
    refine ipmHashHkey_canonical ?_ ?_ ?_ resumes probed
    · exact fun culled quiet => ipmHashCull_canonical culled quiet
    · exact canonical
    · exact layout.rekey_key t.callMask
  exact kept.setEnt (HashEnt.key_log _ e)

end Runs

/-- Canonical form over runs.  In every run of events that fit the key layout
and whose interrupted probes go on with keys that have kept their precision, every
state reached is canonical. -/
theorem logRun_canonical (b : Build) (fuel : Nat) (events : List MpiEvent)
    (layout : ∀ e ∈ events, e.InLayout)
    (resumes : logRunResumes b keepsPrecision fuel .init events = true) (t : HashState)
    (reached : Runs.Reached (wrapperLog b fuel) .init events t) : Canonical t := by
  refine Runs.reached_invariant (I := Canonical)
    (G := fun v e => e ∈ events ∧ logResumes b keepsPrecision fuel v e = true) ?init ?keep
    ?guarded reached
  case init => exact fun i occupied => absurd rfl occupied
  case keep =>
    rintro v e v' canonical ⟨logged, quiet⟩ stepped
    exact wrapperLog_canonical (layout e logged) canonical quiet stepped
  case guarded =>
    intro v e visit
    exact ⟨visit.mem, Runs.checkVisits_visit resumes visit⟩

/-- The third event's key keeps its precision through the cull in its own probe. -/
theorem logRun_canonical_five :
    ∃ t, logRun .five 20 .init [sizeEvent 1 5, sizeEvent 2 7, sizeEvent 2 2] = .ok t ∧
      t.callMask 1 ≠ callMaskBprec ∧ Canonical t := by
  have ran : Runs.okWith (logRun .five 20 .init [sizeEvent 1 5, sizeEvent 2 7, sizeEvent 2 2])
      (fun t => t.callMask 1 != callMaskBprec) = true := by decide +kernel
  obtain ⟨t, ok, culled⟩ := Runs.okWith_eq_true ran
  exact ⟨t, ok, by simpa using culled,
    logRun_canonical .five 20 _ (by decide +kernel) (by decide +kernel) t
      (Runs.Reached.finish ok)⟩

/-- In the smallest shipped build, the sizes 0 to 279 of one call fill the table and
the odd size 319 is stored after the cull that took its last bit from the mask. -/
theorem xtiny_not_canonical :
    ∃ t, logRun .xtiny 400 .init
        ((List.range 280 ++ [319]).map fun size => sizeEvent 1 size) = .ok t ∧
      t.keys 48 = 2 ^ 48 + 319 ∧ rekey t.callMask (t.keys 48) = 2 ^ 48 + 318 ∧
      ¬ Canonical t := by
  obtain ⟨s, filled, next⟩ := Runs.okWith_eq_true xtiny_full
  rw [Bool.and_eq_true] at next
  obtain ⟨t, last, stale⟩ := Runs.okWith_eq_true next.2
  have ok : logRun .xtiny 400 .init
      ((List.range 280 ++ [319]).map fun size => sizeEvent 1 size) = .ok t := by
    have events : ((List.range 280 ++ [319]).map fun size => sizeEvent 1 size) =
        ((List.range 280).map fun size : Nat => sizeEvent 1 size) ++ [sizeEvent 1 319] := by
      simp [← List.map_eq_flatMap]
    rw [events]
    exact Runs.run_trans filled last
  obtain ⟨stored, rebuilt⟩ :
      t.keys 48 = 2 ^ 48 + 319 ∧ rekey t.callMask (t.keys 48) = 2 ^ 48 + 318 := by
    simpa using stale
  refine ⟨t, ok, stored, rebuilt, fun canonical => ?_⟩
  have same := canonical 48 (by rw [stored]; decide)
  rw [rebuilt, stored] at same
  exact absurd same (by decide)

end Ipm
