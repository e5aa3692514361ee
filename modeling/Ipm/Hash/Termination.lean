import Mathlib.Algebra.BigOperators.Intervals
import Ipm.Lib.OpenAddressing
import Ipm.Key.Precision
import Ipm.Hash.Rules

/-!
# Termination of the hash insertion

`IPM_HASH_HKEY` has no bound of its own and calls `ipm_hash_cull`, which runs it for
every saved entry.  Between two culls the probe meets a vacant slot within one round
of the table, and every cull takes a bit of precision from a call or exits.

* `Counted`: `hash_nkey` is the number of occupied slots.
* `stepsLeft`: the culls that the precision of the calls still allows.
* `hkeyLoop_ends`, `ipmHashCull_ends`: with a bound of `hashBound b` on the recursion of
  the model the code ends, in a slot or in `exit`.
* `ipmHashHkey_terminates`: the statement for every state a run reaches.
-/

namespace Ipm

open OpenAddressing

/-! ## Ending -/

/-- The computation ends with a result or in `exit(1)`. -/
def Halts {α : Type} (x : Except Stop α) : Prop := ∀ stop, x = .error stop → stop = .exit

theorem Halts.ok {α : Type} (a : α) : Halts (.ok a : Except Stop α) := nofun

theorem Halts.exit {α : Type} : Halts (.error .exit : Except Stop α) := by
  intro stop same
  cases same
  rfl

theorem Halts.bind {α β : Type} {x : Except Stop α} {f : α → Except Stop β} (first : Halts x)
    (rest : ∀ a, x = .ok a → Halts (f a)) : Halts (x >>= f) := by
  cases x with
  | error e =>
      rw [first e rfl]
      exact Halts.exit
  | ok a => exact rest a rfl

/-- A run ends whose steps keep an invariant and end under it. -/
theorem Halts.run {S A : Type} {step : S → A → Except Stop S} {I : S → Prop}
    (ends : ∀ {s a}, I s → Halts (step s a)) (keep : ∀ {s a s'}, I s → step s a = .ok s' → I s')
    {s : S} (start : I s) (as : List A) : Halts (Runs.run step s as) := by
  induction as generalizing s with
  | nil => exact Halts.ok s
  | cons a as ih =>
      rw [Runs.run_cons]
      exact (ends start).bind fun s' stepped => ih (keep start stepped)

/-! ## The precision that is left -/

/-- The steps of `CALL_BUF_PRECISION_DOWN` until the precision of the word is used up. -/
def bitsLeft (word : Nat) : Nat := ∑ k ∈ Finset.range 48, if word * 2 ^ k % 2 ^ 48 = 0 then 0 else 1

theorem bitsLeft_le (word : Nat) : bitsLeft word ≤ 48 := by
  refine (Finset.sum_le_card_nsmul (Finset.range 48) _ 1 ?_).trans (by simp)
  intro k _
  split <;> omega

theorem and_callMaskBprec (word : Nat) : word &&& callMaskBprec = word % 2 ^ 48 :=
  Nat.and_two_pow_sub_one_eq_mod word 48

theorem callBufPrecisionDown_mod (word : Nat) :
    callBufPrecisionDown word % 2 ^ 48 = word * 2 % 2 ^ 48 := by
  rw [← and_callMaskBprec, callBufPrecisionDown_bprec, and_callMaskBprec, and_callMaskBprec, shl64,
    Nat.shiftLeft_eq]
  omega

/-- A step that leaves some precision has taken one of the steps left. -/
theorem bitsLeft_down {word : Nat} (kept : callBufPrecisionDown word &&& callMaskBprec ≠ 0) :
    bitsLeft (callBufPrecisionDown word) + 1 = bitsLeft word := by
  let left : Nat → Nat := fun k => if word * 2 ^ k % 2 ^ 48 = 0 then 0 else 1
  have shifted : bitsLeft (callBufPrecisionDown word) = ∑ k ∈ Finset.range 48, left (k + 1) := by
    refine Finset.sum_congr rfl fun k _ => ?_
    have same : callBufPrecisionDown word * 2 ^ k % 2 ^ 48 = word * 2 ^ (k + 1) % 2 ^ 48 := by
      rw [Nat.mul_mod, callBufPrecisionDown_mod, ← Nat.mul_mod, Nat.mul_assoc, ← Nat.pow_succ']
    rw [same]
  have first : left 0 = 1 := by
    rw [and_callMaskBprec, callBufPrecisionDown_mod] at kept
    refine if_neg ?_
    omega
  have last : left 48 = 0 := if_pos (Nat.mul_mod_left word (2 ^ 48))
  have front := Finset.sum_range_succ' left 48
  have back := Finset.sum_range_succ left 48
  rw [first] at front
  rw [last] at back
  change _ = ∑ k ∈ Finset.range 48, left k
  omega

/-- The culls the precision of the calls still allows. -/
def stepsLeft (b : Build) (t : HashState) : Nat :=
  ∑ call ∈ Finset.range (b.maxsizeCalls + 1), bitsLeft (t.callMask call)

theorem stepsLeft_le (b : Build) (t : HashState) : stepsLeft b t ≤ 48 * (b.maxsizeCalls + 1) := by
  refine (Finset.sum_le_card_nsmul _ _ 48 fun call _ => bitsLeft_le _).trans ?_
  rw [Finset.card_range, Nat.nsmul_eq_mul, Nat.mul_comm]

theorem mostDenseCall_le (b : Build) (t : HashState) : mostDenseCall b t ≤ b.maxsizeCalls := by
  have kept : ∀ (calls : List Nat) (best : Nat × Nat), (∀ i ∈ calls, i ≤ b.maxsizeCalls) →
      best.1 ≤ b.maxsizeCalls →
      (calls.foldl (fun best i => if t.callMcount 0 i > best.2 then (i, t.callMcount 0 i) else best)
        best).1 ≤ b.maxsizeCalls := by
    intro calls
    induction calls with
    | nil => exact fun best _ le => le
    | cons i calls ih =>
        intro best range le
        refine ih _ (fun j mem => range j (List.mem_cons_of_mem i mem)) ?_
        dsimp only
        split
        · exact range i List.mem_cons_self
        · exact le
  refine kept _ _ (fun i mem => ?_) (Nat.zero_le _)
  rw [List.mem_range'_1] at mem
  omega

/-- A cull exits or starts with an empty table and one step of precision less. -/
theorem cullStart_ends (b : Build) (t : HashState) : Halts (cullStart b t) := by
  rw [cullStart]
  split
  · exact Halts.exit
  · exact Halts.ok _

theorem cullStart_stepsLeft {b : Build} {t start : HashState} (h : cullStart b t = .ok start) :
    stepsLeft b start < stepsLeft b t := by
  have dense := mostDenseCall_le b (callDensity b t)
  have mask := (callDensity_frame b t).2.2
  simp only [cullStart, mask, Function.update_self] at h
  split at h
  · cases h
  rename_i kept
  cases h
  have inRange : mostDenseCall b (callDensity b t) ∈ Finset.range (b.maxsizeCalls + 1) :=
    Finset.mem_range.mpr (by omega)
  refine Finset.sum_lt_sum (fun call _ => ?_) ⟨_, inRange, ?_⟩
  · rcases eq_or_ne call (mostDenseCall b (callDensity b t)) with rfl | other
    · have := bitsLeft_down kept
      simp only [Function.update_self]
      omega
    · simp only [Function.update_of_ne other, le_refl]
  · have := bitsLeft_down kept
    simp only [Function.update_self]
    omega

/-! ## The number of keys -/

/-- `hash_nkey` is the number of occupied slots. -/
def Counted (b : Build) (t : HashState) : Prop :=
  t.hashNkey = occupied 0 t.keys b.maxsizeHash

theorem Counted.of_clear {b : Build} {t : HashState} (cleared : t.hash = fun _ => HashEnt.clear)
    (none : t.hashNkey = 0) : Counted b t := by
  have keys : t.keys = fun _ => 0 := by
    funext i
    rw [HashState.keys, cleared]
    rfl
  rw [Counted, none, keys, occupied_empty]

theorem Counted.newKey {b : Build} {t : HashState} (counted : Counted b t) {h fkey : Nat}
    (below : h < b.maxsizeHash) (free : (t.hash h).key = 0) (named : fkey ≠ 0) :
    Counted b (t.newKey h fkey) := by
  have insert := occupied_insert below (show t.keys h = 0 from free) named
  rw [Counted, HashState.keys_newKey, insert, ← counted]
  rfl

theorem Counted.setEnt {b : Build} {t : HashState} (counted : Counted b t) {h : Nat}
    {ent : HashEnt} (key : ent.key = (t.hash h).key) : Counted b (t.setEnt h ent) := by
  rw [Counted, t.keys_setEnt_same h ent key]
  exact counted

/-! ## What a probe and a cull leave -/

/-- A cull leaves a counted table with fewer culls to go. -/
def CullSteps (b : Build) (cull : HashState → Except Stop HashState) : Prop :=
  ∀ t u, cull t = .ok u → Counted b u ∧ stepsLeft b u < stepsLeft b t

theorem hkeyAt_lt (b : Build) (fkey c : Nat) : hkeyAt b fkey c < b.maxsizeHash :=
  Nat.mod_lt _ b.maxsizeHash_pos

/-- A probe that ends does so at a slot of the table that holds the key. -/
theorem ipmHashHkey_slot {b : Build} {cull : HashState → Except Stop HashState}
    (steps : CullSteps b cull) {fuel : Nat} {t t' : HashState} {fkey hkey : Nat}
    (counted : Counted b t) (ok : ipmHashHkey b cull fuel t fkey = .ok (t', hkey)) :
    hkey < b.maxsizeHash ∧ (t'.hash hkey).key = fkey ∧ Counted b t' ∧
      stepsLeft b t' ≤ stepsLeft b t := by
  let I : HashState → Nat → Prop := fun u h =>
    h < b.maxsizeHash ∧ Counted b u ∧ stepsLeft b u ≤ stepsLeft b t
  have start : I { t with collisions := 0 } (fkey % b.maxsizeHash) :=
    ⟨Nat.mod_lt _ b.maxsizeHash_pos, counted, le_rfl⟩
  have ended : I t' hkey ∧ (t'.hash hkey).key = fkey := by
    refine ipmHashHkey_rule (I := I) ?new ?collide ?culled start ok
    case new =>
      intro u h inv free named
      exact ⟨inv.1, inv.2.1.newKey inv.1 free named, inv.2.2⟩
    case collide =>
      intro u h inv _ _
      exact ⟨hkeyAt_lt b fkey _, inv.2⟩
    case culled =>
      intro u h v inv _ _ ran
      obtain ⟨rebuilt, fewer⟩ := steps u v ran
      exact ⟨hkeyAt_lt b fkey _, rebuilt, fewer.le.trans inv.2.2⟩
  exact ⟨ended.1.1, ended.2, ended.1.2⟩

/-- Putting an entry back keeps the count and uses no precision of its own. -/
theorem reinsert_counted {b : Build} {cull : HashState → Except Stop HashState}
    (steps : CullSteps b cull) {fuel : Nat} {t t' : HashState} {saved : HashEnt}
    (counted : Counted b t) (ok : reinsert b cull fuel t saved = .ok t') :
    Counted b t' ∧ stepsLeft b t' ≤ stepsLeft b t := by
  rcases reinsert_cases ok with ⟨-, rfl⟩ | ⟨-, u, hkey, probed, rfl⟩
  · exact ⟨counted, le_rfl⟩
  · obtain ⟨-, -, counted', left⟩ := ipmHashHkey_slot steps counted probed
    exact ⟨counted'.setEnt (HashEnt.key_merge _ _), left⟩

/-- Every cull that returns has taken a step of precision. -/
theorem ipmHashCull_steps (b : Build) (fuel : Nat) : CullSteps b (ipmHashCull b fuel) := by
  induction fuel with
  | zero => exact nofun
  | succ fuel ih =>
      intro t u culled
      obtain ⟨start, started, rebuilt⟩ := ipmHashCull_eq_ok culled
      have fewer := cullStart_stepsLeft started
      obtain ⟨cleared, none, -⟩ := cullStart_eq_ok started
      have kept : Counted b u ∧ stepsLeft b u ≤ stepsLeft b start := by
        refine Runs.run_keeps (I := fun v => Counted b v ∧ stepsLeft b v ≤ stepsLeft b start)
          ⟨Counted.of_clear cleared none, le_rfl⟩ ?_ rebuilt
        intro v saved v' inv stepped
        obtain ⟨counted, left⟩ := reinsert_counted ih inv.1 stepped
        exact ⟨counted, left.trans inv.2⟩
      exact ⟨kept.1, kept.2.trans_lt fewer⟩

/-! ## The probe loop ends -/

section Loop

variable {b : Build} {cull : HashState → Except Stop HashState} {fkey fuel : Nat}

/-- At its key or at a vacant slot the probe ends. -/
theorem hkeyLoop_found {t : HashState} {h : Nat}
    (found : (t.hash h).key = fkey ∨ (t.hash h).key = 0) (enough : 2 ≤ fuel) :
    Halts (hkeyLoop b cull fkey fuel t h) := by
  obtain ⟨fuel, rfl⟩ := Nat.exists_eq_add_of_le' enough
  rw [hkeyLoop]
  split
  · exact Halts.ok _
  rename_i other
  have vacant := found.resolve_left other
  have stored : ((t.newKey h fkey).hash h).key = fkey := by
    simp [HashState.newKey, HashState.setEnt, HashEnt.new]
  rw [if_pos vacant, hkeyLoop, if_pos stored]
  exact Halts.ok _

/-- Below the limit the probe ends when a vacant slot lies ahead. -/
theorem hkeyLoop_ahead (defined : b.maxsizeHash ≠ 2) {d : Nat} :
    ∀ {t : HashState} {h fuel : Nat}, t.hashNkey < b.maxsizeHashlimit →
      (t.hash (hkeyAt b fkey (t.collisions + 1 + d))).key = 0 → d + 3 ≤ fuel →
        Halts (hkeyLoop b cull fkey fuel t h) := by
  induction d with
  | zero =>
      intro t h fuel below ahead enough
      by_cases found : (t.hash h).key = fkey ∨ (t.hash h).key = 0
      · exact hkeyLoop_found found (by omega)
      obtain ⟨other, occupied⟩ := not_or.mp found
      obtain ⟨fuel, rfl⟩ := Nat.exists_eq_add_of_le' (Nat.one_le_of_lt enough)
      rw [hkeyLoop, if_neg other, if_neg occupied, cullIfFull, if_neg (Nat.not_le.mpr below)]
      refine (Halts.ok t).bind fun u same => ?_
      cases same
      rw [if_neg defined]
      exact hkeyLoop_found (.inr ahead) (by omega)
  | succ d ih =>
      intro t h fuel below ahead enough
      by_cases found : (t.hash h).key = fkey ∨ (t.hash h).key = 0
      · exact hkeyLoop_found found (by omega)
      obtain ⟨other, occupied⟩ := not_or.mp found
      obtain ⟨fuel, rfl⟩ := Nat.exists_eq_add_of_le' (Nat.one_le_of_lt enough)
      rw [hkeyLoop, if_neg other, if_neg occupied, cullIfFull, if_neg (Nat.not_le.mpr below)]
      refine (Halts.ok t).bind fun u same => ?_
      cases same
      rw [if_neg defined]
      refine ih below ?_ (by omega)
      change (t.hash (hkeyAt b fkey (t.collisions + 1 + 1 + d))).key = 0
      rwa [show t.collisions + 1 + 1 + d = t.collisions + 1 + (d + 1) by omega]

/-- A counted table below the limit has a vacant slot, and one round of probes meets it. -/
theorem exists_ahead (defined : b.maxsizeHash ≠ 2) {t : HashState} (counted : Counted b t)
    (below : t.hashNkey < b.maxsizeHashlimit) (fkey : Nat) :
    ∃ d < b.maxsizeHash, (t.hash (hkeyAt b fkey (t.collisions + 1 + d))).key = 0 := by
  have room : occupied 0 t.keys b.maxsizeHash < b.maxsizeHash := by
    rw [← counted]
    exact below.trans b.limit_lt
  obtain ⟨slot, inTable, free⟩ := exists_vacant room
  obtain ⟨d, short, hit⟩ := exists_doubleHash (stride_coprime b.prime defined fkey)
    (fkey % b.maxsizeHash) (t.collisions + 1) inTable
  exact ⟨d, short, by rw [show hkeyAt b fkey _ = slot from hit]; exact free⟩

/-- The probe loop ends, by induction on the culls that are left: one round of the table
meets a vacant slot unless the table is at its limit, and then the first collision culls. -/
theorem hkeyLoop_ends (defined : b.maxsizeHash ≠ 2) (steps : CullSteps b cull) {t : HashState}
    {h : Nat} (counted : Counted b t)
    (cullEnds : ∀ u, Counted b u → stepsLeft b u ≤ stepsLeft b t → Halts (cull u))
    (enough : (b.maxsizeHash + 3) * (stepsLeft b t + 1) ≤ fuel) :
    Halts (hkeyLoop b cull fkey fuel t h) := by
  induction left : stepsLeft b t using Nat.strong_induction_on generalizing t h fuel with
  | _ n ih =>
      rw [left, Nat.mul_add, Nat.mul_one] at enough
      by_cases below : t.hashNkey < b.maxsizeHashlimit
      · obtain ⟨d, short, ahead⟩ := exists_ahead defined counted below fkey
        exact hkeyLoop_ahead defined below ahead (by omega)
      by_cases found : (t.hash h).key = fkey ∨ (t.hash h).key = 0
      · exact hkeyLoop_found found (by omega)
      obtain ⟨other, occupied⟩ := not_or.mp found
      obtain ⟨fuel, rfl⟩ : ∃ k, fuel = k + 1 := Nat.exists_eq_add_of_le' (by omega)
      rw [hkeyLoop, if_neg other, if_neg occupied, cullIfFull, if_pos (Nat.not_lt.mp below)]
      refine (cullEnds t counted le_rfl).bind fun u culled => ?_
      obtain ⟨rebuilt, fewer⟩ := steps t u culled
      rw [if_neg defined]
      have room : (b.maxsizeHash + 3) * (stepsLeft b u + 1) ≤ (b.maxsizeHash + 3) * n :=
        Nat.mul_le_mul_left _ (by omega)
      refine ih (stepsLeft b u) (by omega) (t := u.collide) rebuilt ?_ ?_ rfl
      · intro v countedV leV
        exact cullEnds v countedV (leV.trans fewer.le)
      · change (b.maxsizeHash + 3) * (stepsLeft b u + 1) ≤ fuel
        omega

theorem ipmHashHkey_ends (defined : b.maxsizeHash ≠ 2) (steps : CullSteps b cull) {t : HashState}
    (counted : Counted b t)
    (cullEnds : ∀ u, Counted b u → stepsLeft b u ≤ stepsLeft b t → Halts (cull u))
    (enough : (b.maxsizeHash + 3) * (stepsLeft b t + 1) ≤ fuel) :
    Halts (ipmHashHkey b cull fuel t fkey) :=
  hkeyLoop_ends (t := { t with collisions := 0 }) defined steps counted cullEnds enough

end Loop

/-- A cull ends, by induction on the culls that are left: the nested ones start with less
precision. -/
theorem ipmHashCull_ends {b : Build} (defined : b.maxsizeHash ≠ 2) {fuel : Nat} {t : HashState}
    (enough : (b.maxsizeHash + 3) * stepsLeft b t + 1 ≤ fuel) : Halts (ipmHashCull b fuel t) := by
  induction fuel generalizing t with
  | zero => omega
  | succ fuel ih =>
      refine (cullStart_ends b t).bind fun start started => ?_
      have fewer := cullStart_stepsLeft started
      obtain ⟨cleared, none, -⟩ := cullStart_eq_ok started
      have room : (b.maxsizeHash + 3) * (stepsLeft b start + 1) ≤
          (b.maxsizeHash + 3) * stepsLeft b t := Nat.mul_le_mul_left _ fewer
      have steps := ipmHashCull_steps b fuel
      refine Halts.run (I := fun v => Counted b v ∧ stepsLeft b v ≤ stepsLeft b start) ?ends ?keep
        ⟨Counted.of_clear cleared none, le_rfl⟩ (savedTable b t)
      case ends =>
        intro v saved inv
        rw [reinsert]
        split
        · exact Halts.ok v
        refine Halts.bind ?_ fun r _ => Halts.ok _
        have roomV : (b.maxsizeHash + 3) * (stepsLeft b v + 1) ≤
            (b.maxsizeHash + 3) * (stepsLeft b start + 1) := Nat.mul_le_mul_left _ (by omega)
        refine ipmHashHkey_ends defined steps inv.1 (fun w _ leW => ih ?_) (by omega)
        have roomW : (b.maxsizeHash + 3) * (stepsLeft b w + 1) ≤
            (b.maxsizeHash + 3) * (stepsLeft b start + 1) :=
          Nat.mul_le_mul_left _ (Nat.succ_le_succ (leW.trans inv.2))
        rw [Nat.mul_add, Nat.mul_one] at roomW
        omega
      case keep =>
        intro v saved v' inv stepped
        obtain ⟨counted, left⟩ := reinsert_counted steps inv.1 stepped
        exact ⟨counted, left.trans inv.2⟩

/-! ## Runs -/

/-- The recursion bound that no insertion exceeds. -/
def hashBound (b : Build) : Nat := (b.maxsizeHash + 3) * (48 * (b.maxsizeCalls + 1) + 1)

/-- An insertion ends in `exit(1)` or at a slot of the table that holds its key. -/
def Inserts (b : Build) (fkey : Nat) (x : Except Stop (HashState × Nat)) : Prop :=
  x = .error .exit ∨ ∃ t h, x = .ok (t, h) ∧ h < b.maxsizeHash ∧ (t.hash h).key = fkey

theorem wrapperLog_counted {b : Build} {fuel : Nat} {t t' : HashState} {e : MpiEvent}
    (counted : Counted b t) (ok : wrapperLog b fuel t e = .ok t') : Counted b t' := by
  obtain ⟨u, hkey, probed, rfl⟩ := wrapperLog_eq_ok ok
  have logged : Counted b { t with hashNlog := t.hashNlog + 1 } := counted
  have kept := ipmHashHkey_slot (ipmHashCull_steps b fuel) logged probed
  exact kept.2.2.1.setEnt (HashEnt.key_log _ e)

theorem logRun_counted {b : Build} {fuel : Nat} {events : List MpiEvent} {t : HashState}
    (reached : Runs.Reached (wrapperLog b fuel) .init events t) : Counted b t :=
  Runs.reached_keeps (I := Counted b) (Counted.of_clear rfl rfl)
    (fun counted stepped => wrapperLog_counted counted stepped) reached

section Bound

variable {b : Build} (defined : b.maxsizeHash ≠ 2) {fuel : Nat} (enough : hashBound b ≤ fuel)
include defined enough

theorem ipmHashCull_ends_bound (t : HashState) : Halts (ipmHashCull b fuel t) := by
  refine ipmHashCull_ends defined ?_
  have left : (b.maxsizeHash + 3) * (stepsLeft b t + 1) ≤ fuel :=
    (Nat.mul_le_mul_left _ (Nat.succ_le_succ (stepsLeft_le b t))).trans enough
  rw [Nat.mul_add, Nat.mul_one] at left
  omega

theorem ipmHashHkey_ends_bound {t : HashState} (counted : Counted b t) (fkey : Nat) :
    Halts (ipmHashHkey b (ipmHashCull b fuel) fuel t fkey) :=
  ipmHashHkey_ends defined (ipmHashCull_steps b fuel) counted
    (fun u _ _ => ipmHashCull_ends_bound defined enough u)
    ((Nat.mul_le_mul_left _ (Nat.succ_le_succ (stepsLeft_le b t))).trans enough)

/-- Every run of logged events ends, in a state or in `exit(1)`. -/
theorem logRun_ends (events : List MpiEvent) : Halts (logRun b fuel .init events) := by
  refine Halts.run (I := Counted b) ?ends ?keep (Counted.of_clear rfl rfl) events
  case ends =>
    intro t e counted
    have logged : Counted b { t with hashNlog := t.hashNlog + 1 } := counted
    exact (ipmHashHkey_ends_bound defined enough logged _).bind fun r _ => Halts.ok _
  case keep =>
    intro t e t' counted stepped
    exact wrapperLog_counted counted stepped

end Bound

/-- Insertion terminates, with a prime size other than 2, in every state a run reaches and in
every other one whose `hash_nkey` is its number of keys, under every mask and for every key. -/
theorem ipmHashHkey_terminates {b : Build} (defined : b.maxsizeHash ≠ 2) :
    (∀ {fuel : Nat} {events : List MpiEvent} {t : HashState},
      Runs.Reached (wrapperLog b fuel) .init events t → Counted b t) ∧
    (∀ (fkey start : Nat) {slot : Nat}, slot < b.maxsizeHash →
      ∃ d < b.maxsizeHash, hkeyAt b fkey (start + d) = slot) ∧
    ∀ {t : HashState}, Counted b t → ∀ (callMask : Nat → Nat) (fkey : Nat) {fuel : Nat},
      hashBound b ≤ fuel →
        Inserts b fkey
          (ipmHashHkey b (ipmHashCull b fuel) fuel { t with callMask := callMask } fkey) ∧
        Halts (ipmHashCull b fuel { t with callMask := callMask }) := by
  refine ⟨logRun_counted, ?_, ?_⟩
  · intro fkey start slot below
    exact exists_doubleHash (stride_coprime b.prime defined fkey) _ start below
  · intro t counted callMask fkey fuel enough
    have counted' : Counted b { t with callMask := callMask } := counted
    refine ⟨?_, ipmHashCull_ends_bound defined enough _⟩
    have ends := ipmHashHkey_ends_bound defined enough counted' fkey
    cases result : ipmHashHkey b (ipmHashCull b fuel) fuel { t with callMask := callMask } fkey with
    | error stop => exact .inl (by rw [ends stop result])
    | ok r =>
        obtain ⟨below, found, -⟩ := ipmHashHkey_slot (ipmHashCull_steps b fuel) counted' result
        exact .inr ⟨r.1, r.2, rfl, below, found⟩

/-- Two events fill the five slots to their limit of two keys; the third key, that of an event of
call 2 and size 2, collides, and its insertion culls: call 1 is left with less precision. -/
theorem ipmHashHkey_terminates_five :
    ∃ t, Runs.Reached (wrapperLog .five 20) .init [sizeEvent 1 5, sizeEvent 2 7] t ∧
      Build.five.maxsizeHashlimit ≤ t.hashNkey ∧
      Inserts .five (2 * 2 ^ 48 + 2)
        (ipmHashHkey .five (ipmHashCull .five (hashBound .five)) (hashBound .five) t
          (2 * 2 ^ 48 + 2)) ∧
      Runs.okWith
        (ipmHashHkey .five (ipmHashCull .five (hashBound .five)) (hashBound .five) t
          (2 * 2 ^ 48 + 2))
        (fun r => r.1.callMask 1 != t.callMask 1) = true := by
  have runs : Runs.okWith (logRun .five 20 .init [sizeEvent 1 5, sizeEvent 2 7])
      (fun t => Build.five.maxsizeHashlimit ≤ t.hashNkey &&
        Runs.okWith
          (ipmHashHkey .five (ipmHashCull .five (hashBound .five)) (hashBound .five) t
            (2 * 2 ^ 48 + 2))
          (fun r => r.1.callMask 1 != t.callMask 1)) = true := by
    decide +kernel
  obtain ⟨t, logged, rest⟩ := Runs.okWith_eq_true runs
  rw [Bool.and_eq_true, decide_eq_true_iff] at rest
  have terminates := ipmHashHkey_terminates (b := .five) (by decide)
  have reached := Runs.Reached.finish logged
  refine ⟨t, reached, rest.1, ?_, rest.2⟩
  exact (terminates.2.2 (terminates.1 reached) t.callMask (2 * 2 ^ 48 + 2) le_rfl).1

/-- Two slots and three calls. -/
def Build.two : Build where
  maxsizeHash := 2
  maxsizeHashlimit := 1
  maxsizeCalls := 3
  prime := Nat.prime_two
  limit_lt := by decide
  calls_le := by decide

/-- With two slots the first collision culls and then divides by `MAXSIZE_HASH - 2`. -/
theorem ipmHashHkey_two :
    ∃ t, Runs.Reached (wrapperLog .two 9) .init [sizeEvent 1 0] t ∧ ∀ fuel,
      ¬ Inserts .two (2 * 2 ^ 48)
        (ipmHashHkey .two (ipmHashCull .two (fuel + 9)) (fuel + 9) t (2 * 2 ^ 48)) := by
  obtain ⟨t, logged, divides⟩ : ∃ t, Runs.run (wrapperLog .two 9) .init [sizeEvent 1 0] = .ok t ∧
      ∀ fuel, ipmHashHkey .two (ipmHashCull .two (fuel + 9)) (fuel + 9) t (2 * 2 ^ 48) =
        .error .divByZero := ⟨_, rfl, fun _ => rfl⟩
  refine ⟨t, Runs.Reached.finish logged, fun fuel inserts => ?_⟩
  rw [divides fuel] at inserts
  rcases inserts with exits | stored
  · cases exits
  · obtain ⟨_, _, stored, -⟩ := stored
    cases stored

end Ipm
