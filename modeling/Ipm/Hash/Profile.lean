import Mathlib.Algebra.Ring.Rat
import Ipm.Lib.Shares
import Ipm.Hash.Rules

/-!
# Conservation of the profile

Re-hashing neither loses nor invents an event.  The entries of a table are read as
a sharing out of the logged events over the slots (`Profile`): the entry of a slot
summarizes the events of the slot's share, and all of them have the region, the
call and the partner rank of the slot's key.

* `HashEnt.Summarizes.merge`, `HashEnt.Summarizes.log`: the two updates of an entry.
* `ipmHashHkey_profile`: a probe, with every cull it fires, only moves shares.
* `ipmHashCull_recorded`: so does a cull, nested culls included.
* `logRun_recorded`: after a run the shares are the logged events.
* `logRun_profile`: the sums and the extremes of the entries, by target.
-/

namespace Ipm

/-! ## What an entry summarizes -/

/-- What an event is attributed to. -/
def MpiEvent.target (e : MpiEvent) : Nat × Nat × Int := (e.region.toNat, e.call, e.rank)

/-- The events of a run: fields within the bounds of the key layout, a call, a
duration up to the initial `t_min`, and no duration adjustment. -/
structure MpiEvent.InBounds (e : MpiEvent) : Prop
    extends FieldsOk e.region e.call e.rank e.bytes where
  named : 1 ≤ e.call
  wall_nonneg : 0 ≤ e.wall
  wall_le : e.wall ≤ 10 ^ 15
  adjusted : e.ret = 0

instance (e : MpiEvent) : Decidable e.InBounds :=
  decidable_of_iff
    (FieldsOk e.region e.call e.rank e.bytes ∧ 1 ≤ e.call ∧ 0 ≤ e.wall ∧ e.wall ≤ 10 ^ 15 ∧
      e.ret = 0)
    ⟨fun ⟨h₁, h₂, h₃, h₄, h₅⟩ => ⟨h₁, h₂, h₃, h₄, h₅⟩,
      fun ⟨h₁, h₂, h₃, h₄, h₅⟩ => ⟨h₁, h₂, h₃, h₄, h₅⟩⟩

/-- The durations of some events. -/
def durations (s : Multiset MpiEvent) : Set Rat := {x | ∃ e ∈ s, e.wall = x}

theorem durations_add (s s' : Multiset MpiEvent) :
    durations (s + s') = durations s ∪ durations s' := by
  ext x
  simp only [durations, Multiset.mem_add, Set.mem_ofPred_eq, Set.mem_union]
  constructor
  · intro given
    rcases given with ⟨e, mem | mem, wall⟩
    · exact Or.inl ⟨e, mem, wall⟩
    · exact Or.inr ⟨e, mem, wall⟩
  · intro given
    rcases given with ⟨e, mem, wall⟩ | ⟨e, mem, wall⟩
    · exact ⟨e, Or.inl mem, wall⟩
    · exact ⟨e, Or.inr mem, wall⟩

@[simp] theorem durations_zero : durations 0 = ∅ := by
  ext x
  simp [durations]

@[simp] theorem durations_singleton (e : MpiEvent) : durations {e} = {e.wall} := by
  ext x
  simp [durations, eq_comm]

/-- The entry of a key that events `s` were logged under. -/
structure HashEnt.Summarizes (ent : HashEnt) (s : Multiset MpiEvent) : Prop where
  count : ent.count = s.card
  tTot : ent.tTot = (s.map MpiEvent.wall).sum
  tMax : IsGreatest (insert 0 (durations s)) ent.tMax
  tMin : IsLeast (insert (10 ^ 15) (durations s)) ent.tMin

theorem HashEnt.Summarizes.new (fkey : Nat) : (HashEnt.new fkey).Summarizes 0 where
  count := rfl
  tTot := rfl
  tMax := by simp [HashEnt.new]
  tMin := by simp [HashEnt.new]

theorem HashEnt.Summarizes.merge {ent saved : HashEnt} {s s' : Multiset MpiEvent}
    (here : ent.Summarizes s) (there : saved.Summarizes s') :
    (ent.merge saved).Summarizes (s + s') where
  count := by rw [Multiset.card_add, ← here.count, ← there.count]; rfl
  tTot := by rw [Multiset.map_add, Multiset.sum_add, ← here.tTot, ← there.tTot]; rfl
  tMax := by
    rw [durations_add, Set.insert_union_distrib]
    have greatest := here.tMax.union there.tMax
    rwa [max_def_lt] at greatest
  tMin := by
    rw [durations_add, Set.insert_union_distrib, Set.union_comm]
    have least := there.tMin.union here.tMin
    rwa [min_def_lt] at least

/-- Logging an event without adjustment adds it to the summary. -/
theorem HashEnt.Summarizes.log {ent : HashEnt} {s : Multiset MpiEvent} {e : MpiEvent}
    (here : ent.Summarizes s) (adjusted : e.ret = 0) : (ent.log e).Summarizes (s + {e}) where
  count := by
    rw [Multiset.card_add, ← here.count, Multiset.card_singleton, HashEnt.log, if_pos adjusted]
    rfl
  tTot := by
    rw [Multiset.map_add, Multiset.sum_add, ← here.tTot, Multiset.map_singleton,
      Multiset.sum_singleton, HashEnt.log, if_pos adjusted]
    rfl
  tMax := by
    rw [durations_add, durations_singleton, ← Set.insert_union, HashEnt.log, if_pos adjusted]
    have greatest := here.tMax.union (isGreatest_singleton (a := e.wall))
    rwa [max_def_lt] at greatest
  tMin := by
    rw [durations_add, durations_singleton, ← Set.insert_union, Set.union_comm, HashEnt.log,
      if_pos adjusted]
    have least := (isLeast_singleton (a := e.wall)).union here.tMin
    rwa [min_def_lt] at least

/-! ## Events shared out over the slots -/

/-- The slots of the table, `0` to `MAXSIZE_HASH`. -/
def Build.slots (b : Build) : Finset Nat := Finset.range (b.maxsizeHash + 1)

theorem Build.mod_mem_slots (b : Build) (n : Nat) : n % b.maxsizeHash ∈ b.slots := by
  have := Nat.mod_lt n b.maxsizeHash_pos
  simp only [Build.slots, Finset.mem_range]
  omega

/-- The table of `t` holds the events shared out by `A`. -/
structure Profile (b : Build) (t : HashState) (A : Nat → Multiset MpiEvent) : Prop where
  vacant : ∀ i, t.keys i = 0 → t.hash i = HashEnt.clear ∧ A i = 0
  summary : ∀ i, t.keys i ≠ 0 → (t.hash i).Summarizes (A i)
  keyOk : ∀ i, t.keys i ≠ 0 → KeyOk (t.keys i)
  target : ∀ i, ∀ e ∈ A i, e.target = keyTarget (t.keys i)
  nkey : t.hashNkey = (b.slots.filter fun i => t.keys i ≠ 0).card

/-- Only the table and its key count matter. -/
theorem Profile.of_table {b : Build} {t t' : HashState} {A : Nat → Multiset MpiEvent}
    (profile : Profile b t A) (hash : t'.hash = t.hash) (nkey : t'.hashNkey = t.hashNkey) :
    Profile b t' A := by
  have keys : t'.keys = t.keys := by
    funext i
    rw [HashState.keys, HashState.keys, hash]
  obtain ⟨vacant, summary, keyOk, target, count⟩ := profile
  constructor
  · rwa [keys, hash]
  · rwa [keys, hash]
  · rwa [keys]
  · rwa [keys]
  · rw [keys, nkey, count]

theorem Profile.empty {b : Build} {t : HashState} (hash : t.hash = fun _ => HashEnt.clear)
    (nkey : t.hashNkey = 0) : Profile b t 0 := by
  have keys : t.keys = fun _ => 0 := by
    funext i
    rw [HashState.keys, hash]
    rfl
  constructor
  · exact fun i _ => ⟨by rw [hash], rfl⟩
  · exact fun i occupied => absurd (by rw [keys]) occupied
  · exact fun i occupied => absurd (by rw [keys]) occupied
  · exact fun i e mem => absurd mem (Multiset.notMem_zero e)
  · rw [keys, nkey]
    simp

/-- The new-key branch fills a slot with no share. -/
theorem Profile.newKey {b : Build} {t : HashState} {A : Nat → Multiset MpiEvent} {h fkey : Nat}
    (profile : Profile b t A) (slot : h ∈ b.slots) (free : t.keys h = 0) (ok : KeyOk fkey) :
    Profile b (t.newKey h fkey) A := by
  have keys : (t.newKey h fkey).keys = Function.update t.keys h fkey := t.keys_newKey h fkey
  have other : ∀ i, i ≠ h → (t.newKey h fkey).keys i = t.keys i ∧
      (t.newKey h fkey).hash i = t.hash i := by
    intro i apart
    rw [keys]
    exact ⟨Function.update_of_ne apart _ _, Function.update_of_ne apart _ _⟩
  have self : (t.newKey h fkey).keys h = fkey ∧
      (t.newKey h fkey).hash h = HashEnt.new fkey := by
    rw [keys]
    exact ⟨Function.update_self h _ _, Function.update_self h _ _⟩
  have share : A h = 0 := (profile.vacant h free).2
  constructor
  · intro i vacant
    by_cases same : i = h
    · subst same
      exact absurd (self.1 ▸ vacant) ok.ne_zero
    · rw [(other i same).2]
      exact profile.vacant i ((other i same).1 ▸ vacant)
  · intro i occupied
    by_cases same : i = h
    · subst same
      rw [self.2, share]
      exact .new fkey
    · rw [(other i same).2]
      exact profile.summary i ((other i same).1 ▸ occupied)
  · intro i occupied
    by_cases same : i = h
    · subst same
      rwa [self.1]
    · rw [(other i same).1]
      exact profile.keyOk i ((other i same).1 ▸ occupied)
  · intro i e mem
    have apart : i ≠ h := by
      rintro rfl
      rw [share] at mem
      exact Multiset.notMem_zero e mem
    rw [(other i apart).1]
    exact profile.target i e mem
  · have fresh : h ∉ b.slots.filter fun i => t.keys i ≠ 0 := by simp [free]
    have filled : (b.slots.filter fun i => (t.newKey h fkey).keys i ≠ 0) =
        insert h (b.slots.filter fun i => t.keys i ≠ 0) := by
      ext i
      by_cases same : i = h
      · subst same
        simp [ok.ne_zero, slot]
      · simp [same]
    rw [filled, Finset.card_insert_of_notMem fresh, ← profile.nkey]
    rfl

/-- Storing a summary of more events gives the slot those events. -/
theorem Profile.store {b : Build} {t : HashState} {A : Nat → Multiset MpiEvent} {h : Nat}
    {ent : HashEnt} {s : Multiset MpiEvent} (profile : Profile b t A) (occupied : t.keys h ≠ 0)
    (key : ent.key = t.keys h) (summary : ent.Summarizes (A h + s))
    (target : ∀ e ∈ s, e.target = keyTarget (t.keys h)) :
    Profile b (t.setEnt h ent) (Shares.give A h s) := by
  have keys : (t.setEnt h ent).keys = t.keys := t.keys_setEnt_same h ent key
  have other : ∀ i, i ≠ h → (t.setEnt h ent).hash i = t.hash i ∧ Shares.give A h s i = A i :=
    fun i apart => ⟨Function.update_of_ne apart _ _, Shares.give_of_ne apart A s⟩
  constructor
  · intro i vacant
    rw [keys] at vacant
    have apart : i ≠ h := by
      rintro rfl
      exact occupied vacant
    rw [(other i apart).1, (other i apart).2]
    exact profile.vacant i vacant
  · intro i filled
    rw [keys] at filled
    by_cases same : i = h
    · subst same
      rw [Shares.give_self, show (t.setEnt i ent).hash i = ent from Function.update_self i _ _]
      exact summary
    · rw [(other i same).1, (other i same).2]
      exact profile.summary i filled
  · rw [keys]
    exact profile.keyOk
  · intro i e mem
    rw [keys]
    by_cases same : i = h
    · subst same
      rw [Shares.give_self, Multiset.mem_add] at mem
      rcases mem with old | new
      · exact profile.target i e old
      · exact target e new
    · rw [(other i same).2] at mem
      exact profile.target i e mem
  · rw [keys]
    exact profile.nkey

/-! ## Probes, culls and runs only move shares -/

/-- Outside a probe the table holds the events `all`, at least one in each stored
entry, and `n` events have been counted. -/
def Recorded (b : Build) (t : HashState) (n : Nat) (all : Multiset MpiEvent) : Prop :=
  ∃ A, Profile b t A ∧ (∀ i, t.keys i ≠ 0 → A i ≠ 0) ∧ ∑ i ∈ b.slots, A i = all ∧
    t.hashNlog = n

/-- Inside a probe for `fkey` at slot `h`, that slot may have the key and no event. -/
def Probing (b : Build) (n : Nat) (all : Multiset MpiEvent) (fkey : Nat) (t : HashState)
    (h : Nat) : Prop :=
  h ∈ b.slots ∧ ∃ A, Profile b t A ∧
    (∀ i, t.keys i ≠ 0 → A i ≠ 0 ∨ i = h ∧ t.keys h = fkey) ∧
    ∑ i ∈ b.slots, A i = all ∧ t.hashNlog = n

section Conservation

variable {b : Build} {n : Nat} {all : Multiset MpiEvent}

theorem Recorded.probing {t : HashState} (recorded : Recorded b t n all) (fkey k : Nat)
    {t' : HashState} (hash : t'.hash = t.hash) (nkey : t'.hashNkey = t.hashNkey)
    (nlog : t'.hashNlog = t.hashNlog) : Probing b n all fkey t' (k % b.maxsizeHash) := by
  obtain ⟨A, profile, inhabited, total, counted⟩ := recorded
  refine ⟨b.mod_mem_slots k, A, profile.of_table hash nkey, fun i occupied => ?_, total,
    nlog.trans counted⟩
  rw [HashState.keys, hash] at occupied
  exact Or.inl (inhabited i occupied)

/-- A probe that met another key leaves no entry without an event. -/
theorem Probing.recorded {fkey h : Nat} {t : HashState} (probing : Probing b n all fkey t h)
    (other : t.keys h ≠ fkey) : Recorded b t n all := by
  obtain ⟨-, A, profile, inhabited, total, counted⟩ := probing
  refine ⟨A, profile, fun i occupied => ?_, total, counted⟩
  exact (inhabited i occupied).resolve_right fun atSlot => other atSlot.2

theorem ipmHashHkey_profile {cull : HashState → Except Stop HashState}
    (cullRecorded : ∀ {t u}, Recorded b t n all → cull t = .ok u → Recorded b u n all)
    {fuel : Nat} {t t' : HashState} {fkey hkey : Nat} (ok : KeyOk fkey)
    (recorded : Recorded b t n all)
    (probed : ipmHashHkey b cull fuel t fkey = .ok (t', hkey)) :
    Probing b n all fkey t' hkey ∧ t'.keys hkey = fkey := by
  refine ipmHashHkey_rule (I := Probing b n all fkey) ?new ?collide ?culled
    (recorded.probing fkey fkey rfl rfl rfl) probed
  case new =>
    rintro t h ⟨slot, A, profile, inhabited, total, counted⟩ free -
    refine ⟨slot, A, profile.newKey slot free ok, fun i occupied => ?_, total, counted⟩
    rw [HashState.keys_newKey] at occupied ⊢
    by_cases same : i = h
    · exact Or.inr ⟨same, Function.update_self h _ _⟩
    · rw [Function.update_of_ne same] at occupied
      exact (inhabited i occupied).imp_right fun atSlot => absurd atSlot.1 same
  case collide =>
    intro t h probing occupied other
    exact (probing.recorded other).probing fkey _ rfl rfl rfl
  case culled =>
    intro t h u probing occupied other culled
    exact (cullRecorded (probing.recorded other) culled).probing fkey _ rfl rfl rfl

/-- Storing the summary of the slot's events and some more ends a probe. -/
theorem Probing.store {fkey h : Nat} {t : HashState} (probing : Probing b n all fkey t h)
    (hit : t.keys h = fkey) (ok : KeyOk fkey) {ent : HashEnt} {s : Multiset MpiEvent}
    (key : ent.key = (t.hash h).key)
    (summary : ∀ s', (t.hash h).Summarizes s' → ent.Summarizes (s' + s))
    (target : ∀ e ∈ s, e.target = keyTarget fkey) (some : s ≠ 0) :
    Recorded b (t.setEnt h ent) n (all + s) := by
  obtain ⟨slot, A, profile, inhabited, total, counted⟩ := probing
  have occupied : t.keys h ≠ 0 := hit ▸ ok.ne_zero
  refine ⟨Shares.give A h s,
    profile.store occupied key (summary _ (profile.summary h occupied)) (hit ▸ target),
    fun i filled => ?_, by rw [Shares.sum_give slot, total], counted⟩
  rw [t.keys_setEnt_same h ent key] at filled
  by_cases same : i = h
  · subst same
    rw [Shares.give_self]
    exact fun none => some (Multiset.le_zero.mp (none ▸ Multiset.le_add_left s (A i)))
  · rw [Shares.give_of_ne same]
    exact (inhabited i filled).resolve_right fun atSlot => same atSlot.1

/-- Putting saved entries back gives the table their events. -/
theorem reinsert_recorded {cull : HashState → Except Stop HashState}
    (cullRecorded : ∀ {t u all}, Recorded b t n all → cull t = .ok u → Recorded b u n all)
    {fuel : Nat} {saved : HashState} {A : Nat → Multiset MpiEvent} (profile : Profile b saved A)
    (inhabited : ∀ i, saved.keys i ≠ 0 → A i ≠ 0) {slots : List Nat} {t u : HashState}
    (recorded : Recorded b t n all)
    (ran : Runs.run (reinsert b cull fuel) t (slots.map saved.hash) = .ok u) :
    Recorded b u n (all + (slots.map A).sum) := by
  induction slots generalizing t all with
  | nil =>
      cases ran
      simpa using recorded
  | cons i slots ih =>
      obtain ⟨v, stepped, rest⟩ := Runs.run_cons_eq_ok ran
      rw [List.map_cons, List.sum_cons, ← add_assoc]
      refine ih ?_ rest
      rcases reinsert_cases stepped with ⟨vacant, rfl⟩ | ⟨occupied, w, hkey, probed, rfl⟩
      · rwa [(profile.vacant i vacant).2, add_zero]
      · have ok := profile.keyOk i occupied
        obtain ⟨probing, hit⟩ := ipmHashHkey_profile cullRecorded (ok.rekey _) recorded probed
        refine probing.store hit (ok.rekey _) (HashEnt.key_merge _ _)
          (fun s' here => here.merge (profile.summary i occupied)) ?_ (inhabited i occupied)
        intro e mem
        rw [keyTarget_rekey]
        exact profile.target i e mem

theorem ipmHashCull_recorded {fuel : Nat} {t u : HashState} (recorded : Recorded b t n all)
    (culled : ipmHashCull b fuel t = .ok u) : Recorded b u n all := by
  induction fuel generalizing t u all with
  | zero => cases culled
  | succ fuel ih =>
      obtain ⟨start, started, ran⟩ := ipmHashCull_eq_ok culled
      obtain ⟨A, profile, inhabited, total, counted⟩ := recorded
      obtain ⟨hash, nkey, nlog, -⟩ := cullStart_eq_ok started
      have empty : Recorded b start n 0 := by
        refine ⟨0, Profile.empty hash nkey, fun i occupied => absurd ?_ occupied, by simp,
          nlog.trans counted⟩
        rw [HashState.keys, hash]
        rfl
      have rebuilt := reinsert_recorded (fun {t u all} before done => ih before done) profile
        inhabited empty ran
      have saved : ((List.range (b.maxsizeHash + 1)).map A).sum = all := by
        rw [← total, Build.slots, Finset.sum, Finset.range_val, Multiset.range, Multiset.map_coe,
          Multiset.sum_coe]
      rwa [zero_add, saved] at rebuilt

theorem MpiEvent.InBounds.keyOk {e : MpiEvent} (ok : e.InBounds) (callMask : Nat → Nat) :
    KeyOk (e.key callMask) := by
  rw [KeyOk, MpiEvent.key, keyCall_ipmMpiKey ok.toFieldsOk]
  exact ok.named

theorem MpiEvent.InBounds.keyTarget_key {e : MpiEvent} (ok : e.InBounds)
    (callMask : Nat → Nat) : keyTarget (e.key callMask) = e.target := by
  have region : keyRegion (e.key callMask) = e.region.toNat := by
    have decoded : (keyRegion (e.key callMask) : Int) = e.region :=
      keyRegion_ipmMpiKey ok.toFieldsOk
    omega
  rw [keyTarget, region, MpiEvent.key, keyCall_ipmMpiKey ok.toFieldsOk,
    keyRank_ipmMpiKey ok.toFieldsOk]
  rfl

/-- One logged event is one more event in the table. -/
theorem wrapperLog_recorded {fuel : Nat} {t u : HashState} {e : MpiEvent} (ok : e.InBounds)
    (recorded : Recorded b t n all) (logged : wrapperLog b fuel t e = .ok u) :
    Recorded b u (n + 1) (all + {e}) := by
  obtain ⟨w, hkey, probed, rfl⟩ := wrapperLog_eq_ok logged
  have counted : Recorded b { t with hashNlog := t.hashNlog + 1 } (n + 1) all := by
    obtain ⟨A, profile, inhabited, total, count⟩ := recorded
    exact ⟨A, profile.of_table rfl rfl, inhabited, total, congrArg (· + 1) count⟩
  obtain ⟨probing, hit⟩ := ipmHashHkey_profile
    (fun before done => ipmHashCull_recorded before done) (ok.keyOk t.callMask) counted probed
  refine probing.store hit (ok.keyOk _) (HashEnt.key_log _ e)
    (fun s' here => here.log ok.adjusted) (fun e' mem => ?_) (Multiset.singleton_ne_zero e)
  rw [Multiset.mem_singleton.mp mem, ok.keyTarget_key]

theorem logRun_recorded {fuel : Nat} {events : List MpiEvent} {t u : HashState}
    (ok : ∀ e ∈ events, e.InBounds) (recorded : Recorded b t n all)
    (ran : logRun b fuel t events = .ok u) :
    Recorded b u (n + events.length) (all + events) := by
  induction events generalizing t n all with
  | nil =>
      cases ran
      simpa using recorded
  | cons e events ih =>
      obtain ⟨v, logged, rest⟩ := Runs.run_cons_eq_ok ran
      have step := wrapperLog_recorded (ok e List.mem_cons_self) recorded logged
      have done := ih (fun e' mem => ok e' (List.mem_cons_of_mem e mem)) step rest
      rwa [Nat.add_assoc, Nat.add_comm 1, add_assoc, Multiset.singleton_add] at done

end Conservation

/-! ## Sums and extremes by target -/

/-- The slots whose key decodes to a region, call and partner rank. -/
def entriesAt (b : Build) (t : HashState) (target : Nat × Nat × Int) : Finset Nat :=
  b.slots.filter fun i => t.keys i ≠ 0 ∧ keyTarget (t.keys i) = target

/-- The events of a run with a region, call and partner rank. -/
def eventsAt (events : List MpiEvent) (target : Nat × Nat × Int) : List MpiEvent :=
  events.filter fun e => e.target = target

/-- The entries of `t` are the profile of `events`, target by target. -/
structure ProfileOf (b : Build) (t : HashState) (events : List MpiEvent) : Prop where
  count : ∀ target, ∑ i ∈ entriesAt b t target, (t.hash i).count =
    (eventsAt events target).length
  tTot : ∀ target, ∑ i ∈ entriesAt b t target, (t.hash i).tTot =
    ((eventsAt events target).map MpiEvent.wall).sum
  tMax : ∀ target x, IsGreatest {y | ∃ i ∈ entriesAt b t target, (t.hash i).tMax = y} x ↔
    IsGreatest {y | ∃ e ∈ eventsAt events target, e.wall = y} x
  tMin : ∀ target x, IsLeast {y | ∃ i ∈ entriesAt b t target, (t.hash i).tMin = y} x ↔
    IsLeast {y | ∃ e ∈ eventsAt events target, e.wall = y} x
  nlog : ∑ i ∈ b.slots, (t.hash i).count = t.hashNlog
  nkey : (b.slots.filter fun i => t.keys i ≠ 0).card = t.hashNkey

section Totals

variable {b : Build} {t : HashState} {A : Nat → Multiset MpiEvent} {events : List MpiEvent}

/-- The events of a target are the shares of its entries. -/
theorem Profile.eventsAt (profile : Profile b t A)
    (total : ∑ i ∈ b.slots, A i = (events : Multiset MpiEvent)) (target : Nat × Nat × Int) :
    ∑ i ∈ entriesAt b t target, A i = (eventsAt events target : Multiset MpiEvent) := by
  have sorted : ∀ i ∈ b.slots, ∀ e ∈ A i,
      e.target = target ↔ t.keys i ≠ 0 ∧ keyTarget (t.keys i) = target := by
    intro i _ e mem
    have occupied : t.keys i ≠ 0 := by
      intro vacant
      rw [(profile.vacant i vacant).2] at mem
      exact Multiset.notMem_zero e mem
    rw [profile.target i e mem, and_iff_right occupied]
  rw [entriesAt, ← Shares.filter_sum sorted, total, Multiset.filter_coe]
  rfl

theorem Profile.summary_of_mem (profile : Profile b t A) {target : Nat × Nat × Int} {i : Nat}
    (mem : i ∈ entriesAt b t target) : (t.hash i).Summarizes (A i) :=
  profile.summary i (Finset.mem_filter.mp mem).2.1

/-- The durations of the events of a target, entry by entry. -/
theorem Profile.durations_eventsAt (profile : Profile b t A)
    (total : ∑ i ∈ b.slots, A i = (events : Multiset MpiEvent)) (target : Nat × Nat × Int) :
    {y | ∃ e ∈ Ipm.eventsAt events target, e.wall = y} =
      ⋃ i ∈ {i | i ∈ entriesAt b t target}, durations (A i) := by
  ext y
  have mem : ∀ e, e ∈ Ipm.eventsAt events target ↔ ∃ i ∈ entriesAt b t target, e ∈ A i := by
    intro e
    rw [← Multiset.mem_coe, ← profile.eventsAt total target, Multiset.mem_sum]
  simp only [Set.mem_ofPred_eq, Set.mem_iUnion, durations, mem, exists_prop]
  constructor
  · intro given
    rcases given with ⟨e, ⟨i, slot, share⟩, wall⟩
    exact ⟨i, slot, e, share, wall⟩
  · intro given
    rcases given with ⟨i, slot, e, share, wall⟩
    exact ⟨e, ⟨i, slot, share⟩, wall⟩

end Totals

/-- Conservation over runs.  After every run of events within bounds the entries
of the table are the profile of the run. -/
theorem logRun_profile (b : Build) (fuel : Nat) (events : List MpiEvent)
    (ok : ∀ e ∈ events, e.InBounds) (t : HashState)
    (ran : logRun b fuel .init events = .ok t) : ProfileOf b t events := by
  have start : Recorded b .init 0 0 :=
    ⟨0, Profile.empty rfl rfl, fun i occupied => absurd rfl occupied, by simp, rfl⟩
  obtain ⟨A, profile, inhabited, total, counted⟩ := logRun_recorded ok start ran
  rw [zero_add] at total
  rw [Nat.zero_add] at counted
  have bounded : ∀ i ∈ b.slots, ∀ e ∈ A i, e.InBounds := by
    intro i slot e mem
    have logged : e ∈ (events : Multiset MpiEvent) := by
      rw [← total]
      exact Multiset.mem_sum.mpr ⟨i, slot, mem⟩
    exact ok e (Multiset.mem_coe.mp logged)
  have some : ∀ target, ∀ i ∈ entriesAt b t target, (durations (A i)).Nonempty := by
    intro target i mem
    obtain ⟨e, share⟩ := Multiset.exists_mem_of_ne_zero
      (inhabited i (Finset.mem_filter.mp mem).2.1)
    exact ⟨e.wall, e, share, rfl⟩
  constructor
  · intro target
    rw [← Multiset.coe_card, ← profile.eventsAt total target, Multiset.card_sum]
    exact Finset.sum_congr rfl fun i mem => (profile.summary_of_mem mem).count
  · intro target
    rw [← Multiset.sum_coe, ← Multiset.map_coe, ← profile.eventsAt total target,
      Shares.sum_map_sum]
    exact Finset.sum_congr rfl fun i mem => (profile.summary_of_mem mem).tTot
  · intro target x
    rw [profile.durations_eventsAt total target]
    refine Shares.isGreatest_image_iff (fun i mem => ?_) x
    refine Shares.isGreatest_of_insert (profile.summary_of_mem mem).tMax ?_ (some target i mem)
    rintro y ⟨e, share, rfl⟩
    exact (bounded i (Finset.mem_filter.mp mem).1 e share).wall_nonneg
  · intro target x
    rw [profile.durations_eventsAt total target]
    refine Shares.isLeast_image_iff (fun i mem => ?_) x
    refine Shares.isLeast_of_insert (profile.summary_of_mem mem).tMin ?_ (some target i mem)
    rintro y ⟨e, share, rfl⟩
    exact (bounded i (Finset.mem_filter.mp mem).1 e share).wall_le
  · rw [counted, ← Multiset.coe_card, ← total, Multiset.card_sum]
    refine Finset.sum_congr rfl fun i _ => ?_
    by_cases vacant : t.keys i = 0
    · rw [(profile.vacant i vacant).1, (profile.vacant i vacant).2]
      rfl
    · exact (profile.summary i vacant).count
  · exact profile.nkey.symm

/-- A run of three events, the last of which culls, with its profile. -/
theorem logRun_profile_five :
    ∃ t, logRun .five 20 .init [sizeEvent 1 5 3, sizeEvent 2 7 4, sizeEvent 2 2 1] = .ok t ∧
      t.callMask 1 ≠ callMaskBprec ∧
      ProfileOf .five t [sizeEvent 1 5 3, sizeEvent 2 7 4, sizeEvent 2 2 1] := by
  have ran : Runs.okWith (logRun .five 20 .init
      [sizeEvent 1 5 3, sizeEvent 2 7 4, sizeEvent 2 2 1])
      (fun t => t.callMask 1 != callMaskBprec) = true := by decide +kernel
  obtain ⟨t, ok, culled⟩ := Runs.okWith_eq_true ran
  exact ⟨t, ok, by simpa using culled, logRun_profile .five 20 _ (by decide +kernel) t ok⟩

end Ipm
