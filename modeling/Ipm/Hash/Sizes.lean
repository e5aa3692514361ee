import Mathlib.Data.Multiset.Replicate
import Ipm.Hash.Targets

/-!
# What a table keeps of the sizes

An entry stands for as many events as it counts, all of them under its key.  A cull rebuilds
the keys under the masks it has lowered, and a probe it interrupts goes on with the key of
before, so the sizes in a table can have lost bits at different times.  No size has lost more
than the last mask of its call would take from it.

* `CutKey.rekey`: a key that is built again is cut once.
* `reinsert_cut`, `ipmHashCull_cut`: a cull only cuts sizes.
* `wrapperLog_cut`: an event is stored as its call is cut then, or less.
* `Cut.sizes_bounds`: bounds for the sizes added up.
-/

namespace Ipm

/-! ## The keys of a table -/

/-- The key of an entry, once for each event it counts. -/
def HashEnt.marks (ent : HashEnt) : Multiset Nat := Multiset.replicate ent.count ent.key

/-- The keys of a table, one for each event. -/
def HashState.marks (b : Build) (t : HashState) : Multiset Nat := ∑ i ∈ b.slots, (t.hash i).marks

theorem HashEnt.count_log (ent : HashEnt) (e : MpiEvent) : (ent.log e).count = ent.count + 1 := by
  simp only [HashEnt.log, HashEnt.addTime]
  split_ifs <;> rfl

section Marks

variable {b : Build} {t : HashState} {h : Nat}

/-- One more key, with no events yet. -/
theorem marks_newKey {fkey : Nat} (uncounted : (t.hash h).count = 0) :
    (t.newKey h fkey).marks b = t.marks b := by
  refine Finset.sum_congr rfl fun i _ => ?_
  by_cases same : i = h
  · subst same
    have new : (t.newKey i fkey).hash i = HashEnt.new fkey := Function.update_self i _ _
    rw [new, HashEnt.marks, HashEnt.marks, uncounted]
    rfl
  · have other : (t.newKey h fkey).hash i = t.hash i := Function.update_of_ne same _ _
    rw [other]

/-- More events under the key of a slot. -/
theorem marks_setEnt {ent : HashEnt} {n : Nat} (slot : h ∈ b.slots)
    (key : ent.key = (t.hash h).key) (count : ent.count = (t.hash h).count + n) :
    (t.setEnt h ent).marks b = t.marks b + Multiset.replicate n (t.hash h).key := by
  have given : (fun i => ((t.setEnt h ent).hash i).marks) =
      Shares.give (fun i => (t.hash i).marks) h (Multiset.replicate n (t.hash h).key) := by
    funext i
    by_cases same : i = h
    · subst same
      have stored : (t.setEnt i ent).hash i = ent := Function.update_self i _ _
      rw [Shares.give_self, stored, HashEnt.marks, HashEnt.marks, key, count,
        Multiset.replicate_add]
    · have other : (t.setEnt h ent).hash i = t.hash i := Function.update_of_ne same _ _
      rw [Shares.give_of_ne same, other]
  unfold HashState.marks
  rw [given, Shares.sum_give slot]

end Marks

/-! ## Keys that have lost bits -/

/-- A key of an event: its target, and its size without some of the bits that steps on its call
have taken. -/
structure CutKey (calls : List Nat) (key : Nat) (e : MpiEvent) : Prop where
  target : e.target = keyTarget key
  size : ∃ k ≤ calls.count e.call, keyByte key = Bits.cut e.bytes k

section Keys

variable {mask : Nat → Nat} {calls more : List Nat} {key : Nat} {e : MpiEvent}

theorem CutKey.append (older : CutKey calls key e) (more : List Nat) :
    CutKey (calls ++ more) key e := by
  rcases older.size with ⟨k, le, size⟩
  refine ⟨older.target, k, ?_, size⟩
  rw [List.count_append]
  exact le.trans (Nat.le_add_right _ _)

/-- The key an event is logged under. -/
theorem cutKey_key (full : ∀ c, callBufPrecision mask c = callMaskBprec) (ok : e.InBounds) :
    CutKey calls (e.key (precisionDowns mask calls)) e := by
  refine ⟨(ok.keyTarget_key _).symm, _, le_rfl, ?_⟩
  rw [MpiEvent.key, keyByte_ipmMpiKey ok.toFieldsOk]
  exact maskedSize_downs full calls ok.toFieldsOk

/-- A key that is built again is cut as the masks are by now, however it was before. -/
theorem CutKey.rekey (full : ∀ c, callBufPrecision mask c = callMaskBprec)
    (older : CutKey calls key e) (more : List Nat) :
    CutKey (calls ++ more) (rekey (precisionDowns mask (calls ++ more)) key) e := by
  rcases older.append more with ⟨target, k, le, size⟩
  have call : e.call = keyCall key := congrArg (fun x => x.2.1) target
  refine ⟨target.trans (keyTarget_rekey _ key).symm, _, le_rfl, ?_⟩
  rw [Ipm.rekey, keyByte_ipmMpiKey (fieldsOk_decode key),
    maskedSize_downs full _ (fieldsOk_decode key), ← call]
  change Bits.cut (keyByte key) _ = _
  rw [size, Bits.cut_cut le]

end Keys

/-! ## Tables that have lost bits -/

/-- A table that holds these events, after steps on these calls: one of its keys for each. -/
structure Cut (b : Build) (mask : Nat → Nat) (calls : List Nat) (t : HashState)
    (events : Multiset MpiEvent) : Prop where
  callMask : t.callMask = precisionDowns mask calls
  vacant : ∀ i, t.keys i = 0 → (t.hash i).count = 0
  keyOk : ∀ i, t.keys i ≠ 0 → KeyOk (t.keys i)
  marked : Multiset.Rel (CutKey calls) (t.marks b) events

section Tables

variable {b : Build} {mask : Nat → Nat} {calls : List Nat} {t u : HashState}
  {events s : Multiset MpiEvent}

/-- Only the slots and the masks matter. -/
theorem Cut.of_table (cut : Cut b mask calls t events) (hash : u.hash = t.hash)
    (callMask : u.callMask = t.callMask) : Cut b mask calls u events := by
  rcases cut with ⟨masks, vacant, keyOk, marked⟩
  refine ⟨callMask.trans masks, fun i => ?_, fun i => ?_, ?_⟩
  · rw [HashState.keys, hash]
    exact vacant i
  · rw [HashState.keys, hash]
    exact keyOk i
  · rw [HashState.marks, hash]
    exact marked

theorem Cut.empty (cleared : t.hash = fun _ => HashEnt.clear)
    (callMask : t.callMask = precisionDowns mask calls) : Cut b mask calls t 0 := by
  have vacant : ∀ i, t.keys i = 0 := by
    intro i
    rw [HashState.keys, cleared]
    rfl
  refine ⟨callMask, fun i _ => by rw [cleared]; rfl,
    fun i occupied => absurd (vacant i) occupied, ?_⟩
  have none_ : t.marks b = 0 := by
    refine Finset.sum_eq_zero fun i _ => ?_
    rw [cleared]
    rfl
  rw [none_]
  exact Multiset.Rel.zero

theorem Cut.newKey {h fkey : Nat} (cut : Cut b mask calls t events) (free : t.keys h = 0)
    (ok : KeyOk fkey) : Cut b mask calls (t.newKey h fkey) events := by
  refine ⟨cut.callMask, fun i vacant => ?_, fun i occupied => ?_, ?_⟩
  · by_cases same : i = h
    · subst same
      rw [HashState.keys_newKey, Function.update_self] at vacant
      exact absurd vacant ok.ne_zero
    · rw [HashState.keys_newKey, Function.update_of_ne same] at vacant
      have other : (t.newKey h fkey).hash i = t.hash i := Function.update_of_ne same _ _
      rw [other]
      exact cut.vacant i vacant
  · rw [HashState.keys_newKey] at occupied ⊢
    by_cases same : i = h
    · rwa [same, Function.update_self]
    · rw [Function.update_of_ne same] at occupied ⊢
      exact cut.keyOk i occupied
  · rw [marks_newKey (cut.vacant h free)]
    exact cut.marked

/-- Events that are counted in a slot whose key is one of theirs. -/
theorem Cut.store {h fkey : Nat} (cut : Cut b mask calls t events) (slot : h ∈ b.slots)
    (hit : t.keys h = fkey) (ok : KeyOk fkey) {ent : HashEnt} (key : ent.key = (t.hash h).key)
    (count : ent.count = (t.hash h).count + s.card) (keyed : ∀ e ∈ s, CutKey calls fkey e) :
    Cut b mask calls (t.setEnt h ent) (events + s) := by
  have keys := t.keys_setEnt_same h ent key
  refine ⟨cut.callMask, fun i vacant => ?_, ?_, ?_⟩
  · rw [keys] at vacant
    have other : i ≠ h := by
      rintro rfl
      exact ok.ne_zero (hit.symm.trans vacant)
    have same : (t.setEnt h ent).hash i = t.hash i := Function.update_of_ne other _ _
    rw [same]
    exact cut.vacant i vacant
  · rw [keys]
    exact cut.keyOk
  · rw [marks_setEnt slot key count]
    have met : (t.hash h).key = fkey := hit
    rw [met]
    exact cut.marked.add (Shares.rel_replicate_iff.mpr ⟨rfl, keyed⟩)

end Tables

/-! ## Probes and culls -/

/-- A cull that only cuts sizes. -/
def OnlyCuts (b : Build) (mask : Nat → Nat) (cull : HashState → Except Stop HashState) : Prop :=
  ∀ {calls t u events}, Cut b mask calls t events → cull t = .ok u →
    ∃ more, Cut b mask (calls ++ more) u events

section Probes

variable {b : Build} {mask : Nat → Nat} {calls : List Nat} {t u : HashState}
  {events : Multiset MpiEvent}

theorem ipmHashHkey_cut {cull : HashState → Except Stop HashState} (culls : OnlyCuts b mask cull)
    {fuel fkey hkey : Nat} (ok : KeyOk fkey) (cut : Cut b mask calls t events)
    (probed : ipmHashHkey b cull fuel t fkey = .ok (u, hkey)) :
    hkey ∈ b.slots ∧ u.keys hkey = fkey ∧ ∃ more, Cut b mask (calls ++ more) u events := by
  let I : HashState → Nat → Prop := fun v h =>
    h ∈ b.slots ∧ ∃ more, Cut b mask (calls ++ more) v events
  have ended : I u hkey ∧ (u.hash hkey).key = fkey := by
    refine ipmHashHkey_rule (I := I) ?new ?collide ?culled ?start probed
    case start =>
      refine ⟨b.mod_mem_slots fkey, [], ?_⟩
      rw [List.append_nil]
      exact cut.of_table rfl rfl
    case new =>
      intro v h inv free _
      rcases inv with ⟨slot, more, cut⟩
      exact ⟨slot, more, cut.newKey free ok⟩
    case collide =>
      intro v h inv _ _
      rcases inv with ⟨_, more, cut⟩
      exact ⟨b.mod_mem_slots _, more, cut.of_table rfl rfl⟩
    case culled =>
      intro v h w inv _ _ ran
      rcases inv with ⟨_, more, cut⟩
      rcases culls cut ran with ⟨later, cut⟩
      rw [List.append_assoc] at cut
      exact ⟨b.mod_mem_slots _, more ++ later, cut.of_table rfl rfl⟩
  exact ⟨ended.1.1, ended.2, ended.1.2⟩

/-- Saved entries that are put back have their keys built again. -/
theorem reinsert_cut {cull : HashState → Except Stop HashState}
    (full : ∀ c, callBufPrecision mask c = callMaskBprec) (culls : OnlyCuts b mask cull)
    {fuel : Nat} {saved : HashState} (vacant : ∀ i, saved.keys i = 0 → (saved.hash i).count = 0)
    (keyOk : ∀ i, saved.keys i ≠ 0 → KeyOk (saved.keys i)) {older later slots : List Nat}
    {given : Multiset MpiEvent}
    (marked : Multiset.Rel (CutKey older) ((slots.map fun i => (saved.hash i).marks).sum) given)
    (cut : Cut b mask (older ++ later) t events)
    (ran : Runs.run (reinsert b cull fuel) t (slots.map saved.hash) = .ok u) :
    ∃ more, Cut b mask (older ++ more) u (events + given) := by
  induction slots generalizing t events given later with
  | nil =>
      cases ran
      rw [Multiset.rel_zero_left.mp marked, add_zero]
      exact ⟨later, cut⟩
  | cons i slots ih =>
      rcases Runs.run_cons_eq_ok ran with ⟨v, stepped, rest⟩
      rw [List.map_cons, List.sum_cons, Multiset.rel_add_left] at marked
      rcases marked with ⟨here, others, ofSlot, ofOthers, rfl⟩
      rw [← add_assoc]
      rcases reinsert_cases stepped with ⟨skipped, rfl⟩ | ⟨occupied, w, hkey, probed, rfl⟩
      · rw [HashEnt.marks, vacant i skipped] at ofSlot
        rw [Multiset.rel_zero_left.mp ofSlot, add_zero]
        exact ih ofOthers cut rest
      · rw [HashEnt.marks, Shares.rel_replicate_iff] at ofSlot
        rcases ofSlot with ⟨count, keyed⟩
        have rebuilt : ∀ e ∈ here, CutKey (older ++ later)
            (rekey t.callMask (saved.hash i).key) e := by
          intro e mem
          rw [cut.callMask]
          exact (keyed e mem).rekey full later
        have ok := (keyOk i occupied).rekey t.callMask
        rcases ipmHashHkey_cut culls ok cut probed with ⟨slot, hit, more, cut⟩
        have stored := cut.store slot hit ok (s := here) (HashEnt.key_merge _ (saved.hash i))
          (by rw [count]; rfl) fun e mem => (rebuilt e mem).append more
        rw [List.append_assoc] at stored
        exact ih ofOthers stored rest

/-- A cull only cuts sizes. -/
theorem ipmHashCull_cut (full : ∀ c, callBufPrecision mask c = callMaskBprec) (fuel : Nat) :
    OnlyCuts b mask (ipmHashCull b fuel) := by
  induction fuel with
  | zero =>
      intro calls t u events _ culled
      cases culled
  | succ fuel ih =>
      intro calls t u events kept culled
      rcases ipmHashCull_eq_ok culled with ⟨start, started, ran⟩
      rcases cullStart_eq_ok started with ⟨hash, _, _, call, lowered⟩
      have empty : Cut b mask (calls ++ [call]) start 0 := by
        refine Cut.empty hash ?_
        rw [lowered, kept.callMask, precisionDowns, precisionDowns, List.foldl_append]
        rfl
      have saved : ((List.range (b.maxsizeHash + 1)).map fun i => (t.hash i).marks).sum =
          t.marks b := by
        rw [HashState.marks, Build.slots, Finset.sum, Finset.range_val, Multiset.range,
          Multiset.map_coe, Multiset.sum_coe]
      have marked := kept.marked
      rw [← saved] at marked
      have rebuilt := reinsert_cut full ih kept.vacant kept.keyOk marked empty ran
      rwa [zero_add] at rebuilt

/-- An event is one more key, and all keys may be cut by the culls of its probe. -/
theorem wrapperLog_cut (full : ∀ c, callBufPrecision mask c = callMaskBprec) {fuel : Nat}
    {e : MpiEvent} (ok : e.InBounds) (cut : Cut b mask calls t events)
    (logged : wrapperLog b fuel t e = .ok u) :
    ∃ more, Cut b mask (calls ++ more) u (events + {e}) := by
  rcases wrapperLog_eq_ok logged with ⟨w, hkey, probed, rfl⟩
  have counted : Cut b mask calls { t with hashNlog := t.hashNlog + 1 } events :=
    cut.of_table rfl rfl
  rcases ipmHashHkey_cut (ipmHashCull_cut full fuel) (ok.keyOk _) counted probed with
    ⟨slot, hit, more, cut'⟩
  have key : CutKey calls (e.key t.callMask) e := by
    rw [cut.callMask]
    exact cutKey_key full ok
  refine ⟨more, cut'.store slot hit (ok.keyOk _) (HashEnt.key_log _ e) ?_ fun e' mem => ?_⟩
  · exact HashEnt.count_log _ e
  · rw [Multiset.mem_singleton.mp mem]
    exact key.append more

end Probes

/-! ## The sizes added up -/

section Sums

variable {b : Build} {mask : Nat → Nat} {calls : List Nat} {t : HashState} {events : List MpiEvent}

/-- What a size is at the precision of a mask, which an event may still be above. -/
theorem CutKey.bounds (full : ∀ c, callBufPrecision mask c = callMaskBprec) {key : Nat}
    {e : MpiEvent} (ok : e.InBounds) (kept : CutKey calls key e) :
    (maskedSize (precisionDowns mask calls) e.call e.bytes : Int) ≤ keyByte key ∧
      keyByte key ≤ e.bytes := by
  rcases kept.size with ⟨k, le, size⟩
  rw [maskedSize_downs full calls ok.toFieldsOk, size]
  exact ⟨Bits.cut_le_cut le e.bytes, Bits.cut_le e.bytes k⟩

/-- A key of an event: its target, and a size between what the masks leave of the event's and
this. -/
structure KeptKey (t : HashState) (key : Nat) (e : MpiEvent) : Prop where
  target : e.target = keyTarget key
  least : (maskedSize t.callMask e.call e.bytes : Int) ≤ keyByte key
  most : keyByte key ≤ e.bytes

/-- No key has lost more than the bits its call's mask takes by now. -/
theorem Cut.kept (full : ∀ c, callBufPrecision mask c = callMaskBprec)
    (inBounds : ∀ e ∈ events, e.InBounds) (cut : Cut b mask calls t events) :
    Multiset.Rel (KeptKey t) (t.marks b) events := by
  refine cut.marked.mono fun key _ e logged older => ?_
  obtain ⟨least, most⟩ := older.bounds full (inBounds e (Multiset.mem_coe.mp logged))
  exact ⟨older.target, by rwa [cut.callMask], most⟩

/-- The sizes of the keys of some targets, added up. -/
def HashState.sizes (b : Build) (t : HashState) (q : Nat × Nat × Int → Prop) [DecidablePred q] :
    Int :=
  ((t.marks b).map fun key => if q (keyTarget key) then keyByte key else 0).sum

theorem sum_filter_eq (events : List MpiEvent) (p : MpiEvent → Prop) [DecidablePred p]
    (f : MpiEvent → Int) : ((events : Multiset MpiEvent).map fun e => if p e then f e else 0).sum =
      ((events.filter fun e => p e).map f).sum := by
  rw [Multiset.map_coe, Multiset.sum_coe, List.sum_map_ite, List.map_const', List.sum_replicate,
    nsmul_zero, add_zero]

/-- The sizes in a table are those of its events, as far as the masks have let them through. -/
theorem Cut.sizes_bounds (full : ∀ c, callBufPrecision mask c = callMaskBprec)
    (inBounds : ∀ e ∈ events, e.InBounds) (cut : Cut b mask calls t events)
    (q : Nat × Nat × Int → Prop) [DecidablePred q] :
    ((events.filter fun e => q e.target).map fun e =>
        (maskedSize t.callMask e.call e.bytes : Int)).sum ≤ t.sizes b q ∧
      t.sizes b q ≤ ((events.filter fun e => q e.target).map MpiEvent.bytes).sum := by
  have marked := cut.kept full inBounds
  rw [← sum_filter_eq, ← sum_filter_eq]
  constructor
  · refine Shares.sum_map_le_of_rel (Multiset.rel_flip.mpr marked) fun e key kept => ?_
    rw [kept.target]
    split
    · exact kept.least
    · exact le_rfl
  · refine Shares.sum_map_le_of_rel marked fun key e kept => ?_
    rw [kept.target]
    split
    · exact kept.most
    · exact le_rfl

end Sums

end Ipm
