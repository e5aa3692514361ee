import Mathlib.Algebra.GroupWithZero.Nat
import Mathlib.Data.List.Basic
import Mathlib.Data.List.Induction

/-!
# Runs of a partial step function

A machine is a step function `step : S → A → Except ε S` that may stop with an
error.  A run folds a list of actions; a *visit* is a state together with the
action taken there, somewhere along the run.

* `run_append`: a run splits at every prefix, so every prefix of a successful run
  is a successful run.
* `checkVisits`: an executable check made at every visit of a run.
* `run_invariant`: what one step preserves, a whole run preserves.
* `run_lastWrite`: a part of the state that the actions overwrite or leave is at the end what was
  written last.
* `run_isOk_iff_budget`: a run whose steps use up a budget succeeds exactly when all of them
  fit and the budget does for them together.
* `forall_reached_iff_forall_visit`: when a guard on the visited state and action
  keeps an invariant, and a step taken against the guard leaves an unsafe state,
  a run is safe in every state it reaches exactly when it keeps the guard at
  every visit.
-/

namespace Runs

universe u v w

variable {S : Type u} {A : Type v} {ε : Type w} (step : S → A → Except ε S)

/-- Evaluate a check on the result of a computation; an error fails it. -/
def okWith {α : Type u} (x : Except ε α) (check : α → Bool) : Bool :=
  match x with
  | .ok a => check a
  | .error _ => false

theorem okWith_eq_true {α : Type u} {x : Except ε α} {check : α → Bool}
    (h : okWith x check = true) : ∃ a, x = .ok a ∧ check a = true := by
  cases x with
  | error e => cases h
  | ok a => exact ⟨a, rfl, h⟩

/-- Run a list of actions from a state; the first error stops the run. -/
def run (s : S) (as : List A) : Except ε S :=
  as.foldlM step s

@[simp] theorem run_nil (s : S) : run step s [] = .ok s := rfl

theorem run_cons (s : S) (a : A) (as : List A) :
    run step s (a :: as) = step s a >>= fun s' => run step s' as := by
  simp only [run, List.foldlM_cons]

theorem run_append (s : S) (as bs : List A) :
    run step s (as ++ bs) = run step s as >>= fun s' => run step s' bs := by
  simp only [run, List.foldlM_append]

variable {step}

/-- A bind succeeds only through a success of its first part. -/
theorem bind_eq_ok {α β : Type u} {x : Except ε α} {f : α → Except ε β} {b : β}
    (h : x >>= f = .ok b) : ∃ a, x = .ok a ∧ f a = .ok b := by
  cases x with
  | error e => cases h
  | ok a => exact ⟨a, rfl, h⟩

/-- Renaming the errors keeps the successes. -/
theorem mapError_eq_ok {α : Type u} {ε' : Type v} {x : Except ε α} {f : ε → ε'} {a : α}
    (h : x.mapError f = .ok a) : x = .ok a := by
  cases x with
  | error e => cases h
  | ok b =>
      cases h
      rfl

theorem run_cons_eq_ok {s t : S} {a : A} {as : List A}
    (h : run step s (a :: as) = .ok t) :
    ∃ s', step s a = .ok s' ∧ run step s' as = .ok t := by
  rw [run_cons] at h
  exact bind_eq_ok h

theorem run_append_eq_ok {s t : S} {as bs : List A}
    (h : run step s (as ++ bs) = .ok t) :
    ∃ s', run step s as = .ok s' ∧ run step s' bs = .ok t := by
  rw [run_append] at h
  exact bind_eq_ok h

/-- A run after its first step. -/
theorem run_cons_ok {s s' : S} {a : A} (stepped : step s a = .ok s') (as : List A) :
    run step s (a :: as) = run step s' as := by
  rw [run_cons, stepped]
  rfl

/-- Two runs, one after the other. -/
theorem run_trans {s s' t : S} {as bs : List A} (first : run step s as = .ok s')
    (last : run step s' bs = .ok t) : run step s (as ++ bs) = .ok t := by
  rw [run_append, first]
  exact last

/-- A run that ends in `a` is a run to the state before it and one step. -/
theorem run_snoc_eq_ok {s t : S} {as : List A} {a : A}
    (h : run step s (as ++ [a]) = .ok t) :
    ∃ s', run step s as = .ok s' ∧ step s' a = .ok t := by
  obtain ⟨s', ran, last⟩ := run_append_eq_ok h
  obtain ⟨t', stepped, done⟩ := run_cons_eq_ok last
  cases done
  exact ⟨s', ran, stepped⟩

theorem run_snoc {s s' t : S} {as : List A} {a : A}
    (first : run step s as = .ok s') (last : step s' a = .ok t) :
    run step s (as ++ [a]) = .ok t := by
  rw [run_append, first]
  change run step s' [a] = .ok t
  rw [run_cons, last]
  rfl

/-- What no step of a fold changes, the fold does not change. -/
theorem foldl_keeps {T : Type*} {f : S → A → S} (g : S → T) (keeps : ∀ s a, g (f s a) = g s)
    (as : List A) (s : S) : g (as.foldl f s) = g s := by
  induction as generalizing s with
  | nil => rfl
  | cons a as ih => rw [List.foldl_cons, ih, keeps]

/-- `Reached step s as t`: some prefix of `as` takes `s` to `t`. -/
def Reached (step : S → A → Except ε S) (s : S) (as : List A) (t : S) : Prop :=
  ∃ pre, pre <+: as ∧ run step s pre = .ok t

/-- `Visit step s as t a`: the run of `as` from `s` takes action `a` in state `t`. -/
def Visit (step : S → A → Except ε S) (s : S) (as : List A) (t : S) (a : A) : Prop :=
  ∃ pre, pre ++ [a] <+: as ∧ run step s pre = .ok t

theorem Reached.start (s : S) (as : List A) : Reached step s as s :=
  ⟨[], List.nil_prefix, rfl⟩

theorem Reached.finish {s t : S} {as : List A} (h : run step s as = .ok t) :
    Reached step s as t :=
  ⟨as, List.prefix_refl as, h⟩

theorem Visit.reached {s t : S} {as : List A} {a : A} (v : Visit step s as t a) :
    Reached step s as t := by
  obtain ⟨pre, isPre, ran⟩ := v
  exact ⟨pre, (List.prefix_append pre [a]).trans isPre, ran⟩

/-- The action of a visit is one of the run's. -/
theorem Visit.mem {s t : S} {as : List A} {a : A} (v : Visit step s as t a) : a ∈ as := by
  obtain ⟨pre, isPre, _⟩ := v
  exact isPre.subset (List.mem_append_right pre List.mem_cons_self)

theorem Visit.head (s : S) (a : A) (as : List A) : Visit step s (a :: as) s a :=
  ⟨[], ⟨as, rfl⟩, rfl⟩

/-- The visits of the rest of a run are visits of the run. -/
theorem Visit.tail {s s' t : S} {a b : A} {as : List A} (stepped : step s a = .ok s')
    (v : Visit step s' as t b) : Visit step s (a :: as) t b := by
  obtain ⟨pre, ⟨post, rfl⟩, ran⟩ := v
  refine ⟨a :: pre, ⟨post, rfl⟩, ?_⟩
  rw [run_cons_ok stepped]
  exact ran

/-- A visit is that of the first action or one of the rest of the run. -/
theorem visit_cons_iff {s t : S} {a b : A} {as : List A} :
    Visit step s (a :: as) t b ↔
      (t = s ∧ b = a) ∨ ∃ s', step s a = .ok s' ∧ Visit step s' as t b := by
  constructor
  · intro v
    rcases v with ⟨pre, ⟨post, split⟩, ran⟩
    cases pre with
    | nil =>
        cases ran
        cases split
        exact Or.inl ⟨rfl, rfl⟩
    | cons a' pre =>
        cases split
        rcases run_cons_eq_ok ran with ⟨s', stepped, rest⟩
        exact Or.inr ⟨s', stepped, pre, ⟨post, rfl⟩, rest⟩
  · intro cases_
    rcases cases_ with ⟨rfl, rfl⟩ | ⟨s', stepped, v⟩
    · exact Visit.head _ _ _
    · exact v.tail stepped

/-- A visit is the first one or a visit that follows another. -/
theorem Visit.cases {s t : S} {as : List A} {b : A} (v : Visit step s as t b) :
    (t = s ∧ as.head? = some b) ∨
      ∃ u a, Visit step s as.dropLast u a ∧ step u a = .ok t := by
  obtain ⟨pre, ⟨post, rfl⟩, ran⟩ := v
  cases pre using List.reverseRecOn with
  | nil =>
      cases ran
      exact Or.inl ⟨rfl, rfl⟩
  | append_singleton pre a =>
      obtain ⟨u, ran', stepped⟩ := run_snoc_eq_ok ran
      refine Or.inr ⟨u, a, ⟨pre, ?_, ran'⟩, stepped⟩
      rw [List.append_assoc, List.dropLast_append_of_ne_nil (by simp)]
      exact List.prefix_append _ _

/-- A visit before the last action is followed by another. -/
theorem Visit.followed {s t t' : S} {as : List A} {a : A}
    (v : Visit step s as.dropLast t a) (stepped : step t a = .ok t') :
    ∃ b, Visit step s as t' b := by
  obtain ⟨pre, ⟨post, split⟩, ran⟩ := v
  cases as using List.reverseRecOn with
  | nil => simp at split
  | append_singleton as last =>
      rw [List.dropLast_concat] at split
      refine ⟨(post ++ [last]).head (by simp), pre ++ [a], ?_, run_snoc ran stepped⟩
      refine ⟨(post ++ [last]).tail, ?_⟩
      rw [List.append_assoc (pre ++ [a]), List.singleton_append, List.cons_head_tail,
        ← List.append_assoc, split]

/-- A visit of a successful run has a successor, reached by the same run. -/
theorem Visit.next {s t u : S} {as : List A} {a : A}
    (ok : run step s as = .ok u) (v : Visit step s as t a) :
    ∃ t', step t a = .ok t' ∧ Reached step s as t' := by
  obtain ⟨pre, isPre, ran⟩ := v
  obtain ⟨post, rfl⟩ := isPre
  rw [List.append_assoc] at ok
  obtain ⟨t₁, ran₁, rest⟩ := run_append_eq_ok ok
  rw [ran] at ran₁
  cases ran₁
  obtain ⟨t', stepped, _⟩ := run_cons_eq_ok rest
  exact ⟨t', stepped, pre ++ [a], ⟨post, rfl⟩, run_snoc ran stepped⟩

/-- Every visit of a prefix is a visit of the whole. -/
theorem Visit.of_prefix {s t : S} {as bs : List A} {a : A}
    (isPre : as <+: bs) (v : Visit step s as t a) : Visit step s bs t a := by
  obtain ⟨pre, isPre', ran⟩ := v
  exact ⟨pre, isPre'.trans isPre, ran⟩

/-- Evaluate a check at every visit of a run; a run that stops has no later visit. -/
def checkVisits (step : S → A → Except ε S) (check : S → A → Bool) : S → List A → Bool
  | _, [] => true
  | s, a :: as =>
      check s a && match step s a with
        | .ok s' => checkVisits step check s' as
        | .error _ => true

/-- The check of a whole run is the check of its first visit and of the rest. -/
theorem checkVisits_cons {check : S → A → Bool} {s : S} {a : A} {as : List A}
    (h : checkVisits step check s (a :: as) = true) :
    check s a = true ∧
      ∀ s', step s a = .ok s' → checkVisits step check s' as = true := by
  rw [checkVisits, Bool.and_eq_true] at h
  refine ⟨h.1, fun s' stepped => ?_⟩
  have rest := h.2
  rw [stepped] at rest
  exact rest

theorem checkVisits_visit {check : S → A → Bool} {s t : S} {as : List A} {a : A}
    (h : checkVisits step check s as = true) (v : Visit step s as t a) : check t a = true := by
  obtain ⟨pre, isPre, ran⟩ := v
  induction pre generalizing s as with
  | nil =>
      cases ran
      obtain ⟨post, rfl⟩ := isPre
      exact (checkVisits_cons h).1
  | cons p pre ih =>
      obtain ⟨post, rfl⟩ := isPre
      obtain ⟨s', stepped, ran'⟩ := run_cons_eq_ok ran
      exact ih ((checkVisits_cons h).2 s' stepped) ⟨post, rfl⟩ ran'

/-- What each guarded step preserves, a run that keeps the guard preserves. -/
theorem run_invariant {I : S → Prop} {G : S → A → Prop} {s t : S} {as : List A}
    (init : I s)
    (keep : ∀ {u a u'}, I u → G u a → step u a = .ok u' → I u')
    (guarded : ∀ u a, Visit step s as u a → G u a)
    (ok : run step s as = .ok t) : I t := by
  induction as using List.reverseRecOn generalizing t with
  | nil =>
      cases ok
      exact init
  | append_singleton as a ih =>
      obtain ⟨u, ran, stepped⟩ := run_snoc_eq_ok ok
      have before : I u :=
        ih (fun v b visit => guarded v b (visit.of_prefix (List.prefix_append as [a]))) ran
      exact keep before (guarded u a ⟨as, List.prefix_refl _, ran⟩) stepped

/-- A relation to a pure step that every step keeps: no run of the machine stops, and it ends
where the fold does. -/
theorem run_simulates {T : Type*} {R : S → T → Prop} {f : T → A → T}
    (simulates : ∀ s t a, R s t → ∃ s', step s a = .ok s' ∧ R s' (f t a)) {s : S} {t : T}
    (related : R s t) (as : List A) :
    ∃ s', run step s as = .ok s' ∧ R s' (as.foldl f t) := by
  induction as generalizing s t with
  | nil => exact ⟨s, rfl, related⟩
  | cons a as ih =>
      obtain ⟨s', stepped, related'⟩ := simulates s t a related
      obtain ⟨u, ran, ended⟩ := ih related'
      refine ⟨u, ?_, ended⟩
      rw [run_cons_ok stepped]
      exact ran

/-- The invariant of a guarded run holds in every state the run reaches. -/
theorem reached_invariant {I : S → Prop} {G : S → A → Prop} {s t : S} {as : List A}
    (init : I s)
    (keep : ∀ {u a u'}, I u → G u a → step u a = .ok u' → I u')
    (guarded : ∀ u a, Visit step s as u a → G u a)
    (reached : Reached step s as t) : I t := by
  obtain ⟨pre, isPre, ran⟩ := reached
  exact run_invariant init keep (fun u a visit => guarded u a (visit.of_prefix isPre)) ran

/-- What every step preserves, a run preserves. -/
theorem run_keeps {I : S → Prop} {s t : S} {as : List A} (init : I s)
    (keep : ∀ {u a u'}, I u → step u a = .ok u' → I u') (ok : run step s as = .ok t) : I t :=
  run_invariant (G := fun _ _ => True) init (fun inv _ stepped => keep inv stepped)
    (fun _ _ _ => trivial) ok

/-- It holds in every state the run reaches. -/
theorem reached_keeps {I : S → Prop} {s t : S} {as : List A} (init : I s)
    (keep : ∀ {u a u'}, I u → step u a = .ok u' → I u') (reached : Reached step s as t) : I t := by
  obtain ⟨pre, -, ran⟩ := reached
  exact run_keeps init keep ran

/-- A run keeps its guard exactly when it is safe throughout: guarded steps keep
the invariant, the invariant is safe, and a step against the guard is not. -/
theorem forall_reached_iff_forall_visit {I P : S → Prop} {G : S → A → Prop}
    {s u : S} {as : List A} (init : I s)
    (keep : ∀ {t a t'}, I t → G t a → step t a = .ok t' → I t')
    (safe : ∀ {t}, I t → P t)
    (break_ : ∀ {t a t'}, I t → ¬ G t a → step t a = .ok t' → ¬ P t')
    (ok : run step s as = .ok u) :
    (∀ t, Reached step s as t → P t) ↔ ∀ t a, Visit step s as t a → G t a := by
  constructor
  · intro allSafe
    have prefixInv : ∀ pre t, pre <+: as → run step s pre = .ok t →
        I t ∧ ∀ v b, Visit step s pre v b → G v b := by
      intro pre
      -- the first visit against the guard would leave an unsafe state
      induction pre using List.reverseRecOn with
      | nil =>
          intro t _ ran
          cases ran
          refine ⟨init, ?_⟩
          rintro v b ⟨p, isPre, _⟩
          exact absurd (List.prefix_nil.mp isPre) (by simp)
      | append_singleton pre a ih =>
          intro t isPre ran
          obtain ⟨v, ran', stepped⟩ := run_snoc_eq_ok ran
          obtain ⟨invV, visits⟩ := ih v ((List.prefix_append pre [a]).trans isPre) ran'
          have guard : G v a := by
            by_contra bad
            exact break_ invV bad stepped (allSafe t ⟨_, isPre, ran⟩)
          refine ⟨keep invV guard stepped, ?_⟩
          rintro w b ⟨p, isPre', ranP⟩
          rcases List.prefix_concat_iff.mp isPre' with same | shorter
          · obtain ⟨rfl, sameLast⟩ := List.append_inj' same rfl
            cases sameLast
            rw [ran'] at ranP
            cases ranP
            exact guard
          · exact visits w b ⟨p, shorter, ranP⟩
    intro t a visit
    exact (prefixInv as u (List.prefix_refl as) ok).2 t a visit
  · intro guarded t reached
    exact safe (reached_invariant init keep guarded reached)

/-! ## Two runs of the same actions -/

section Both

variable {T : Type u} {step₂ : T → A → Except ε T}

/-- Two machines that take every action together. -/
def both (step : S → A → Except ε S) (step₂ : T → A → Except ε T) (p : S × T) (a : A) :
    Except ε (S × T) :=
  step p.1 a >>= fun s => step₂ p.2 a >>= fun t => .ok (s, t)

theorem both_eq_ok {p q : S × T} {a : A} :
    both step step₂ p a = .ok q ↔ step p.1 a = .ok q.1 ∧ step₂ p.2 a = .ok q.2 := by
  constructor
  · intro h
    obtain ⟨s, stepped, rest⟩ := bind_eq_ok h
    obtain ⟨t, stepped₂, done⟩ := bind_eq_ok rest
    cases done
    exact ⟨stepped, stepped₂⟩
  · intro given
    rcases given with ⟨stepped, stepped₂⟩
    rw [both, stepped]
    change (step₂ p.2 a >>= fun t => .ok (q.1, t)) = _
    rw [stepped₂]
    rfl

/-- Together they run as each does alone. -/
theorem run_both_eq_ok {p q : S × T} {as : List A} :
    run (both step step₂) p as = .ok q ↔
      run step p.1 as = .ok q.1 ∧ run step₂ p.2 as = .ok q.2 := by
  induction as generalizing p with
  | nil =>
      simp only [run_nil, Except.ok.injEq]
      exact Prod.ext_iff
  | cons a as ih =>
      constructor
      · intro h
        obtain ⟨r, stepped, rest⟩ := run_cons_eq_ok h
        obtain ⟨first, second⟩ := both_eq_ok.mp stepped
        obtain ⟨ran, ran₂⟩ := ih.mp rest
        rw [run_cons_ok first, run_cons_ok second]
        exact ⟨ran, ran₂⟩
      · intro given
        rcases given with ⟨ran, ran₂⟩
        obtain ⟨s, stepped, rest⟩ := run_cons_eq_ok ran
        obtain ⟨t, stepped₂, rest₂⟩ := run_cons_eq_ok ran₂
        have stepped' : both step step₂ p a = .ok (s, t) := both_eq_ok.mpr ⟨stepped, stepped₂⟩
        rw [run_cons_ok stepped']
        exact ih.mpr ⟨rest, rest₂⟩

/-- A visit of one of two successful runs is a visit of both. -/
theorem Visit.both {p q : S × T} {as : List A} {t : S} {a : A}
    (ok : run (both step step₂) p as = .ok q) (v : Visit step p.1 as t a) :
    ∃ t₂, Visit (Runs.both step step₂) p as (t, t₂) a := by
  obtain ⟨pre, ⟨post, rfl⟩, ran⟩ := v
  rw [List.append_assoc] at ok
  obtain ⟨r, ranBoth, -⟩ := run_append_eq_ok ok
  have same := (run_both_eq_ok.mp ranBoth).1
  rw [ran] at same
  cases same
  exact ⟨r.2, pre, ⟨post, rfl⟩, ranBoth⟩

theorem Visit.of_both {p : S × T} {as : List A} {t : S × T} {a : A}
    (v : Visit (Runs.both step step₂) p as t a) : Visit step p.1 as t.1 a := by
  obtain ⟨pre, isPre, ran⟩ := v
  exact ⟨pre, isPre, (run_both_eq_ok.mp ran).1⟩

end Both

/-- Two runs of the same actions keep what every two steps of the same action keep. -/
theorem run_related {R : S → S → Prop} {s t s' t' : S} {as : List A}
    (keeps : ∀ u v a u' v', R u v → step u a = .ok u' → step v a = .ok v' → R u' v')
    (related : R s t) (ran : run step s as = .ok s') (ran' : run step t as = .ok t') : R s' t' := by
  induction as generalizing s t with
  | nil =>
      cases ran
      cases ran'
      exact related
  | cons a as ih =>
      obtain ⟨u, stepped, rest⟩ := run_cons_eq_ok ran
      obtain ⟨v, stepped', rest'⟩ := run_cons_eq_ok ran'
      exact ih (keeps s t a u v related stepped stepped') rest rest'

/-! ## Parts of the state that are overwritten -/

/-- The last of the values that some actions write. -/
def lastWrite {B : Type*} (writes : A → Option B) (as : List A) : Option B :=
  (as.filterMap writes).getLast?

/-- What each action overwrites or leaves is at the end what was written last. -/
theorem run_lastWrite {B : Type*} {part : S → B} {writes : A → Option B} {s t : S} {as : List A}
    (steps : ∀ s a s', step s a = .ok s' → part s' = (writes a).getD (part s))
    (ok : run step s as = .ok t) : part t = (lastWrite writes as).getD (part s) := by
  unfold lastWrite
  induction as using List.reverseRecOn generalizing t with
  | nil =>
      cases ok
      rfl
  | append_singleton as a ih =>
      obtain ⟨u, ran, stepped⟩ := run_snoc_eq_ok ok
      rw [steps u a t stepped, List.filterMap_append]
      cases wrote : writes a with
      | none => simpa [wrote] using ih ran
      | some b => simp [wrote]

theorem lastWrite_eq_none {B : Type*} {writes : A → Option B} {as : List A} :
    lastWrite writes as = none ↔ ∀ a ∈ as, writes a = none := by
  rw [lastWrite, List.getLast?_eq_none_iff, List.filterMap_eq_nil_iff]

/-! ## Steps that use up a budget -/

section Budget

variable (step)

variable {used : S → Nat} {cost : A → Nat} {budget : Nat} {Fits : A → Prop}

/-- What a run has used at its end. -/
theorem run_used {s t : S} {as : List A}
    (adds : ∀ s a s', step s a = .ok s' → used s' = used s + cost a)
    (ok : run step s as = .ok t) : used t = used s + (as.map cost).sum := by
  induction as generalizing s with
  | nil =>
      cases ok
      rfl
  | cons a as ih =>
      obtain ⟨s', stepped, rest⟩ := run_cons_eq_ok ok
      rw [ih rest, adds _ _ _ stepped, List.map_cons, List.sum_cons, Nat.add_assoc]

/-- A run succeeds exactly when each of its actions fits and the budget does for them. -/
theorem run_isOk_iff_budget {s : S} {as : List A}
    (adds : ∀ s a s', step s a = .ok s' → used s' = used s + cost a)
    (steps : ∀ s a, used s ≤ budget →
      ((∃ s', step s a = .ok s') ↔ Fits a ∧ used s + cost a ≤ budget))
    (start : used s ≤ budget) :
    (∃ t, run step s as = .ok t) ↔
      (∀ a ∈ as, Fits a) ∧ used s + (as.map cost).sum ≤ budget := by
  induction as generalizing s with
  | nil =>
      refine iff_of_true ⟨s, rfl⟩ ⟨fun a mem => ?_, start⟩
      cases mem
  | cons a as ih =>
      rw [List.forall_mem_cons, List.map_cons, List.sum_cons, ← Nat.add_assoc]
      constructor
      · intro given
        rcases given with ⟨t, ran⟩
        obtain ⟨s', stepped, rest⟩ := run_cons_eq_ok ran
        obtain ⟨fits, below⟩ := (steps s a start).mp ⟨s', stepped⟩
        rw [← adds _ _ _ stepped] at below ⊢
        obtain ⟨all, total⟩ := (ih below).mp ⟨t, rest⟩
        exact ⟨⟨fits, all⟩, total⟩
      · intro given
        rcases given with ⟨⟨fits, all⟩, total⟩
        obtain ⟨s', stepped⟩ := (steps s a start).mpr ⟨fits, by omega⟩
        rw [run_cons_ok stepped]
        rw [← adds _ _ _ stepped] at total
        exact (ih (by omega)).mpr ⟨all, total⟩

end Budget

end Runs
