import Mathlib.Data.List.Basic
import Mathlib.Data.List.Induction
import Mathlib.Logic.Function.Basic

/-!
# Masked calls

The frame of a generated wrapper (`bin/make_wrappers`): the nesting flag IPM_MPI_INSIDE,
the masks CALL_OPT_PASS and CALL_OPT_NOOP, the call of the PMPI function, the event that is
logged.  With IPM_DISABLE_DYNWRAP the wrapper tests the masks itself; without it,
`MPI_Init` binds each call to the wrapper, to the PMPI function or to a function that does
nothing.  The PMPI function of a call may make MPI calls of its own.

* `runForest_inside`, `runCall_unmasked`, `runCall_masked`: what a call does inside and
  outside of another one.
* `wrappersAgree_iff`: the two builds agree exactly when no outermost call is masked, and no
  nested one is masked by CALL_OPT_NOOP alone.
-/

namespace Ipm

def callOptPass : Nat := 1 <<< 49
def callOptNoop : Nat := 1 <<< 50

/-- The calls made by the PMPI functions of some calls: the first call, those made from
inside of it, and the calls after it. -/
inductive CallForest
  | nil
  | cons (call : Nat) (nested rest : CallForest)

/-- A call of the application, and the calls made from inside of it. -/
structure MpiCall where
  call : Nat
  nested : CallForest

/-- The build with IPM_DISABLE_DYNWRAP, and the one without. -/
inductive WrapBuild
  | disableDynwrap
  | dynwrap
deriving DecidableEq

/-- IPM_MPI_INSIDE, the static `ipm_entry` of every wrapper, the calls forwarded to PMPI and
the events logged. -/
structure WrapState where
  inside : Bool
  entry : Nat → Bool
  forwarded : List Nat
  logged : List Nat

/-- The state `MPI_Init` leaves. -/
def WrapState.init : WrapState := ⟨false, fun _ => false, [], []⟩

/-! ## The wrapper -/

section

variable (callMask : Nat → Nat)

def optPass (call : Nat) : Bool := callMask call &&& callOptPass ≠ 0

def optNoop (call : Nat) : Bool := callMask call &&& callOptNoop ≠ 0

/-- The prologue of a wrapper that is not inside another one. -/
def enterWrapper (call : Nat) (s : WrapState) : WrapState :=
  { s with inside := true, entry := Function.update s.entry call true }

/-- The event is logged, and the epilogue. -/
def leaveWrapper (call : Nat) (s : WrapState) : WrapState :=
  let s := { s with logged := s.logged ++ [call] }
  if s.inside && s.entry call then
    { s with inside := false, entry := Function.update s.entry call false }
  else s

/-- A wrapper; `masking` is the section that only IPM_DISABLE_DYNWRAP compiles in, and
`pmpi` the effect of the PMPI function. -/
def wrapper (masking : Bool) (call : Nat) (pmpi : WrapState → WrapState) (s : WrapState) :
    WrapState :=
  if s.inside then pmpi s
  else
    let s := enterWrapper call s
    if masking && optNoop callMask call then s
    else if masking && optPass callMask call then pmpi s
    else leaveWrapper call (pmpi s)

/-- An MPI call: the wrapper, or what `ipm_mpi_link` has bound the call to. -/
def mpiCall (b : WrapBuild) (call : Nat) (pmpi : WrapState → WrapState) (s : WrapState) :
    WrapState :=
  match b with
  | .disableDynwrap => wrapper callMask true call pmpi s
  | .dynwrap =>
      if optPass callMask call then pmpi s
      else if optNoop callMask call then s
      else wrapper callMask false call pmpi s

/-- The PMPI function is called. -/
def WrapState.forward (s : WrapState) (call : Nat) : WrapState :=
  { s with forwarded := s.forwarded ++ [call] }

/-- The calls of a forest, one after the other. -/
def runForest (b : WrapBuild) : CallForest → WrapState → WrapState
  | .nil, s => s
  | .cons call nested rest, s =>
      runForest b rest (mpiCall callMask b call (fun s => runForest b nested (s.forward call)) s)

/-- A call of the application. -/
def runCall (b : WrapBuild) (s : WrapState) (t : MpiCall) : WrapState :=
  mpiCall callMask b t.call (fun s => runForest callMask b t.nested (s.forward t.call)) s

/-- The calls of the application after `MPI_Init`. -/
def runCalls (b : WrapBuild) (ts : List MpiCall) : WrapState :=
  ts.foldl (runCall callMask b) .init

/-! ## Inside a wrapper -/

/-- The calls of a forest that are forwarded inside a wrapper: the wrapper of one build
forwards all of them, the bindings of the other leave out what is bound to do nothing, with
all that would have been called from there. -/
def forwardedInside (b : WrapBuild) : CallForest → List Nat
  | .nil => []
  | .cons call nested rest =>
      (if b = .dynwrap ∧ optPass callMask call = false ∧ optNoop callMask call = true then []
        else call :: forwardedInside b nested) ++ forwardedInside b rest

variable {callMask}

/-- Inside a wrapper calls are forwarded and nothing else. -/
theorem runForest_inside (b : WrapBuild) (f : CallForest) {s : WrapState}
    (inside : s.inside = true) : runForest callMask b f s =
      { s with forwarded := s.forwarded ++ forwardedInside callMask b f } := by
  induction f generalizing s with
  | nil =>
      rw [runForest, forwardedInside, List.append_nil]
  | cons call nested rest ihNested ihRest =>
      have pmpi : runForest callMask b nested (s.forward call) =
          { s with forwarded := s.forwarded ++ (call :: forwardedInside callMask b nested) } := by
        have inside' : (s.forward call).inside = true := inside
        rw [ihNested inside', WrapState.forward, List.append_assoc, List.singleton_append]
      have head : mpiCall callMask b call
          (fun s => runForest callMask b nested (s.forward call)) s =
          { s with forwarded := s.forwarded ++
            (if b = .dynwrap ∧ optPass callMask call = false ∧ optNoop callMask call = true then []
              else call :: forwardedInside callMask b nested) } := by
        unfold mpiCall wrapper
        cases b with
        | disableDynwrap =>
            simp only [inside, if_true, pmpi, reduceCtorEq, false_and, if_false]
        | dynwrap =>
            cases pass : optPass callMask call with
            | true => simp [pmpi]
            | false =>
                cases noop : optNoop callMask call with
                | true => simp
                | false => simp [inside, pmpi]
      rw [runForest, head, ihRest, forwardedInside, List.append_assoc]
      exact inside

variable (callMask) in
/-- The bindings never forward more than the wrapper. -/
theorem length_forwardedInside (f : CallForest) :
    (forwardedInside callMask .dynwrap f).length ≤
      (forwardedInside callMask .disableDynwrap f).length := by
  induction f with
  | nil => exact Nat.le_refl _
  | cons call nested rest ihNested ihRest =>
      simp only [forwardedInside, List.length_append, true_and, reduceCtorEq, false_and, if_false]
      split
      · rw [List.length_nil, Nat.zero_add]
        exact Nat.le_trans ihRest (Nat.le_add_left _ _)
      · simp only [List.length_cons]
        omega

variable (callMask) in
/-- No call of the forest is masked by CALL_OPT_NOOP alone. -/
def Forwards : CallForest → Prop
  | .nil => True
  | .cons call nested rest =>
      (optNoop callMask call = true → optPass callMask call = true) ∧ Forwards nested ∧
        Forwards rest

/-- The bindings forward as much as the wrapper exactly when no call is left out. -/
theorem length_forwardedInside_iff (f : CallForest) :
    (forwardedInside callMask .dynwrap f).length =
      (forwardedInside callMask .disableDynwrap f).length ↔ Forwards callMask f := by
  induction f with
  | nil => simp [forwardedInside, Forwards]
  | cons call nested rest ihNested ihRest =>
      have leNested := length_forwardedInside callMask nested
      have leRest := length_forwardedInside callMask rest
      rw [Forwards, ← ihNested, ← ihRest]
      simp only [forwardedInside, List.length_append, true_and, reduceCtorEq, false_and, if_false]
      split
      · rename_i out
        rw [List.length_nil, List.length_cons]
        constructor
        · intro same
          omega
        · intro all
          rw [out.1] at all
          exact absurd (all.1 out.2) Bool.false_ne_true
      · rename_i kept
        rw [List.length_cons, List.length_cons]
        constructor
        · intro same
          refine ⟨fun noop => ?_, by omega, by omega⟩
          by_contra notPass
          exact kept ⟨Bool.not_eq_true _ ▸ notPass, noop⟩
        · intro all
          omega

/-- Then they forward the same calls. -/
theorem forwardedInside_eq {f : CallForest} (forwards : Forwards callMask f) :
    forwardedInside callMask .dynwrap f = forwardedInside callMask .disableDynwrap f := by
  induction f with
  | nil => rfl
  | cons call nested rest ihNested ihRest =>
      obtain ⟨head, forwardsNested, forwardsRest⟩ := forwards
      have kept : ¬(optPass callMask call = false ∧ optNoop callMask call = true) := by
        intro out
        have pass := head out.2
        rw [out.1] at pass
        cases pass
      simp only [forwardedInside, true_and, kept, reduceCtorEq, false_and, if_false,
        ihNested forwardsNested, ihRest forwardsRest]

/-! ## Outermost calls -/

/-- An outermost call that is not masked is forwarded with those made from inside of it,
logged, and leaves IPM_MPI_INSIDE clear. -/
theorem runCall_unmasked (b : WrapBuild) {s : WrapState} {t : MpiCall}
    (outside : s.inside = false) (pass : optPass callMask t.call = false)
    (noop : optNoop callMask t.call = false) :
    runCall callMask b s t =
      ⟨false, Function.update s.entry t.call false,
        s.forwarded ++ (t.call :: forwardedInside callMask b t.nested), s.logged ++ [t.call]⟩ := by
  have inside : ((enterWrapper t.call s).forward t.call).inside = true := rfl
  have wrapped : ∀ masking, wrapper callMask masking t.call
      (fun s => runForest callMask b t.nested (s.forward t.call)) s =
      ⟨false, Function.update s.entry t.call false,
        s.forwarded ++ (t.call :: forwardedInside callMask b t.nested),
        s.logged ++ [t.call]⟩ := by
    intro masking
    rw [wrapper, if_neg (by rw [outside]; exact Bool.false_ne_true)]
    simp only [pass, noop, Bool.and_false, Bool.false_eq_true, if_false,
      runForest_inside b t.nested inside]
    simp [leaveWrapper, enterWrapper, WrapState.forward]
  unfold runCall mpiCall
  cases b with
  | disableDynwrap => exact wrapped true
  | dynwrap => simp only [pass, noop, Bool.false_eq_true, if_false, wrapped false]

/-- An outermost masked call of the build with IPM_DISABLE_DYNWRAP leaves IPM_MPI_INSIDE
set: it returns before the epilogue. -/
theorem runCall_masked {s : WrapState} {t : MpiCall} (outside : s.inside = false)
    (masked : optNoop callMask t.call = true ∨ optPass callMask t.call = true) :
    (runCall callMask .disableDynwrap s t).inside = true := by
  have inside : ((enterWrapper t.call s).forward t.call).inside = true := rfl
  unfold runCall mpiCall wrapper
  simp only [outside, Bool.false_eq_true, if_false, Bool.true_and]
  cases noop : optNoop callMask t.call with
  | true => rfl
  | false =>
      have pass : optPass callMask t.call = true := by
        rcases masked with noop' | pass
        · rw [noop] at noop'
          cases noop'
        · exact pass
      simp only [pass, Bool.false_eq_true, if_false, if_true, runForest_inside _ _ inside]
      rfl

variable (callMask) in
/-- No outermost call is masked. -/
def Unmasked (ts : List MpiCall) : Prop :=
  ∀ t ∈ ts, optPass callMask t.call = false ∧ optNoop callMask t.call = false

/-- A run without masked outermost calls. -/
theorem runCalls_unmasked (b : WrapBuild) {ts : List MpiCall} (unmasked : Unmasked callMask ts) :
    (runCalls callMask b ts).inside = false ∧
      (runCalls callMask b ts).forwarded =
        ts.flatMap (fun t => t.call :: forwardedInside callMask b t.nested) ∧
      (runCalls callMask b ts).logged = ts.map MpiCall.call := by
  induction ts using List.reverseRecOn with
  | nil => exact ⟨rfl, rfl, rfl⟩
  | append_singleton pre t ih =>
      have here := unmasked t (by simp)
      obtain ⟨inside, forwarded, logged⟩ := ih fun t' mem => unmasked t' (by simp [mem])
      have step : runCalls callMask b (pre ++ [t]) =
          runCall callMask b (runCalls callMask b pre) t := by
        rw [runCalls, List.foldl_append]
        rfl
      rw [step, runCall_unmasked b inside here.1 here.2, forwarded, logged]
      exact ⟨rfl, by simp, by simp⟩

/-! ## The two builds -/

variable (callMask) in
/-- The builds agree on a run, an outermost unmasked call is logged once and nothing else is
logged meanwhile, and IPM_MPI_INSIDE is clear between the calls. -/
structure WrappersAgree (ts : List MpiCall) : Prop where
  forwarded : (runCalls callMask .dynwrap ts).forwarded =
    (runCalls callMask .disableDynwrap ts).forwarded
  logged : (runCalls callMask .dynwrap ts).logged =
    (runCalls callMask .disableDynwrap ts).logged
  once : ∀ b pre t, pre ++ [t] <+: ts → optPass callMask t.call = false →
    optNoop callMask t.call = false →
    (runCalls callMask b (pre ++ [t])).logged = (runCalls callMask b pre).logged ++ [t.call]
  clear : ∀ b pre, pre <+: ts → (runCalls callMask b pre).inside = false

/-- The flag stays clear only when no outermost call is masked. -/
theorem unmasked_of_clear {ts : List MpiCall}
    (clear : ∀ pre, pre <+: ts → (runCalls callMask .disableDynwrap pre).inside = false) :
    Unmasked callMask ts := by
  intro t mem
  obtain ⟨pre, post, rfl⟩ := List.append_of_mem mem
  have before := clear pre (List.prefix_append _ _)
  have after := clear (pre ++ [t]) ⟨post, by simp⟩
  rw [runCalls, List.foldl_append] at after
  by_contra masked
  have masked' : optNoop callMask t.call = true ∨ optPass callMask t.call = true := by
    cases pass : optPass callMask t.call <;> cases noop : optNoop callMask t.call <;> simp_all
  have set := runCall_masked before masked'
  exact Bool.false_ne_true (after.symm.trans set)

/-- Sums of lengths that are termwise at most those of another agree only termwise. -/
theorem forwards_of_forwarded {ts : List MpiCall}
    (same : ts.flatMap (fun t => t.call :: forwardedInside callMask .dynwrap t.nested) =
      ts.flatMap (fun t => t.call :: forwardedInside callMask .disableDynwrap t.nested)) :
    ∀ t ∈ ts, Forwards callMask t.nested := by
  induction ts with
  | nil => exact fun t mem => absurd mem List.not_mem_nil
  | cons t ts ih =>
      have total : ∀ us : List MpiCall,
          (us.flatMap fun t => t.call :: forwardedInside callMask .dynwrap t.nested).length ≤
          (us.flatMap fun t => t.call ::
            forwardedInside callMask .disableDynwrap t.nested).length := by
        intro us
        induction us with
        | nil => exact Nat.le_refl _
        | cons u us ih =>
            have le := length_forwardedInside callMask u.nested
            simp only [List.flatMap_cons, List.length_append, List.length_cons]
            omega
      have lengths := congrArg List.length same
      have leHead := length_forwardedInside callMask t.nested
      have leTail := total ts
      simp only [List.flatMap_cons, List.length_append, List.length_cons] at lengths
      have head : Forwards callMask t.nested := (length_forwardedInside_iff t.nested).1 (by omega)
      rw [List.flatMap_cons, List.flatMap_cons, forwardedInside_eq head,
        List.append_cancel_left_eq] at same
      intro t' mem
      rcases List.mem_cons.1 mem with rfl | mem
      · exact head
      · exact ih same t' mem

variable (callMask) in
/-- The two builds agree on a run exactly when none of its outermost calls is masked, and
no nested one by CALL_OPT_NOOP alone. -/
theorem wrappersAgree_iff (ts : List MpiCall) : WrappersAgree callMask ts ↔
    ∀ t ∈ ts, optPass callMask t.call = false ∧ optNoop callMask t.call = false ∧
      Forwards callMask t.nested := by
  constructor
  · intro agree
    have unmasked := unmasked_of_clear (agree.clear .disableDynwrap)
    have same := agree.forwarded
    rw [(runCalls_unmasked _ unmasked).2.1, (runCalls_unmasked _ unmasked).2.1] at same
    exact fun t mem => ⟨(unmasked t mem).1, (unmasked t mem).2, forwards_of_forwarded same t mem⟩
  · intro all
    have unmasked : Unmasked callMask ts := fun t mem => ⟨(all t mem).1, (all t mem).2.1⟩
    have part : ∀ {pre}, pre <+: ts → Unmasked callMask pre :=
      fun sub t mem => unmasked t (sub.subset mem)
    exact {
      forwarded := by
        rw [(runCalls_unmasked _ unmasked).2.1, (runCalls_unmasked _ unmasked).2.1]
        refine List.flatMap_congr fun t mem => ?_
        rw [forwardedInside_eq (all t mem).2.2]
      logged := by rw [(runCalls_unmasked _ unmasked).2.2, (runCalls_unmasked _ unmasked).2.2]
      once := by
        intro b pre t sub _ _
        rw [(runCalls_unmasked b (part sub)).2.2,
          (runCalls_unmasked b (part ((List.prefix_append _ _).trans sub))).2.2,
          List.map_append]
        rfl
      clear := fun b pre sub => (runCalls_unmasked b (part sub)).1 }

/-- A barrier (call 7) masked by CALL_OPT_PASS, and a send (call 1) after it: the build with
IPM_DISABLE_DYNWRAP forwards the barrier, never clears IPM_MPI_INSIDE and does not log the
send, which the other build logs. -/
theorem wrappers_disagree :
    let callMask : Nat → Nat := fun call => if call = 7 then callOptPass else 0
    let ts : List MpiCall := [⟨7, .nil⟩, ⟨1, .nil⟩]
    (runCalls callMask .disableDynwrap ts).inside = true ∧
      (runCalls callMask .disableDynwrap ts).logged = [] ∧
      (runCalls callMask .dynwrap ts).logged = [1] ∧ ¬WrappersAgree callMask ts := by
  intro callMask ts
  have inside : (runCalls callMask .disableDynwrap ts).inside = true := by decide
  refine ⟨inside, by decide, by decide, fun agree => ?_⟩
  rw [agree.clear .disableDynwrap ts (List.prefix_refl _)] at inside
  cases inside

end

end Ipm
