import Mathlib.Logic.Function.Basic
import Mathlib.Order.Basic
import Mathlib.Tactic.Choose

/-!
# Programs of a group of tasks

The tasks of a group run programs that send to and receive from named tasks, take part
in collective operations of the whole group, and act on a world they share.  A message
waits in the channel of its pair; a receive names its source and its tag.  A collective
happens when all tasks have come to the same operation; each gets what all contributed.

* `step_diamond`: if the acts of different tasks commute, the order of two steps does
  not matter.
* `endsIn_of_reaches`: so one run that comes to an end shows that every run, in whatever
  order, comes to that end after as many steps.
* `reaches_transfer`, `reaches_act`, `reaches_collective`: a message passed on, an act
  and a collective, between states with nothing on its way.
* `reaches_ask`, `reaches_answer`: two tasks talking to each other.
* `endsIn_done_iff`: tasks that only take part in collectives come to their ends exactly
  when the sequences of their collectives are the same.
-/

namespace Spmd

/-! ## Steps with the diamond property -/

section Descent

variable {S : Type*} {r : S → S → Prop}

/-- `Steps r n s t`: from `s` to `t` in `n` steps. -/
def Steps (r : S → S → Prop) : Nat → S → S → Prop
  | 0, s, t => s = t
  | n + 1, s, t => ∃ u, r s u ∧ Steps r n u t

/-- From `s` to `t` in some number of steps. -/
def Reaches (r : S → S → Prop) (s t : S) : Prop := ∃ n, Steps r n s t

/-- Nothing is possible any more. -/
def Terminal (r : S → S → Prop) (s : S) : Prop := ∀ t, ¬r s t

/-- Two steps from one state are the same, or can each be completed by the other. -/
def Diamond (r : S → S → Prop) : Prop :=
  ∀ s t u, r s t → r s u → t = u ∨ ∃ v, r t v ∧ r u v

/-- Every run from `s` ends in `z`: none is longer than `n` steps, and each goes on to `z`. -/
def EndsIn (r : S → S → Prop) (s z : S) : Prop :=
  Terminal r z ∧ ∃ n, ∀ m t, Steps r m s t → m ≤ n ∧ Steps r (n - m) t z

theorem Reaches.refl (s : S) : Reaches r s s := ⟨0, rfl⟩

theorem Reaches.one {s t : S} (step : r s t) : Reaches r s t := ⟨1, t, step, rfl⟩

theorem Steps.trans {m n : Nat} {s t u : S} (first : Steps r m s t) (second : Steps r n t u) :
    Steps r (m + n) s u := by
  induction m generalizing s with
  | zero =>
      cases first
      rwa [Nat.zero_add]
  | succ m ih =>
      obtain ⟨v, step, rest⟩ := first
      rw [Nat.succ_add]
      exact ⟨v, step, ih rest⟩

theorem Reaches.trans {s t u : S} (first : Reaches r s t) (second : Reaches r t u) :
    Reaches r s u := by
  obtain ⟨m, first⟩ := first
  obtain ⟨n, second⟩ := second
  exact ⟨m + n, first.trans second⟩

/-- The first step of a run to the end may be any step. -/
theorem Steps.strip (diamond : Diamond r) {n : Nat} {s t z : S} (terminal : Terminal r z)
    (run : Steps r n s z) (step : r s t) : ∃ m, n = m + 1 ∧ Steps r m t z := by
  induction n generalizing s t with
  | zero =>
      cases run
      exact (terminal t step).elim
  | succ n ih =>
      obtain ⟨u, first, rest⟩ := run
      rcases diamond s t u step first with rfl | ⟨v, tv, uv⟩
      · exact ⟨n, rfl, rest⟩
      · obtain ⟨m, rfl, tail⟩ := ih rest uv
        exact ⟨m + 1, rfl, v, tv, tail⟩

/-- One run to the end speaks for all runs. -/
theorem endsIn_of_reaches (diamond : Diamond r) {s z : S} (terminal : Terminal r z)
    (reaches : Reaches r s z) : EndsIn r s z := by
  obtain ⟨n, run⟩ := reaches
  refine ⟨terminal, n, fun m t other => ?_⟩
  induction m generalizing s n with
  | zero =>
      cases other
      exact ⟨Nat.zero_le n, run⟩
  | succ m ih =>
      obtain ⟨u, step, rest⟩ := other
      obtain ⟨k, rfl, tail⟩ := run.strip diamond terminal step
      obtain ⟨le, more⟩ := ih k tail rest
      refine ⟨Nat.succ_le_succ le, ?_⟩
      rwa [Nat.succ_sub_succ]

/-- Runs that end somewhere end nowhere else. -/
theorem EndsIn.unique {s z z' : S} (ends : EndsIn r s z) (reaches : Reaches r s z')
    (terminal : Terminal r z') : z' = z := by
  obtain ⟨_, n, all⟩ := ends
  obtain ⟨m, run⟩ := reaches
  have rest := (all m z' run).2
  generalize n - m = k at rest
  cases k with
  | zero => exact rest
  | succ k =>
      obtain ⟨u, step, _⟩ := rest
      exact (terminal u step).elim

end Descent

/-! ## Programs and their steps -/

variable {ι K C M A W α : Type*}

/-- A program: what a task does next, and how it goes on.  `K` are the collective
operations, `C` what a task contributes to one, `A` the acts on the world. -/
inductive Prog (ι K C M A α : Type*)
  | send (dst : ι) (tag : Nat) (m : M) (k : Prog ι K C M A α)
  | recv (src : ι) (tag : Nat) (k : M → Prog ι K C M A α)
  | coll (op : K) (x : C) (k : (ι → C) → Prog ι K C M A α)
  | act (a : A) (k : Prog ι K C M A α)
  | done (a : α)

/-- The messages on their way, by source and destination, and the world. -/
structure Env (ι M W : Type*) where
  chan : ι × ι → List (Nat × M)
  world : W

/-- The tasks and what is around them. -/
structure Net (ι K C M A W α : Type*) where
  prog : ι → Prog ι K C M A α
  env : Env ι M W

/-- A state with no message on its way. -/
def quiet (prog : ι → Prog ι K C M A α) (world : W) : Net ι K C M A W α where
  prog := prog
  env := ⟨fun _ => [], world⟩

@[simp] theorem quiet_prog (prog : ι → Prog ι K C M A α) (world : W) :
    (quiet prog world).prog = prog := rfl

variable [DecidableEq ι]

namespace Env

/-- A message is put on its way. -/
def push (e : Env ι M W) (pair : ι × ι) (x : Nat × M) : Env ι M W :=
  ⟨Function.update e.chan pair (e.chan pair ++ [x]), e.world⟩

/-- The next message of a pair with this tag. -/
def next (e : Env ι M W) (pair : ι × ι) (tag : Nat) : Option (Nat × M) :=
  (e.chan pair).find? fun x => x.1 == tag

/-- The next message of a pair with this tag is taken away. -/
def pop (e : Env ι M W) (pair : ι × ι) (tag : Nat) : Env ι M W :=
  ⟨Function.update e.chan pair ((e.chan pair).eraseP fun x => x.1 == tag), e.world⟩

variable {e : Env ι M W} {pair pair' : ι × ι} {x y : Nat × M} {tag tag' : Nat}

theorem push_comm (apart : pair ≠ pair') :
    (e.push pair x).push pair' y = (e.push pair' y).push pair x := by
  simp only [push, Function.update_of_ne apart, Function.update_of_ne apart.symm,
    Function.update_comm apart]

theorem pop_comm (apart : pair ≠ pair') :
    (e.pop pair tag).pop pair' tag' = (e.pop pair' tag').pop pair tag := by
  simp only [pop, Function.update_of_ne apart, Function.update_of_ne apart.symm,
    Function.update_comm apart]

theorem next_pop (apart : pair ≠ pair') : (e.pop pair tag).next pair' tag' = e.next pair' tag' := by
  simp only [pop, next, Function.update_of_ne apart.symm]

/-- A message that is there stays the next one when more are put behind it. -/
theorem next_push (first : e.next pair tag = some y) : (e.push pair' x).next pair tag = some y := by
  unfold next at first
  rcases eq_or_ne pair pair' with rfl | apart
  · simp only [push, next, Function.update_self, List.find?_append, first, Option.some_or]
  · simp only [push, next, Function.update_of_ne apart, first]

theorem pop_push (first : e.next pair tag = some y) :
    (e.push pair' x).pop pair tag = (e.pop pair tag).push pair' x := by
  unfold next at first
  rcases eq_or_ne pair pair' with rfl | apart
  · have erased := List.eraseP_append_left (List.find?_some first) [x]
      (List.mem_of_find?_eq_some first)
    simp only [push, pop, Function.update_self, Function.update_idem, erased]
  · simp only [push, pop, Function.update_of_ne apart, Function.update_of_ne apart.symm,
      Function.update_comm apart]

end Env

/-- Task `p` goes on by itself. -/
inductive Local (eff : ι → A → W → W) (p : ι) :
    Prog ι K C M A α → Env ι M W → Prog ι K C M A α → Env ι M W → Prop
  | send {dst : ι} {tag : Nat} {m : M} {k : Prog ι K C M A α} {e f : Env ι M W}
      (after : f = e.push (p, dst) (tag, m)) : Local eff p (.send dst tag m k) e k f
  | recv {src : ι} {tag : Nat} {m : M} {k : M → Prog ι K C M A α} {e f : Env ι M W}
      (first : e.next (src, p) tag = some (tag, m)) (after : f = e.pop (src, p) tag) :
      Local eff p (.recv src tag k) e (k m) f
  | act {a : A} {k : Prog ι K C M A α} {e f : Env ι M W}
      (after : f = ⟨e.chan, eff p a e.world⟩) : Local eff p (.act a k) e k f

/-- One step of the group: of one task, or of all of them together. -/
inductive Step (eff : ι → A → W → W) (joint : K → (ι → C) → W → W) :
    Net ι K C M A W α → Net ι K C M A W α → Prop
  | one {s : Net ι K C M A W α} {p : ι} {k : Prog ι K C M A α} {e : Env ι M W}
      (goes : Local eff p (s.prog p) s.env k e) :
      Step eff joint s ⟨Function.update s.prog p k, e⟩
  | all {s : Net ι K C M A W α} {op : K} {x : ι → C} {k : ι → (ι → C) → Prog ι K C M A α}
      (at_ : ∀ p, s.prog p = .coll op (x p) (k p)) :
      Step eff joint s ⟨fun p => k p x, s.env.chan, joint op x s.env.world⟩

/-- The acts of different tasks do not disturb each other. -/
def ActsCommute (eff : ι → A → W → W) : Prop :=
  ∀ p q, p ≠ q → ∀ a b w, eff p a (eff q b w) = eff q b (eff p a w)

variable {eff : ι → A → W → W} {joint : K → (ι → C) → W → W}

/-! ## The order of two steps -/

theorem Local.deterministic {p : ι} {x y y' : Prog ι K C M A α} {e f f' : Env ι M W}
    (goes : Local eff p x e y f) (goes' : Local eff p x e y' f') : y = y' ∧ f = f' := by
  cases goes with
  | send after =>
      cases goes' with
      | send after' => exact ⟨rfl, after.trans after'.symm⟩
  | recv first after =>
      cases goes' with
      | recv first' after' =>
          rw [first] at first'
          cases first'
          exact ⟨rfl, after.trans after'.symm⟩
  | act after =>
      cases goes' with
      | act after' => exact ⟨rfl, after.trans after'.symm⟩

/-- Two tasks may go on in either order. -/
theorem Local.commute (commute : ActsCommute eff) {p q : ι} (apart : p ≠ q)
    {x x' y y' : Prog ι K C M A α} {e f g : Env ι M W} (left : Local eff p x e x' f)
    (right : Local eff q y e y' g) :
    ∃ h, Local eff q y f y' h ∧ Local eff p x g x' h := by
  have sources (a b : ι) : (p, a) ≠ (q, b) := fun same => apart (Prod.mk.inj same).1
  have targets (a b : ι) : (a, p) ≠ (b, q) := fun same => apart (Prod.mk.inj same).2
  cases left with
  | send after =>
      subst after
      cases right with
      | send after' =>
          subst after'
          exact ⟨_, .send rfl, .send (Env.push_comm (sources _ _))⟩
      | recv first after' =>
          subst after'
          exact ⟨_, .recv (Env.next_push first) rfl, .send (Env.pop_push first)⟩
      | act after' =>
          subst after'
          exact ⟨_, .act rfl, .send rfl⟩
  | recv first after =>
      subst after
      cases right with
      | send after' =>
          subst after'
          exact ⟨_, .send rfl, .recv (Env.next_push first) (Env.pop_push first).symm⟩
      | recv first' after' =>
          subst after'
          exact ⟨_, .recv ((Env.next_pop (targets _ _)).trans first') rfl,
            .recv ((Env.next_pop (targets _ _).symm).trans first) (Env.pop_comm (targets _ _))⟩
      | act after' =>
          subst after'
          exact ⟨_, .act rfl, .recv first rfl⟩
  | act after =>
      subst after
      cases right with
      | send after' =>
          subst after'
          exact ⟨_, .send rfl, .act rfl⟩
      | recv first' after' =>
          subst after'
          exact ⟨_, .recv first' rfl, .act rfl⟩
      | act after' =>
          subst after'
          refine ⟨_, .act rfl, .act ?_⟩
          rw [commute q p apart.symm]

/-- Nobody goes on alone from a collective. -/
theorem Local.not_coll {p : ι} {op : K} {x : C} {k : (ι → C) → Prog ι K C M A α}
    {y : Prog ι K C M A α} {e f : Env ι M W} : ¬Local eff p (.coll op x k) e y f := by
  intro goes
  cases goes

/-- The order of two steps does not matter. -/
theorem step_diamond [Nonempty ι] (commute : ActsCommute eff) :
    Diamond (Step (K := K) (C := C) (M := M) (α := α) eff joint) := by
  intro s t u st su
  cases st with
  | @one p x e goes =>
      cases su with
      | @one q y f goes' =>
          rcases eq_or_ne p q with rfl | apart
          · obtain ⟨rfl, rfl⟩ := goes.deterministic goes'
            exact Or.inl rfl
          · obtain ⟨h, right, left⟩ := goes.commute commute apart goes'
            have right' : Local eff q (Function.update s.prog p x q) e y h := by
              rwa [Function.update_of_ne apart.symm]
            have left' : Local eff p (Function.update s.prog q y p) f x h := by
              rwa [Function.update_of_ne apart]
            have both : Step eff joint ⟨Function.update s.prog q y, f⟩ _ := .one left'
            rw [Function.update_comm apart.symm] at both
            exact Or.inr ⟨_, .one right', both⟩
      | all at_ =>
          rw [at_ p] at goes
          exact (Local.not_coll goes).elim
  | @all op x k at_ =>
      cases su with
      | @one q y f goes =>
          rw [at_ q] at goes
          exact (Local.not_coll goes).elim
      | @all op' x' k' at' =>
          have same : ∀ p, op = op' ∧ x p = x' p ∧ k p = k' p := by
            intro p
            have programs := (at_ p).symm.trans (at' p)
            injection programs with sameOp sameX sameK
            exact ⟨sameOp, sameX, sameK⟩
          obtain ⟨p₀⟩ := ‹Nonempty ι›
          obtain rfl := (same p₀).1
          obtain rfl : x = x' := funext fun p => (same p).2.1
          obtain rfl : k = k' := funext fun p => (same p).2.2
          exact Or.inl rfl

/-! ## Runs through states with nothing on its way -/

/-- Nobody can go on alone, and not all are at a collective. -/
theorem terminal_of_blocked {s : Net ι K C M A W α} {p : ι}
    (away : ∀ op x k, s.prog p ≠ .coll op x k)
    (blocked : ∀ q k e, ¬Local eff q (s.prog q) s.env k e) : Terminal (Step eff joint) s := by
  intro t step
  cases step with
  | @one q k e goes => exact blocked q k e goes
  | all at_ => exact away _ _ _ (at_ p)

/-- The programs end here. -/
theorem terminal_of_done [Nonempty ι] {s : Net ι K C M A W α}
    (done : ∀ p, ∃ a, s.prog p = .done a) :
    Terminal (Step eff joint) s := by
  obtain ⟨p⟩ := ‹Nonempty ι›
  refine terminal_of_blocked (p := p) (fun op x k at_ => ?_) fun q k e goes => ?_
  · obtain ⟨a, isDone⟩ := done p
    cases isDone.symm.trans at_
  · obtain ⟨a, isDone⟩ := done q
    rw [isDone] at goes
    cases goes

/-- Nobody receives what has not been sent. -/
theorem Local.not_recv {p src : ι} {tag : Nat} {k : M → Prog ι K C M A α} {y : Prog ι K C M A α}
    {e f : Env ι M W} (empty : e.chan (src, p) = []) : ¬Local eff p (.recv src tag k) e y f := by
  intro goes
  cases goes with
  | recv first _ =>
      rw [Env.next, empty] at first
      cases first

/-- A message is sent and received, and the other tasks stay as they are. -/
theorem reaches_transfer {prog prog' : ι → Prog ι K C M A α} {world : W} {p q : ι} {tag : Nat}
    {m : M} {k : M → Prog ι K C M A α} (apart : p ≠ q)
    (sends : prog p = .send q tag m (prog' p)) (recvs : prog q = .recv p tag k)
    (got : prog' q = k m) (others : ∀ x, x ≠ p → x ≠ q → prog' x = prog x) :
    Reaches (Step eff joint) (quiet prog world) (quiet prog' world) := by
  have send : Local eff p ((quiet prog world).prog p) (quiet prog world).env (prog' p)
      ((quiet prog world).env.push (p, q) (tag, m)) := by
    rw [quiet_prog, sends]
    exact .send rfl
  have recv : Local eff q (Function.update prog p (prog' p) q)
      ((quiet prog world).env.push (p, q) (tag, m)) (k m) (quiet prog world).env := by
    rw [Function.update_of_ne apart.symm, recvs]
    refine .recv ?_ ?_
    · simp [Env.next, Env.push, quiet]
    · simp [Env.pop, Env.push, quiet]
  have after : Function.update (Function.update prog p (prog' p)) q (k m) = prog' := by
    funext x
    rcases eq_or_ne x q with rfl | notQ
    · rw [Function.update_self, got]
    · rw [Function.update_of_ne notQ]
      rcases eq_or_ne x p with rfl | notP
      · rw [Function.update_self]
      · rw [Function.update_of_ne notP, others x notP notQ]
  have last : Step eff joint ⟨Function.update prog p (prog' p),
      (quiet prog world).env.push (p, q) (tag, m)⟩ ⟨prog', (quiet prog world).env⟩ := by
    have step : Step eff joint ⟨Function.update prog p (prog' p),
        (quiet prog world).env.push (p, q) (tag, m)⟩ _ := .one recv
    rwa [after] at step
  exact (Reaches.one (.one send)).trans (.one last)

/-- A task acts on the world, and the other tasks stay as they are. -/
theorem reaches_act {prog prog' : ι → Prog ι K C M A α} {world : W} {p : ι} {a : A}
    (acts : prog p = .act a (prog' p)) (others : ∀ x, x ≠ p → prog' x = prog x) :
    Reaches (Step eff joint) (quiet prog world) (quiet prog' (eff p a world)) := by
  have act : Local eff p ((quiet prog world).prog p) (quiet prog world).env (prog' p)
      (quiet prog' (eff p a world)).env := by
    rw [quiet_prog, acts]
    exact .act rfl
  have after : Function.update prog p (prog' p) = prog' := by
    funext x
    rcases eq_or_ne x p with rfl | other
    · rw [Function.update_self]
    · rw [Function.update_of_ne other, others x other]
  have step : Step eff joint (quiet prog world) _ := .one act
  rw [quiet_prog, after] at step
  exact .one step

/-- All tasks take part in a collective. -/
theorem reaches_collective {prog : ι → Prog ι K C M A α} {world : W} {op : K} {x : ι → C}
    {k : ι → (ι → C) → Prog ι K C M A α} (at_ : ∀ p, prog p = .coll op (x p) (k p)) :
    Reaches (Step eff joint) (quiet prog world) (quiet (fun p => k p x) (joint op x world)) :=
  .one (.all at_)

/-! ## Two tasks talking to each other -/

/-- Two of the tasks at these programs. -/
def duo (p q : ι) (x y : Prog ι K C M A α) (rest : ι → Prog ι K C M A α) : ι → Prog ι K C M A α :=
  Function.update (Function.update rest p x) q y

section Duo

variable {p q : ι} {x y : Prog ι K C M A α} {rest : ι → Prog ι K C M A α} {world : W}

@[simp] theorem duo_right : duo p q x y rest q = y := by
  rw [duo, Function.update_self]

theorem duo_left (apart : p ≠ q) : duo p q x y rest p = x := by
  rw [duo, Function.update_of_ne apart, Function.update_self]

theorem duo_other {z : ι} (notP : z ≠ p) (notQ : z ≠ q) : duo p q x y rest z = rest z := by
  rw [duo, Function.update_of_ne notQ, Function.update_of_ne notP]

/-- Any programs are those of two tasks and the rest. -/
theorem eq_duo {prog : ι → Prog ι K C M A α} (atP : prog p = x) (atQ : prog q = y)
    (others : ∀ z, z ≠ p → z ≠ q → prog z = rest z) : prog = duo p q x y rest := by
  funext z
  unfold duo
  rcases eq_or_ne z q with rfl | notQ
  · rw [Function.update_self, atQ]
  · rw [Function.update_of_ne notQ]
    rcases eq_or_ne z p with rfl | notP
    · rw [Function.update_self, atP]
    · rw [Function.update_of_ne notP, others z notP notQ]

theorem reaches_ask (apart : p ≠ q) {tag : Nat} {m : M} {k : M → Prog ι K C M A α} :
    Reaches (Step eff joint) (quiet (duo p q (.send q tag m x) (.recv p tag k) rest) world)
      (quiet (duo p q x (k m) rest) world) := by
  refine reaches_transfer apart ?_ duo_right duo_right fun z notP notQ => ?_
  · rw [duo_left apart, duo_left apart]
  · rw [duo_other notP notQ, duo_other notP notQ]

theorem reaches_answer (apart : p ≠ q) {tag : Nat} {m : M} {k : M → Prog ι K C M A α} :
    Reaches (Step eff joint) (quiet (duo p q (.recv q tag k) (.send p tag m y) rest) world)
      (quiet (duo p q (k m) y rest) world) := by
  refine reaches_transfer apart.symm ?_ (duo_left apart) (duo_left apart) fun z notQ notP => ?_
  · rw [duo_right, duo_right]
  · rw [duo_other notP notQ, duo_other notP notQ]

theorem duo_update_left (apart : p ≠ q) {z : Prog ι K C M A α} :
    Function.update (duo p q x y rest) p z = duo p q z y rest := by
  rw [duo, Function.update_comm apart, Function.update_idem, Function.update_comm apart.symm, duo]

/-- The first of the two goes on by itself. -/
theorem reaches_duo_left (apart : p ≠ q) {z : Prog ι K C M A α} {e f : Env ι M W}
    (goes : Local eff p x e z f) :
    Reaches (Step eff joint) ⟨duo p q x y rest, e⟩ ⟨duo p q z y rest, f⟩ := by
  have at_ : Local eff p (duo p q x y rest p) e z f := by rwa [duo_left apart]
  have step : Step eff joint ⟨duo p q x y rest, e⟩ _ := .one at_
  rw [duo_update_left apart] at step
  exact .one step

end Duo

/-! ## Programs of collectives only -/

/-- The program takes part in these collectives, one after the other, and ends, whatever
the others contribute. -/
def Follows : List K → Prog ι K C M A α → Prop
  | [], x => ∃ a, x = .done a
  | op :: ops, x => ∃ share k, x = .coll op share k ∧ ∀ all, Follows ops (k all)

section Follows

variable {prog : ι → Prog ι K C M A α} {world : W}

omit [DecidableEq ι] in
theorem Follows.of_done {ops : List K} {a : α}
    (follows : Follows ops (.done a : Prog ι K C M A α)) : ops = [] := by
  cases ops with
  | nil => rfl
  | cons op ops =>
      obtain ⟨share, k, at_, _⟩ := follows
      cases at_

/-- Tasks that follow the same collectives come to their ends. -/
theorem reaches_done (world : W) {ops : List K} (follows : ∀ p, Follows ops (prog p)) :
    ∃ a : ι → α, ∃ world', Reaches (Step eff joint) (quiet prog world)
      (quiet (fun p => .done (a p)) world') := by
  induction ops generalizing prog world with
  | nil =>
      choose a at_ using follows
      rw [funext at_]
      exact ⟨a, world, .refl _⟩
  | cons op ops ih =>
      choose share k at_ rest using follows
      obtain ⟨a, world', reaches⟩ := ih (joint op share world) fun p => rest p share
      exact ⟨a, world', (reaches_collective at_).trans reaches⟩

/-- Tasks that all come to their ends have followed the same collectives. -/
theorem same_of_steps [Nonempty ι] {ops : ι → List K} (follows : ∀ p, Follows (ops p) (prog p))
    {n : Nat} {z : Net ι K C M A W α} (run : Steps (Step eff joint) n (quiet prog world) z)
    (done : ∀ p, ∃ a, z.prog p = .done a) (p q : ι) : ops p = ops q := by
  induction n generalizing prog world ops with
  | zero =>
      cases run
      have none_ : ∀ r, ops r = [] := by
        intro r
        obtain ⟨a, at_⟩ := done r
        have follow := follows r
        rw [quiet_prog] at at_
        rw [at_] at follow
        exact follow.of_done
      rw [none_ p, none_ q]
  | succ n ih =>
      obtain ⟨t, step, rest⟩ := run
      cases step with
      | @one r k e goes =>
          -- no task goes on alone
          have follow := follows r
          rw [quiet_prog] at goes
          cases same : ops r with
          | nil =>
              rw [same] at follow
              obtain ⟨a, at_⟩ := follow
              rw [at_] at goes
              cases goes
          | cons op rest' =>
              rw [same] at follow
              obtain ⟨share, k', at_, _⟩ := follow
              rw [at_] at goes
              exact (Local.not_coll goes).elim
      | @all op x k at_ =>
          have heads : ∀ r, ∃ rest', ops r = op :: rest' ∧ Follows rest' (k r x) := by
            intro r
            have follow := follows r
            rw [show prog r = _ from at_ r] at follow
            cases same : ops r with
            | nil =>
                rw [same] at follow
                obtain ⟨a, isDone⟩ := follow
                cases isDone
            | cons op' rest' =>
                rw [same] at follow
                obtain ⟨share, k', isColl, more⟩ := follow
                cases isColl
                exact ⟨rest', rfl, more x⟩
          choose rest' split follows' using heads
          rw [split p, split q, ih follows' rest]

/-- Tasks of collectives all come to their ends exactly when they take part in the same
ones, in the same order. -/
theorem endsIn_done_iff [Nonempty ι] (commute : ActsCommute eff) {ops : ι → List K}
    (follows : ∀ p, Follows (ops p) (prog p)) :
    (∃ z, EndsIn (Step eff joint) (quiet prog world) z ∧ ∀ p, ∃ a, z.prog p = .done a) ↔
      ∀ p q, ops p = ops q := by
  constructor
  · rintro ⟨z, ⟨_, n, all⟩, done⟩ p q
    exact same_of_steps follows (all 0 _ rfl).2 done p q
  · intro same
    obtain ⟨r⟩ := ‹Nonempty ι›
    have : Nonempty ι := ⟨r⟩
    have follows' : ∀ p, Follows (ops r) (prog p) := fun p => same p r ▸ follows p
    obtain ⟨a, world', reaches⟩ := reaches_done world follows'
    refine ⟨_, endsIn_of_reaches (step_diamond commute) ?_ reaches, fun p => ⟨a p, rfl⟩⟩
    exact terminal_of_done fun p => ⟨a p, rfl⟩

end Follows

end Spmd
