import Ipm.Lib.Spmd

/-!
# Programs in phases

A program of a group of tasks often runs smaller ones one after the other.  `Part` says
how the operations of a smaller program stand in the larger one, and `Prog.andThen` runs
it there and goes on with what it leaves.

* `reaches_phase`: a group that comes to its ends does so within the larger program.
* `reaches_acts`: tasks that act one after the other.
* `Course`: the collectives a task takes part in on its own way to an end, whatever it
  receives; `Prog.andThen_course` splits the course of a program in phases.
* `common_course`: tasks that all come to their ends have one course in common.
* `reaches_leads`: tasks that take part in the same collectives come to where these lead.
-/

namespace Spmd

variable {ι K C M A W α K' C' M' A' W' β : Type*}

/-! ## Parts -/

/-- The operations of a program within those of a larger one.  What comes back from a
collective or a receive is read as what the smaller program knows. -/
structure Part (K C M A K' C' M' A' : Type*) where
  op : K → K'
  share : C → C'
  shareOf : C' → C
  msg : M → M'
  msgOf : M' → M
  act : A → A'
  shareOf_share : ∀ x, shareOf (share x) = x
  msgOf_msg : ∀ m, msgOf (msg m) = m

variable (part : Part K C M A K' C' M' A')

/-- The program as a part of a larger one, which goes on with what it leaves. -/
def Prog.andThen (x : Prog ι K C M A α) (k : α → Prog ι K' C' M' A' β) :
    Prog ι K' C' M' A' β :=
  match x with
  | .send dst tag m next => .send dst tag (part.msg m) (next.andThen k)
  | .recv src tag next => .recv src tag fun m => (next (part.msgOf m)).andThen k
  | .coll op x next => .coll (part.op op) (part.share x) fun all =>
      (next fun p => part.shareOf (all p)).andThen k
  | .act a next => .act (part.act a) (next.andThen k)
  | .done a => k a

/-- The messages on their way, and the world, within the larger program. -/
def Env.within (world : W → W') (e : Env ι M W) : Env ι M' W' where
  chan pair := (e.chan pair).map fun x => (x.1, part.msg x.2)
  world := world e.world

/-- The group within the larger program. -/
def Net.andThen (world : W → W') (k : ι → α → Prog ι K' C' M' A' β) (s : Net ι K C M A W α) :
    Net ι K' C' M' A' W' β where
  prog p := (s.prog p).andThen part (k p)
  env := s.env.within part world

section

variable {part}

variable {world : W → W'} {e : Env ι M W}

theorem Env.within_next {pair : ι × ι} {tag : Nat} {m : M}
    (first : e.next pair tag = some (tag, m)) :
    (e.within part world).next pair tag = some (tag, part.msg m) := by
  unfold Env.next Env.within at *
  rw [List.find?_map]
  exact congrArg (Option.map _) first

variable [DecidableEq ι]

theorem Env.within_push (pair : ι × ι) (tag : Nat) (m : M) :
    (e.push pair (tag, m)).within part world =
      (e.within part world).push pair (tag, part.msg m) := by
  unfold Env.within Env.push
  congr 1
  funext pair'
  rcases eq_or_ne pair' pair with rfl | apart
  · simp only [Function.update_self, List.map_append, List.map_cons, List.map_nil]
  · simp only [Function.update_of_ne apart]

theorem Env.within_pop (pair : ι × ι) (tag : Nat) :
    (e.pop pair tag).within part world = (e.within part world).pop pair tag := by
  unfold Env.within Env.pop
  congr 1
  funext pair'
  rcases eq_or_ne pair' pair with rfl | apart
  · simp only [Function.update_self, List.eraseP_map]
    rfl
  · simp only [Function.update_of_ne apart]

/-! ## Runs of a part -/

variable {eff : ι → A → W → W} {joint : K → (ι → C) → W → W} {eff' : ι → A' → W' → W'}
  {joint' : K' → (ι → C') → W' → W'} {k : ι → α → Prog ι K' C' M' A' β}

/-- The acts and the collectives of the part do to the larger world what they do to its own. -/
structure Part.Agrees (part : Part K C M A K' C' M' A') (world : W → W')
    (eff : ι → A → W → W) (joint : K → (ι → C) → W → W) (eff' : ι → A' → W' → W')
    (joint' : K' → (ι → C') → W' → W') : Prop where
  act : ∀ p a w, eff' p (part.act a) (world w) = world (eff p a w)
  coll : ∀ op x w, joint' (part.op op) (fun p => part.share (x p)) (world w) =
    world (joint op x w)

variable (agrees : part.Agrees world eff joint eff' joint')
include agrees

theorem Local.andThen {p : ι} {x y : Prog ι K C M A α} {e f : Env ι M W}
    (goes : Local eff p x e y f) :
    Local eff' p (x.andThen part (k p)) (e.within part world) (y.andThen part (k p))
      (f.within part world) := by
  cases goes with
  | send after =>
      subst after
      exact .send (Env.within_push _ _ _)
  | @recv src tag m next e f first after =>
      subst after
      have goes : Local eff' p (.recv src tag fun m => (next (part.msgOf m)).andThen part (k p))
          (e.within part world) _ _ := .recv (Env.within_next first) (Env.within_pop _ _)
      rwa [part.msgOf_msg] at goes
  | act after =>
      subst after
      apply Local.act
      unfold Env.within
      rw [agrees.act]

/-- A step of the part is one of the larger program. -/
theorem Step.andThen {s t : Net ι K C M A W α} (step : Step eff joint s t) :
    Step eff' joint' (s.andThen part world k) (t.andThen part world k) := by
  cases step with
  | @one p x e goes =>
      have same : (fun q => (Function.update s.prog p x q).andThen part (k q)) =
          Function.update (s.andThen part world k).prog p (x.andThen part (k p)) := by
        funext q
        rcases eq_or_ne q p with rfl | apart
        · rw [Function.update_self, Function.update_self]
        · rw [Function.update_of_ne apart, Function.update_of_ne apart]
          rfl
      have step : Step eff' joint' (s.andThen part world k) _ := .one (goes.andThen agrees)
      rw [← same] at step
      exact step
  | @all op x next at_ =>
      have at' : ∀ p, (s.andThen part world k).prog p = .coll (part.op op) (part.share (x p))
          fun all => (next p fun q => part.shareOf (all q)).andThen part (k p) := by
        intro p
        change (s.prog p).andThen part (k p) = _
        rw [at_ p, Prog.andThen]
      have step : Step eff' joint' (s.andThen part world k) _ := .all at'
      simp only [part.shareOf_share] at step
      have after : (s.andThen part world k).env.world = world s.env.world := rfl
      rw [after, agrees.coll] at step
      exact step

theorem Steps.andThen {n : Nat} {s t : Net ι K C M A W α} (run : Steps (Step eff joint) n s t) :
    Steps (Step eff' joint') n (s.andThen part world k) (t.andThen part world k) := by
  induction n generalizing s with
  | zero =>
      cases run
      rfl
  | succ n ih =>
      rcases run with ⟨u, step, rest⟩
      exact ⟨u.andThen part world k, step.andThen agrees, ih rest⟩

/-- A group that comes to its ends does so within a larger program, which goes on with
what each task has left. -/
theorem reaches_phase {prog : ι → Prog ι K C M A α} {a : ι → α} {w w' : W}
    (reaches : Reaches (Step eff joint) (quiet prog w) (quiet (fun p => .done (a p)) w')) :
    Reaches (Step eff' joint') (quiet (fun p => (prog p).andThen part (k p)) (world w))
      (quiet (fun p => k p (a p)) (world w')) := by
  rcases reaches with ⟨n, run⟩
  exact ⟨n, run.andThen agrees⟩

end

/-- Tasks act one after the other, in the order of a list, and go on. -/
theorem reaches_acts [DecidableEq ι] {eff : ι → A → W → W} {joint : K → (ι → C) → W → W}
    {l : List ι} (nodup : l.Nodup) {prog prog' : ι → Prog ι K C M A α} {a : ι → A} (w : W)
    (acts : ∀ p ∈ l, prog p = .act (a p) (prog' p)) (others : ∀ p, p ∉ l → prog' p = prog p) :
    Reaches (Step eff joint) (quiet prog w)
      (quiet prog' (l.foldl (fun w p => eff p (a p) w) w)) := by
  induction l generalizing prog w with
  | nil =>
      rw [funext fun p => others p List.not_mem_nil]
      exact .refl _
  | cons p l ih =>
      rw [List.nodup_cons] at nodup
      have first : Reaches (Step eff joint) (quiet prog w)
          (quiet (Function.update prog p (prog' p)) (eff p (a p) w)) := by
        refine reaches_act ?_ fun q other => Function.update_of_ne other _ _
        rw [Function.update_self]
        exact acts p List.mem_cons_self
      refine first.trans (ih nodup.2 _ (fun q mem => ?_) fun q away => ?_)
      · rw [Function.update_of_ne (ne_of_mem_of_not_mem mem nodup.1)]
        exact acts q (List.mem_cons_of_mem p mem)
      · rcases eq_or_ne q p with rfl | apart
        · rw [Function.update_self]
        · rw [Function.update_of_ne apart]
          exact others q fun mem => (List.mem_cons.mp mem).elim apart away

/-! ## Courses -/

/-- The task takes part in these collectives, with acts of its own in between, and goes on as
`y`, whatever the others contribute. -/
inductive Leads : List K → Prog ι K C M A α → Prog ι K C M A α → Prop
  | here {x : Prog ι K C M A α} : Leads [] x x
  | act {b : A} {k y : Prog ι K C M A α} {ops : List K} (rest : Leads ops k y) :
      Leads ops (.act b k) y
  | coll {op : K} {x : C} {k : (ι → C) → Prog ι K C M A α} {y : Prog ι K C M A α}
      {ops : List K} (rest : ∀ all, Leads ops (k all) y) : Leads (op :: ops) (.coll op x k) y

/-- The task is at the first of these collectives, or where they lead. -/
def Ready : List K → Prog ι K C M A α → Prog ι K C M A α → Prop
  | [], x, y => x = y
  | op :: ops, x, y => ∃ share k, x = .coll op share k ∧ ∀ all, Leads ops (k all) y

theorem Ready.leads {ops : List K} {x y : Prog ι K C M A α} (ready : Ready ops x y) :
    Leads ops x y := by
  cases ops with
  | nil =>
      cases ready
      exact .here
  | cons op ops =>
      rcases ready with ⟨share, k, rfl, rest⟩
      exact .coll rest

/-- On some way of the task to the end `a` these are the collectives it takes part in. -/
inductive Course : List K → Prog ι K C M A α → α → Prop
  | send {dst : ι} {tag : Nat} {m : M} {k : Prog ι K C M A α} {ops : List K} {a : α}
      (rest : Course ops k a) : Course ops (.send dst tag m k) a
  | recv {src : ι} {tag : Nat} {k : M → Prog ι K C M A α} {ops : List K} {a : α} (m : M)
      (rest : Course ops (k m) a) : Course ops (.recv src tag k) a
  | coll {op : K} {x : C} {k : (ι → C) → Prog ι K C M A α} {ops : List K} {a : α} (all : ι → C)
      (rest : Course ops (k all) a) : Course (op :: ops) (.coll op x k) a
  | act {b : A} {k : Prog ι K C M A α} {ops : List K} {a : α}
      (rest : Course ops k a) : Course ops (.act b k) a
  | done {a : α} : Course [] (.done a) a

/-- The first collective of a course. -/
theorem Course.of_coll {op : K} {x : C} {k : (ι → C) → Prog ι K C M A α} {ops : List K} {a : α}
    (course : Course ops (.coll op x k) a) :
    ∃ all rest, ops = op :: rest ∧ Course rest (k all) a := by
  cases course with
  | coll all rest => exact ⟨all, _, rfl, rest⟩

variable {part} in
/-- The course of a program in phases is one of each phase. -/
theorem Prog.andThen_course {x : Prog ι K C M A α} {k : α → Prog ι K' C' M' A' β}
    {ops : List K'} {b : β} (course : Course ops (x.andThen part k) b) :
    ∃ first rest a, ops = first.map part.op ++ rest ∧ Course first x a ∧ Course rest (k a) b := by
  induction x generalizing ops with
  | send dst tag m next ih =>
      cases course with
      | send course =>
          rcases ih course with ⟨first, rest, a, same, left, right⟩
          exact ⟨first, rest, a, same, .send left, right⟩
  | recv src tag next ih =>
      cases course with
      | recv m course =>
          rcases ih _ course with ⟨first, rest, a, same, left, right⟩
          exact ⟨first, rest, a, same, .recv _ left, right⟩
  | coll op x next ih =>
      cases course with
      | coll all course =>
          rcases ih _ course with ⟨first, rest, a, rfl, left, right⟩
          exact ⟨op :: first, rest, a, rfl, .coll _ left, right⟩
  | act a next ih =>
      cases course with
      | act course =>
          rcases ih course with ⟨first, rest, a, same, left, right⟩
          exact ⟨first, rest, a, same, .act left, right⟩
  | done a => exact ⟨[], ops, a, rfl, .done, course⟩

/-- Where the collectives are fixed, they are those of every course. -/
theorem Follows.course {ops ops' : List K} {x : Prog ι K C M A α} {a : α}
    (follows : Follows ops x) (course : Course ops' x a) : ops' = ops := by
  induction ops generalizing x ops' with
  | nil =>
      rcases follows with ⟨_, rfl⟩
      cases course
      rfl
  | cons op ops ih =>
      rcases follows with ⟨share, k, rfl, more⟩
      cases course with
      | coll all rest => rw [ih (more all) rest]

/-- What leads on comes first in every course. -/
theorem Leads.course {first ops : List K} {x y : Prog ι K C M A α} {a : α}
    (leads : Leads first x y) (course : Course ops x a) :
    ∃ rest, ops = first ++ rest ∧ Course rest y a := by
  induction leads generalizing ops with
  | here => exact ⟨ops, rfl, course⟩
  | act _ ih =>
      cases course with
      | act course => exact ih course
  | coll _ ih =>
      cases course with
      | coll all course =>
          rcases ih all course with ⟨rest, rfl, after⟩
          exact ⟨rest, rfl, after⟩

variable [DecidableEq ι] {eff : ι → A → W → W} {joint : K → (ι → C) → W → W}

/-- A task acts until it comes to its next collective, or to where it leads. -/
theorem Leads.settle {ops : List K} {prog : ι → Prog ι K C M A α} {p : ι} {x y : Prog ι K C M A α}
    (leads : Leads ops x y) (at_ : prog p = x) (w : W) :
    ∃ z w', Reaches (Step eff joint) (quiet prog w) (quiet (Function.update prog p z) w') ∧
      Ready ops z y := by
  induction leads generalizing prog w with
  | here =>
      refine ⟨_, w, ?_, rfl⟩
      rw [← at_, Function.update_eq_self]
      exact .refl _
  | @act b k y ops rest ih =>
      have acts : Reaches (Step eff joint) (quiet prog w)
          (quiet (Function.update prog p k) (eff p b w)) := by
        refine reaches_act ?_ fun q other => Function.update_of_ne other _ _
        rw [Function.update_self]
        exact at_
      rcases ih (Function.update_self p k prog) (eff p b w) with ⟨z, w', reaches, settled⟩
      rw [Function.update_idem] at reaches
      exact ⟨z, w', acts.trans reaches, settled⟩
  | @coll op x k y ops rest ih =>
      refine ⟨_, w, ?_, x, k, rfl, rest⟩
      rw [← at_, Function.update_eq_self]
      exact .refl _

/-- So do the tasks of a list, one after the other. -/
theorem reaches_ready {l : List ι} {ops : List K} {prog goal : ι → Prog ι K C M A α}
    (leads : ∀ p, Leads ops (prog p) (goal p)) (w : W) :
    ∃ prog' w', Reaches (Step eff joint) (quiet prog w) (quiet prog' w') ∧
      (∀ p, Leads ops (prog' p) (goal p)) ∧ ∀ p ∈ l, Ready ops (prog' p) (goal p) := by
  induction l with
  | nil => exact ⟨prog, w, .refl _, leads, nofun⟩
  | cons p l ih =>
      rcases ih with ⟨prog', w', reaches, leads', ready⟩
      rcases (leads' p).settle rfl w' with ⟨z, w'', more, settled⟩
      refine ⟨_, w'', reaches.trans more, fun q => ?_, fun q mem => ?_⟩
      · rcases eq_or_ne q p with rfl | apart
        · rw [Function.update_self]
          exact settled.leads
        · rw [Function.update_of_ne apart]
          exact leads' q
      · rcases eq_or_ne q p with rfl | apart
        · rw [Function.update_self]
          exact settled
        · rw [Function.update_of_ne apart]
          exact ready q ((List.mem_cons.mp mem).resolve_left apart)

/-- Tasks that take part in the same collectives come to where these lead. -/
theorem reaches_leads {l : List ι} (every : ∀ p, p ∈ l) {ops : List K}
    {prog goal : ι → Prog ι K C M A α} (leads : ∀ p, Leads ops (prog p) (goal p)) (w : W) :
    ∃ w', Reaches (Step eff joint) (quiet prog w) (quiet goal w') := by
  induction ops generalizing prog w with
  | nil =>
      rcases reaches_ready (l := l) leads w with ⟨prog', w', reaches, _, ready⟩
      rw [funext fun p => ready p (every p)] at reaches
      exact ⟨w', reaches⟩
  | cons op ops ih =>
      rcases reaches_ready (l := l) leads w with ⟨prog', w', reaches, _, ready⟩
      have ready := fun p => ready p (every p)
      choose x k at_ rest using ready
      rcases ih (fun p => rest p x) (joint op x w') with ⟨w'', more⟩
      exact ⟨w'', reaches.trans ((reaches_collective at_).trans more)⟩

/-- A task that goes on by itself has the course of what it goes on with. -/
theorem Local.course {p : ι} {x y : Prog ι K C M A α} {e f : Env ι M W} {ops : List K} {a : α}
    (goes : Local eff p x e y f) (course : Course ops y a) : Course ops x a := by
  cases goes with
  | send _ => exact .send course
  | recv _ _ => exact .recv _ course
  | act _ => exact .act course

/-- Tasks that all come to their ends have one course in common. -/
theorem common_course {n : Nat} {s z : Net ι K C M A W α} (run : Steps (Step eff joint) n s z)
    {a : ι → α} (done : ∀ p, z.prog p = .done (a p)) :
    ∃ ops, ∀ p, Course ops (s.prog p) (a p) := by
  induction n generalizing s with
  | zero =>
      cases run
      refine ⟨[], fun p => ?_⟩
      rw [done p]
      exact .done
  | succ n ih =>
      rcases run with ⟨t, step, rest⟩
      rcases ih rest with ⟨ops, courses⟩
      cases step with
      | @one p x e goes =>
          refine ⟨ops, fun q => ?_⟩
          have course : Course ops (Function.update s.prog p x q) (a q) := courses q
          rcases eq_or_ne q p with rfl | apart
          · rw [Function.update_self] at course
            exact goes.course course
          · rwa [Function.update_of_ne apart] at course
      | @all op x k at_ =>
          refine ⟨op :: ops, fun p => ?_⟩
          rw [at_ p]
          exact .coll x (courses p)

end Spmd
