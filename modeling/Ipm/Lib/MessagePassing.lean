import Mathlib.Data.DFinsupp.WellFounded
import Mathlib.SetTheory.Cardinal.Order
import Ipm.Lib.Runs

/-!
# Message passing

Sequential processes that send and receive tagged messages over one ordered channel
for every pair.  A receive names its source or takes any, takes the first message of
that source with a tag it accepts, and says which messages it is meant for.  The net
keeps, besides the channels, what each process has sent and received.

* `Proc.Ok`: a rule of pre- and postconditions for one process, under a contract on
  what each process has sent so far.  A receive may rely on the guarantee of the
  sender, and has to show that the message it takes is the next one of its channel,
  and one it is meant for.  It also names a stage at which its own process has sent all
  that is due, and a source whose message is due before that source comes to this stage.
* `run_coherent`: if every process meets its rule, every run keeps the guarantees,
  loses and reorders no message, and ends as the postconditions say.
* `Coherent.progress`: then no run is stuck, since the receive of the least stage has its
  message.
* `Coherent.finishes`: so every run of finitely many processes goes on to the end of all.
* `Proc.ok_sends`, `Proc.ok_recv`: the rules for a burst of sends, and for a receive
  when it is known what its sources send in all.
* `along_toEach`: what one receiver gets of a burst.
* `netStep_send`, `netStep_recv`, `run_sends`: steps that a net can take, to build a run.
-/

namespace MessagePassing

variable {ι τ M α : Type*}

/-- A process: what it does next, and how it goes on. -/
inductive Proc (ι τ M α : Type*)
  | send (dst : ι) (tag : τ) (m : M) (k : Proc ι τ M α)
  | recv (src : Option ι) (accepts : τ → Bool) (meant : M → Bool) (k : M → Proc ι τ M α)
  | done (a : α)
  | fault

/-- A message a process has received: from whom, and whether the receive was meant for it. -/
structure Receipt (ι τ M : Type*) where
  src : ι
  tag : τ
  m : M
  meant : Bool

/-- The processes, the messages on their way, and what was sent and received. -/
structure Net (ι τ M α : Type*) where
  proc : ι → Proc ι τ M α
  chan : ι → ι → List (τ × M)
  sent : ι → List (ι × τ × M)
  rcvd : ι → List (Receipt ι τ M)

/-- All processes at their beginning. -/
def Net.init (prog : ι → Proc ι τ M α) : Net ι τ M α where
  proc := prog
  chan := fun _ _ => []
  sent := fun _ => []
  rcvd := fun _ => []

/-- The value of a process that has ended. -/
def Proc.result : Proc ι τ M α → Option α
  | .done a => some a
  | _ => none

theorem Proc.eq_done {p : Proc ι τ M α} {a : α} (h : p.result = some a) : p = .done a := by
  cases p with
  | done b => exact congrArg Proc.done (Option.some.inj h)
  | send _ _ _ _ => cases h
  | recv _ _ _ _ => cases h
  | fault => cases h

/-- Send the messages of a list one after the other. -/
def Proc.sends : List (ι × τ × M) → Proc ι τ M α → Proc ι τ M α
  | [], k => k
  | (dst, tag, m) :: rest, k => .send dst tag m (Proc.sends rest k)

variable [DecidableEq ι]

/-- The messages sent to `q`. -/
def along (q : ι) (sent : List (ι × τ × M)) : List (τ × M) :=
  sent.filterMap fun x => if x.1 = q then some x.2 else none

/-- The messages received from `p`. -/
def Receipts.along (p : ι) (rcvd : List (Receipt ι τ M)) : List (τ × M) :=
  rcvd.filterMap fun x => if x.src = p then some (x.tag, x.m) else none

namespace Net

/-- Process `p` sends a message to `q`. -/
def post (s : Net ι τ M α) (p q : ι) (tag : τ) (m : M) (k : Proc ι τ M α) : Net ι τ M α where
  proc := Function.update s.proc p k
  chan := Function.update s.chan p (Function.update (s.chan p) q (s.chan p q ++ [(tag, m)]))
  sent := Function.update s.sent p (s.sent p ++ [(q, tag, m)])
  rcvd := s.rcvd

/-- Process `q` takes a message of `p` that leaves `rest` in the channel. -/
def take (s : Net ι τ M α) (p q : ι) (tag : τ) (m : M) (meant : Bool) (rest : List (τ × M))
    (k : Proc ι τ M α) : Net ι τ M α where
  proc := Function.update s.proc q k
  chan := Function.update s.chan p (Function.update (s.chan p) q rest)
  sent := s.sent
  rcvd := Function.update s.rcvd q (s.rcvd q ++ [⟨p, tag, m, meant⟩])

end Net

/-- One step of process `a.1`; a receive takes a message of `a.2`, if it may and there
is one. -/
def netStep (s : Net ι τ M α) (a : ι × ι) : Except Unit (Net ι τ M α) :=
  match s.proc a.1 with
  | .send dst tag m k => .ok (s.post a.1 dst tag m k)
  | .recv src accepts meant k =>
      if src = none ∨ src = some a.2 then
        match (s.chan a.2 a.1).find? fun x => accepts x.1 with
        | some (tag, m) =>
            .ok (s.take a.2 a.1 tag m (meant m)
              ((s.chan a.2 a.1).eraseP fun x => accepts x.1) (k m))
        | none => .error ()
      else .error ()
  | .done _ => .error ()
  | .fault => .error ()

/-! ## Single steps -/

section Steps

variable {s : Net ι τ M α} {p q x y : ι} {tag : τ} {m : M} {k : Proc ι τ M α} {meant : Bool}
  {rest : List (τ × M)}

@[simp] theorem Net.post_proc : (s.post p q tag m k).proc p = k := by
  simp only [Net.post, Function.update_self]

theorem Net.post_proc_of_ne (other : x ≠ p) : (s.post p q tag m k).proc x = s.proc x := by
  simp only [Net.post, Function.update_of_ne other]

@[simp] theorem Net.post_chan : (s.post p q tag m k).chan p q = s.chan p q ++ [(tag, m)] := by
  simp only [Net.post, Function.update_self]

theorem Net.post_chan_of_ne (other : x ≠ p ∨ y ≠ q) :
    (s.post p q tag m k).chan x y = s.chan x y := by
  rcases eq_or_ne x p with rfl | apart
  · have column := other.resolve_left (not_not.mpr rfl)
    simp only [Net.post, Function.update_self, Function.update_of_ne column]
  · simp only [Net.post, Function.update_of_ne apart]

@[simp] theorem Net.take_proc : (s.take p q tag m meant rest k).proc q = k := by
  simp only [Net.take, Function.update_self]

theorem Net.take_proc_of_ne (other : x ≠ q) :
    (s.take p q tag m meant rest k).proc x = s.proc x := by
  simp only [Net.take, Function.update_of_ne other]

@[simp] theorem Net.take_chan : (s.take p q tag m meant rest k).chan p q = rest := by
  simp only [Net.take, Function.update_self]

theorem Net.take_chan_of_ne (other : x ≠ p ∨ y ≠ q) :
    (s.take p q tag m meant rest k).chan x y = s.chan x y := by
  rcases eq_or_ne x p with rfl | apart
  · have column := other.resolve_left (not_not.mpr rfl)
    simp only [Net.take, Function.update_self, Function.update_of_ne column]
  · simp only [Net.take, Function.update_of_ne apart]

theorem netStep_send (at_ : s.proc p = .send q tag m k) :
    netStep s (p, x) = .ok (s.post p q tag m k) := by
  simp only [netStep, at_]

/-- A receive takes the first message of a source, if it accepts its tag. -/
theorem netStep_recv {src : Option ι} {accepts : τ → Bool} {for_ : M → Bool}
    {next : M → Proc ι τ M α} (at_ : s.proc q = .recv src accepts for_ next)
    (from_ : src = none ∨ src = some p) (queue : s.chan p q = (tag, m) :: rest)
    (accepted : accepts tag = true) :
    netStep s (q, p) = .ok (s.take p q tag m (for_ m) rest (next m)) := by
  have first : ((s.chan p q).find? fun x => accepts x.1) = some (tag, m) := by
    rw [queue]
    exact List.find?_cons_of_pos accepted
  have others : ((s.chan p q).eraseP fun x => accepts x.1) = rest := by
    rw [queue]
    exact List.eraseP_cons_of_pos accepted
  simp only [netStep, at_, if_pos from_, first, others]

/-- A burst of sends runs to its end, and changes only the process and its channels. -/
theorem run_sends {burst : List (ι × τ × M)} (at_ : s.proc p = Proc.sends burst k) :
    ∃ acts s', Runs.run netStep s acts = .ok s' ∧ s'.proc p = k ∧
      (∀ x ≠ p, s'.proc x = s.proc x) ∧ (∀ y, s'.chan p y = s.chan p y ++ along y burst) ∧
      ∀ x ≠ p, s'.chan x = s.chan x := by
  induction burst generalizing s with
  | nil =>
      refine ⟨[], s, rfl, at_, fun _ _ => rfl, fun y => ?_, fun _ _ => rfl⟩
      rw [along, List.filterMap_nil, List.append_nil]
  | cons a burst ih =>
      obtain ⟨dst, tag, m⟩ := a
      obtain ⟨acts, s', ran, ended, procs, chans, rows⟩ :=
        ih (s := s.post p dst tag m (Proc.sends burst k)) Net.post_proc
      refine ⟨(p, p) :: acts, s', ?_, ended, fun x other => ?_, fun y => ?_, fun x other => ?_⟩
      · rw [Runs.run_cons_ok (netStep_send at_)]
        exact ran
      · rw [procs x other, Net.post_proc_of_ne other]
      · rw [chans y]
        rcases eq_or_ne y dst with rfl | apart
        · simp [along]
        · rw [Net.post_chan_of_ne (Or.inr apart)]
          simp [along, apart.symm]
      · rw [rows x other]
        exact Function.update_of_ne other _ s.chan

end Steps

/-! ## The rule of a process -/

/-- What the processes promise of what they have sent: throughout, and when they wait at a
stage.  At a later stage they have sent no less. -/
structure Contract (ι τ M : Type*) where
  Good : ι → List (ι × τ × M) → Prop
  Stage : ι → Nat → List (ι × τ × M) → Prop
  earlier : ∀ {p l l' sent}, l ≤ l' → Stage p l' sent → Stage p l sent

/-- The process waits at a stage for a message of a source that has sent it when it comes to
this stage itself. -/
def AwaitsAt (C : Contract ι τ M) (me : ι) (l : Nat) (src : Option ι) (accepts : τ → Bool)
    (sent : List (ι × τ × M)) (rcvd : List (Receipt ι τ M)) : Prop :=
  C.Stage me l sent ∧ ∃ p, (src = none ∨ src = some p) ∧ ∀ sentBy, C.Stage p l sentBy →
    ∃ x, (along me sentBy)[(Receipts.along p rcvd).length]? = some x ∧ accepts x.1 = true

/-- The process `me`, having sent and received this much, keeps its contract, receives
only what its receives are meant for, and ends with its postcondition. -/
def Proc.Ok (C : Contract ι τ M) (me : ι)
    (Post : List (ι × τ × M) → List (Receipt ι τ M) → α → Prop) :
    Proc ι τ M α → List (ι × τ × M) → List (Receipt ι τ M) → Prop
  | .send dst tag m k, sent, rcvd =>
      C.Good me (sent ++ [(dst, tag, m)]) ∧ k.Ok C me Post (sent ++ [(dst, tag, m)]) rcvd
  | .recv src accepts meant k, sent, rcvd =>
      (∃ l, AwaitsAt C me l src accepts sent rcvd) ∧
        ∀ p sentBy pre tag m post, (src = none ∨ src = some p) → C.Good p sentBy →
          along me sentBy = Receipts.along p rcvd ++ (pre ++ (tag, m) :: post) →
          (∀ x ∈ pre, accepts x.1 = false) → accepts tag = true →
          pre = [] ∧ meant m = true ∧ (k m).Ok C me Post sent (rcvd ++ [⟨p, tag, m, true⟩])
  | .done a, sent, rcvd => Post sent rcvd a ∧ ∀ l, C.Stage me l sent
  | .fault, _, _ => False

/-- What holds in every state of a net whose processes meet their rules. -/
structure Coherent (C : Contract ι τ M)
    (Post : ι → List (ι × τ × M) → List (Receipt ι τ M) → α → Prop) (s : Net ι τ M α) : Prop where
  ok : ∀ p, (s.proc p).Ok C p (Post p) (s.sent p) (s.rcvd p)
  good : ∀ p, C.Good p (s.sent p)
  fifo : ∀ p q, along q (s.sent p) = Receipts.along p (s.rcvd q) ++ s.chan p q
  meant : ∀ p, ∀ x ∈ s.rcvd p, x.meant = true

theorem along_append (q : ι) (a b : List (ι × τ × M)) : along q (a ++ b) = along q a ++ along q b :=
  List.filterMap_append

theorem along_isPrefix {q : ι} {a b : List (ι × τ × M)} (isPrefix : a <+: b) :
    along q a <+: along q b := isPrefix.filterMap _

theorem Receipts.along_append (p : ι) (a b : List (Receipt ι τ M)) :
    Receipts.along p (a ++ b) = Receipts.along p a ++ Receipts.along p b :=
  List.filterMap_append

@[simp] theorem along_nil (q : ι) : along q ([] : List (ι × τ × M)) = [] := rfl

theorem along_self (q : ι) (x : τ × M) (l : List (ι × τ × M)) :
    along q ((q, x) :: l) = x :: along q l := by
  simp [along]

theorem along_other {p q : ι} (apart : p ≠ q) (x : τ × M) (l : List (ι × τ × M)) :
    along q ((p, x) :: l) = along q l := by
  simp [along, apart]

theorem Receipts.along_self (p : ι) (tag : τ) (m : M) (meant : Bool) :
    Receipts.along p [⟨p, tag, m, meant⟩] = [(tag, m)] := by
  simp [Receipts.along]

theorem Receipts.along_other {p q : ι} (apart : q ≠ p) (tag : τ) (m : M) (meant : Bool) :
    Receipts.along p [⟨q, tag, m, meant⟩] = [] := by
  simp [Receipts.along, apart]

section Coherent

variable {C : Contract ι τ M}
  {Post : ι → List (ι × τ × M) → List (Receipt ι τ M) → α → Prop} {s s' : Net ι τ M α}

theorem init_coherent {prog : ι → Proc ι τ M α} (good : ∀ p, C.Good p [])
    (ok : ∀ p, (prog p).Ok C p (Post p) [] []) : Coherent C Post (Net.init prog) where
  ok := ok
  good := good
  fifo _ _ := rfl
  meant _ _ mem := by cases mem

theorem Coherent.post {p q : ι} {tag : τ} {m : M} {k : Proc ι τ M α}
    (coherent : Coherent C Post s) (at_ : s.proc p = .send q tag m k) :
    Coherent C Post (s.post p q tag m k) := by
  have ok := coherent.ok p
  rw [at_] at ok
  obtain ⟨good, next⟩ := ok
  refine ⟨fun x => ?_, fun x => ?_, fun x y => ?_, coherent.meant⟩
  · rcases eq_or_ne x p with rfl | apart
    · simpa only [Net.post, Function.update_self] using next
    · simpa only [Net.post, Function.update_of_ne apart] using coherent.ok x
  · rcases eq_or_ne x p with rfl | apart
    · simpa only [Net.post, Function.update_self] using good
    · simpa only [Net.post, Function.update_of_ne apart] using coherent.good x
  · rcases eq_or_ne x p with rfl | apart
    · rcases eq_or_ne y q with rfl | other
      · simp only [Net.post, Function.update_self, along_append, along_self, along_nil,
          coherent.fifo, List.append_assoc]
      · simp only [Net.post, Function.update_self, Function.update_of_ne other, along_append,
          along_other other.symm, along_nil, List.append_nil, coherent.fifo]
    · simp only [Net.post, Function.update_of_ne apart, coherent.fifo]

theorem Coherent.take {p q : ι} {src : Option ι} {accepts : τ → Bool} {meant : M → Bool}
    {k : M → Proc ι τ M α} {tag : τ} {m : M} (coherent : Coherent C Post s)
    (at_ : s.proc q = .recv src accepts meant k) (from_ : src = none ∨ src = some p)
    (first : (s.chan p q).find? (fun x => accepts x.1) = some (tag, m)) :
    Coherent C Post
      (s.take p q tag m (meant m) ((s.chan p q).eraseP fun x => accepts x.1) (k m)) := by
  obtain ⟨accepted, pre, post, queue, before⟩ := List.find?_eq_some_iff_append.mp first
  have ok := coherent.ok q
  rw [at_] at ok
  have sentBy := coherent.fifo p q
  rw [queue] at sentBy
  obtain ⟨rfl, isMeant, next⟩ := ok.2 p (s.sent p) pre tag m post from_ (coherent.good p) sentBy
    (fun x mem => by simpa using before x mem) accepted
  have rest : (s.chan p q).eraseP (fun x => accepts x.1) = post := by
    rw [queue]
    exact List.eraseP_cons_of_pos accepted
  rw [rest, isMeant]
  refine ⟨fun x => ?_, coherent.good, fun x y => ?_, fun x y mem => ?_⟩
  · rcases eq_or_ne x q with rfl | apart
    · simpa only [Net.take, Function.update_self] using next
    · simpa only [Net.take, Function.update_of_ne apart] using coherent.ok x
  · rcases eq_or_ne y q with rfl | apart
    · rcases eq_or_ne x p with rfl | other
      · simp only [Net.take, Function.update_self, Receipts.along_append, Receipts.along_self,
          List.append_assoc, sentBy, List.nil_append, List.singleton_append]
      · simp only [Net.take, Function.update_self, Function.update_of_ne other,
          Receipts.along_append, Receipts.along_other other.symm, List.append_nil, coherent.fifo]
    · have same : (s.take p q tag m true post (k m)).chan x y = s.chan x y := by
        rcases eq_or_ne x p with rfl | other
        · simp only [Net.take, Function.update_self, Function.update_of_ne apart]
        · simp only [Net.take, Function.update_of_ne other]
      rw [same]
      simp only [Net.take, Function.update_of_ne apart, coherent.fifo]
  · rcases eq_or_ne x q with rfl | apart
    · simp only [Net.take, Function.update_self, List.mem_append, List.mem_singleton] at mem
      rcases mem with before | rfl
      · exact coherent.meant x y before
      · rfl
    · simp only [Net.take, Function.update_of_ne apart] at mem
      exact coherent.meant x y mem

/-- One step keeps a net coherent. -/
theorem Coherent.step {a : ι × ι} (coherent : Coherent C Post s)
    (h : netStep s a = .ok s') : Coherent C Post s' := by
  unfold netStep at h
  split at h
  · rename_i at_
    cases h
    exact coherent.post at_
  · rename_i at_
    split at h
    · rename_i from_
      split at h
      · rename_i first
        cases h
        exact coherent.take at_ from_ first
      · cases h
    · cases h
  · cases h
  · cases h

/-- Every run of processes that meet their rules is coherent. -/
theorem run_coherent {prog : ι → Proc ι τ M α} (good : ∀ p, C.Good p [])
    (ok : ∀ p, (prog p).Ok C p (Post p) [] []) {acts : List (ι × ι)}
    (ran : Runs.run netStep (Net.init prog) acts = .ok s) : Coherent C Post s :=
  Runs.run_keeps (I := Coherent C Post) (init_coherent good ok)
    (fun coherent h => coherent.step h) ran

/-! ## The end of all processes -/

/-- A receive whose source has come to its stage can be taken. -/
theorem Coherent.takes {p q : ι} {src : Option ι} {accepts : τ → Bool}
    {meant : M → Bool} {k : M → Proc ι τ M α} {x : τ × M} (coherent : Coherent C Post s)
    (at_ : s.proc q = .recv src accepts meant k) (from_ : src = none ∨ src = some p)
    (due : (along q (s.sent p))[(Receipts.along p (s.rcvd q)).length]? = some x)
    (accepted : accepts x.1 = true) : ∃ s', netStep s (q, p) = .ok s' := by
  rw [coherent.fifo, List.getElem?_append_right (Nat.le_refl _), Nat.sub_self,
    ← List.head?_eq_getElem?, List.head?_eq_some_iff] at due
  obtain ⟨rest, queue⟩ := due
  exact ⟨_, netStep_recv at_ from_ queue accepted⟩

/-- No state of a coherent net is stuck: of the receives, one of the least stage has its
message in its channel, since its source has ended or waits at no earlier stage. -/
theorem Coherent.progress (coherent : Coherent C Post s) :
    (∀ p, ∃ a, s.proc p = .done a) ∨ ∃ a s', netStep s a = .ok s' := by
  by_contra stuck
  obtain ⟨running, blocked⟩ := not_or.mp stuck
  let Waiting (l : Nat) : Prop := ∃ me src accepts meant k,
    s.proc me = .recv src accepts meant k ∧ AwaitsAt C me l src accepts (s.sent me) (s.rcvd me)
  -- who does not wait has ended
  have each : ∀ p, (∀ l, C.Stage p l (s.sent p)) ∧ (∃ a, s.proc p = .done a) ∨
      ∃ l, Waiting l ∧ C.Stage p l (s.sent p) := by
    intro p
    have ok := coherent.ok p
    cases at_ : s.proc p with
    | send dst tag m k => exact (blocked ⟨(p, p), _, netStep_send at_⟩).elim
    | recv src accepts meant k =>
        rw [at_] at ok
        obtain ⟨⟨l, awaits⟩, -⟩ := ok
        exact Or.inr ⟨l, ⟨p, src, accepts, meant, k, at_, awaits⟩, awaits.1⟩
    | done a =>
        rw [at_] at ok
        exact Or.inl ⟨ok.2, a, rfl⟩
    | fault =>
        rw [at_] at ok
        exact ok.elim
  obtain ⟨p, goesOn⟩ := not_forall.mp running
  have some_ : ∃ l, Waiting l := by
    rcases each p with ⟨-, ended⟩ | ⟨l, waits, -⟩
    · exact (goesOn ended).elim
    · exact ⟨l, waits⟩
  classical
  obtain ⟨me, src, accepts, meant, k, at_, -, q, from_, due⟩ := Nat.find_spec some_
  have come : C.Stage q (Nat.find some_) (s.sent q) := by
    rcases each q with ⟨ended, -⟩ | ⟨l, waits, stage⟩
    · exact ended _
    · exact C.earlier (Nat.find_min' some_ waits) stage
  obtain ⟨x, next, accepted⟩ := due _ come
  obtain ⟨s', step⟩ := coherent.takes at_ from_ next accepted
  exact blocked ⟨_, s', step⟩

/-- What a process goes on as. -/
inductive Proc.Next : Proc ι τ M α → Proc ι τ M α → Prop
  | send {dst : ι} {tag : τ} {m : M} {k : Proc ι τ M α} : Next k (.send dst tag m k)
  | recv {src : Option ι} {accepts : τ → Bool} {meant : M → Bool} {k : M → Proc ι τ M α}
      (m : M) : Next (k m) (.recv src accepts meant k)

omit [DecidableEq ι] in
theorem Proc.wellFounded_next : WellFounded (Proc.Next (ι := ι) (τ := τ) (M := M) (α := α)) := by
  refine ⟨fun p => ?_⟩
  induction p with
  | send dst tag m k ih =>
      refine ⟨_, fun y next => ?_⟩
      cases next
      exact ih
  | recv src accepts meant k ih =>
      refine ⟨_, fun y next => ?_⟩
      cases next with
      | recv m => exact ih m
  | done a => exact ⟨_, nofun⟩
  | fault => exact ⟨_, nofun⟩

/-- A step leads one process on, and leaves the others where they are. -/
theorem netStep_next {a : ι × ι} (step : netStep s a = .ok s') :
    (s'.proc a.1).Next (s.proc a.1) ∧ ∀ x ≠ a.1, s'.proc x = s.proc x := by
  unfold netStep at step
  split at step
  · rename_i at_
    cases step
    rw [Net.post_proc, at_]
    exact ⟨.send, fun x other => Net.post_proc_of_ne other⟩
  · rename_i at_
    split at step
    · split at step
      · rename_i m _
        cases step
        rw [Net.take_proc, at_]
        exact ⟨.recv m, fun x other => Net.take_proc_of_ne other⟩
      · cases step
    · cases step
  · cases step
  · cases step

/-- Every run of finitely many processes that meet their rules goes on to the end of all
of them. -/
theorem Coherent.finishes [Finite ι] (coherent : Coherent C Post s) :
    ∃ acts s', Runs.run netStep s acts = .ok s' ∧ Coherent C Post s' ∧
      ∀ p, ∃ a, s'.proc p = .done a := by
  have descends := Pi.Lex.wellFounded (WellOrderingRel (α := ι))
    fun _ => Proc.wellFounded_next (ι := ι) (τ := τ) (M := M) (α := α)
  generalize procs : s.proc = f
  induction f using descends.induction generalizing s with
  | _ f ih =>
      rcases coherent.progress with ended | ⟨a, t, step⟩
      · exact ⟨[], s, rfl, coherent, ended⟩
      · subst procs
        obtain ⟨next, others⟩ := netStep_next step
        have less : Pi.Lex WellOrderingRel (fun {_} => Proc.Next) t.proc s.proc :=
          ⟨a.1, fun x before => others x (ne_of_irrefl before), next⟩
        obtain ⟨acts, s', ran, coherent', ended⟩ := ih t.proc less (coherent.step step) rfl
        refine ⟨a :: acts, s', ?_, coherent', ended⟩
        rw [Runs.run_cons_ok step]
        exact ran

end Coherent

/-! ## Rules -/

section Rules

variable {C : Contract ι τ M} {me : ι}
  {Post : List (ι × τ × M) → List (Receipt ι τ M) → α → Prop} {sent : List (ι × τ × M)}
  {rcvd : List (Receipt ι τ M)}

/-- A burst of sends is good if it is at its end, for a guarantee on prefixes. -/
theorem Proc.ok_sends {k : Proc ι τ M α} {burst : List (ι × τ × M)}
    (closed : ∀ a b, C.Good me (a ++ b) → C.Good me a) (good : C.Good me (sent ++ burst))
    (ok : k.Ok C me Post (sent ++ burst) rcvd) :
    (Proc.sends burst k).Ok C me Post sent rcvd := by
  induction burst generalizing sent with
  | nil =>
      rw [List.append_nil] at ok
      exact ok
  | cons x burst ih =>
      have split_ : sent ++ x :: burst = sent ++ [x] ++ burst := by
        rw [List.append_assoc, List.singleton_append]
      rw [split_] at good ok
      exact ⟨closed _ _ good, ih good ok⟩

/-- The first message that is accepted is the next one, if the next one is accepted. -/
theorem next_of_prefix {X : Type*} {a pre post full : List X} {x e : X} (accepts : X → Bool)
    (isPrefix : a ++ (pre ++ x :: post) <+: full) (next : full[a.length]? = some e)
    (before : ∀ y ∈ pre, accepts y = false) (accepted : accepts e = true) :
    pre = [] ∧ x = e := by
  obtain ⟨rest, rfl⟩ := isPrefix
  rw [List.append_assoc, List.getElem?_append_right (Nat.le_refl _), Nat.sub_self] at next
  cases pre with
  | nil => exact ⟨rfl, Option.some.inj next⟩
  | cons y pre =>
      obtain rfl : y = e := Option.some.inj next
      have refused := before y List.mem_cons_self
      rw [accepted] at refused
      cases refused

/-- A receive, when it is known what each source sends in all: the next message of
the source is the one it takes, or no message to come is accepted. -/
theorem Proc.ok_recv {src : Option ι} {accepts : τ → Bool} {meant : M → Bool}
    {k : M → Proc ι τ M α} (waits : ∃ l, AwaitsAt C me l src accepts sent rcvd)
    (next : ∀ p sentBy, (src = none ∨ src = some p) → C.Good p sentBy → ∃ full,
      along me sentBy <+: full ∧
        ((∀ x ∈ full.drop (Receipts.along p rcvd).length, accepts x.1 = false) ∨
          ∃ tag m, full[(Receipts.along p rcvd).length]? = some (tag, m) ∧ accepts tag = true ∧
            meant m = true ∧ (k m).Ok C me Post sent (rcvd ++ [⟨p, tag, m, true⟩]))) :
    (Proc.recv src accepts meant k).Ok C me Post sent rcvd := by
  refine ⟨waits, fun p sentBy pre tag m post from_ good queue before accepted => ?_⟩
  obtain ⟨full, isPrefix, more⟩ := next p sentBy from_ good
  rw [queue] at isPrefix
  rcases more with refused | ⟨tag', m', at_, accepted', isMeant, ok⟩
  · -- nothing that is still to come is accepted
    obtain ⟨rest, rfl⟩ := isPrefix
    rw [List.append_assoc, List.drop_left] at refused
    have inside : (tag, m) ∈ pre ++ (tag, m) :: post ++ rest := by simp
    rw [refused _ inside] at accepted
    cases accepted
  · obtain ⟨none_, same⟩ := next_of_prefix (fun x => accepts x.1) isPrefix at_ before accepted'
    cases same
    exact ⟨none_, isMeant, ok⟩

/-- A receive from one process, when the next message of that process is known. -/
theorem Proc.ok_recv_from {p : ι} {accepts : τ → Bool} {meant : M → Bool} {k : M → Proc ι τ M α}
    (waits : ∃ l, AwaitsAt C me l (some p) accepts sent rcvd)
    (next : ∀ sentBy, C.Good p sentBy → ∃ full tag m, along me sentBy <+: full ∧
      full[(Receipts.along p rcvd).length]? = some (tag, m) ∧ accepts tag = true ∧
        meant m = true ∧ (k m).Ok C me Post sent (rcvd ++ [⟨p, tag, m, true⟩])) :
    (Proc.recv (some p) accepts meant k).Ok C me Post sent rcvd := by
  apply Proc.ok_recv waits
  intro q sentBy from_ good
  obtain rfl : p = q := by
    rcases from_ with any | named
    · cases any
    · exact Option.some.inj named
  obtain ⟨full, tag, m, isPrefix, rest⟩ := next sentBy good
  exact ⟨full, isPrefix, Or.inr ⟨tag, m, rest⟩⟩

/-- The sends of a burst: to each of some receivers, one after the other. -/
def toEach (l : List ι) (f : ι → List (τ × M)) : List (ι × τ × M) :=
  l.flatMap fun q => (f q).map fun x => (q, x)

/-- What one receiver gets of a burst. -/
theorem along_toEach {l : List ι} (nodup : l.Nodup) (f : ι → List (τ × M)) (q : ι) :
    along q (toEach l f) = if q ∈ l then f q else [] := by
  induction l with
  | nil => rfl
  | cons p l ih =>
      obtain ⟨new, rest⟩ := List.nodup_cons.mp nodup
      have head : along q ((f p).map fun x => (p, x)) = if p = q then f p else [] := by
        rw [along, List.filterMap_map]
        split
        · rename_i same
          simp [same]
        · rename_i apart
          simp [apart]
      rw [toEach, List.flatMap_cons, along_append, head]
      change _ ++ along q (toEach l f) = _
      rw [ih rest]
      rcases eq_or_ne p q with rfl | apart
      · simp [new]
      · simp [apart, apart.symm]

end Rules

end MessagePassing
