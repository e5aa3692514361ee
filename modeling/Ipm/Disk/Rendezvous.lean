import Mathlib.Data.Fintype.Card
import Ipm.Disk.Records
import Ipm.Lib.Runs

/-!
# The rendezvous on disk

`ipm_parallel_init_disk` (`src/ipm.c`): under the lock, each of `n` tasks counts the
records of the file, appends its own, and the trailer too if it counted `n - 1`; then
it polls the last 31 bytes for a token that starts with `+++` and takes the place after
it for the barrier line.

A stream writes a section in pieces, one for each block of the file that the section
fills, and `fflush` the rest before the unlock.  A poll takes no lock: its seek and its
scan see whatever has been written by then.  (A polling stream may still hold what it read
before; but what is written before the barrier line does not change any more.)

A task that found the trailer goes on to its barriers, whose arrive sections write
over the barrier line; a task that gave up polling does not go on here.

* `Meeting`: the invariant, kept by every action (`Meeting.step`) as long as no task seeks
  while a record is partly written whose host has `+++` in its name (`SeeksWhole`).
* `rendezvous_agrees`: over every such run, one record a task, one trailer after the last,
  and one offset, that of the word `barrier`.
* `hostname_taken_for_trailer`: a run in which a task takes the end of a host name, where a
  block of 4096 bytes ends, for the trailer.
-/

namespace Ipm

open Stdio Scan

/-! ## Tasks -/

/-- Where a task is: before its join section, in it with what the stream has written and
has still to write, polling, between the seek and the scan of a poll, past the trailer, out
of time, or returned because of corrupted data. -/
inductive RendezvousPc
  | start
  | joining (put out : Text)
  | polling
  | reading
  | found
  | timedOut
  | corrupted
  deriving DecidableEq

namespace RendezvousPc

/-- The task has written its record. -/
def joined : RendezvousPc → Bool
  | .polling => true
  | .reading => true
  | .found => true
  | .timedOut => true
  | _ => false

/-- What a join section has written. -/
def put : RendezvousPc → Text
  | .joining put _ => put
  | _ => []

end RendezvousPc

/-- The file, the holder of its lock, and of each task the place, the position of its
stream and `ipm_magic_offset`. -/
structure Rendezvous (n : Nat) where
  text : Text
  holder : Option (Fin n)
  pc : Fin n → RendezvousPc
  pos : Fin n → Nat
  ipmMagicOffset : Fin n → Nat

/-- An empty file. -/
def Rendezvous.init (n : Nat) : Rendezvous n where
  text := []
  holder := none
  pc := fun _ => .start
  pos := fun _ => 0
  ipmMagicOffset := fun _ => 0

/-- A task takes the lock and reads, its stream writes the next `k` characters, it flushes
and unlocks; it seeks, scans, or gives up polling; or its stream has written the first `k`
characters of a new barrier line. -/
inductive RendezvousAct (n : Nat)
  | lock (p : Fin n)
  | write (p : Fin n) (k : Nat)
  | flush (p : Fin n)
  | seek (p : Fin n)
  | scan (p : Fin n)
  | timeout (p : Fin n)
  | rewrite (p : Fin n) (id count : Int) (k : Nat)

variable {n : Nat}

namespace Rendezvous

/-- The place of task `p` changes. -/
def goto (s : Rendezvous n) (p : Fin n) (pc : RendezvousPc) : Rendezvous n :=
  { s with pc := Function.update s.pc p pc }

/-- The place of task `p` changes, and where its stream and its offset are. -/
def move (s : Rendezvous n) (p : Fin n) (pc : RendezvousPc) (pos magic : Nat) : Rendezvous n :=
  { s.goto p pc with
    pos := Function.update s.pos p pos
    ipmMagicOffset := Function.update s.ipmMagicOffset p magic }

/-- A full block of the stream is written. -/
def write (s : Rendezvous n) (p : Fin n) (put out : Text) (k : Nat) : Rendezvous n :=
  { s.goto p (.joining (put ++ out.take k) (out.drop k)) with text := s.text ++ out.take k }

/-- The end of a join section: flush, unlock, and open the file for polling. -/
def flush (s : Rendezvous n) (p : Fin n) (out : Text) : Rendezvous n :=
  { s.move p .polling 0 (s.ipmMagicOffset p) with
    text := s.text ++ out
    holder := none }

/-- The scan of a poll. -/
def scan (s : Rendezvous n) (p : Fin n) : Rendezvous n :=
  let poll := scanPoll s.text (s.pos p)
  if poll.found then s.move p .found poll.ftell (poll.ftell + 1)
  else s.move p .polling poll.ftell (s.ipmMagicOffset p)

end Rendezvous

/-- One action; an action of a task that is elsewhere is none. -/
def rendezvousStep (job : Fin n → DiskTask) (s : Rendezvous n) :
    RendezvousAct n → Except Unit (Rendezvous n)
  | .lock p =>
      if s.pc p = .start ∧ s.holder = none then
        match joinSection n (job p) s.text with
        | some out => .ok { s.goto p (.joining [] out) with holder := some p }
        -- the initialization returns with the lock
        | none => .ok { s.goto p .corrupted with holder := some p }
      else .error ()
  | .write p k =>
      match s.pc p with
      | .joining put out => .ok (s.write p put out k)
      | _ => .error ()
  | .flush p =>
      match s.pc p with
      | .joining _ out => .ok (s.flush p out)
      | _ => .error ()
  | .seek p =>
      if s.pc p = .polling then
        .ok (s.move p .reading (seekPoll s.text (s.pos p)) (s.ipmMagicOffset p))
      else .error ()
  | .scan p => if s.pc p = .reading then .ok (s.scan p) else .error ()
  | .timeout p =>
      if s.pc p = .polling then .ok (s.move p .timedOut (s.pos p) (s.ipmMagicOffset p))
      else .error ()
  | .rewrite p id count k =>
      -- an arrive section waits for the lock
      if s.pc p = .found ∧ s.holder = none then
        .ok { s with
          text := overwrite s.text (s.ipmMagicOffset p) ((barrierText id count).take k) }
      else .error ()

/-- The tasks in the order they acquired the lock. -/
def lockOrder (acts : List (RendezvousAct n)) : List (Fin n) :=
  acts.filterMap fun
    | .lock p => some p
    | _ => none

/-- The tasks in the order they ended their sections. -/
def flushOrder (acts : List (RendezvousAct n)) : List (Fin n) :=
  acts.filterMap fun
    | .flush p => some p
    | _ => none

/-! ## The invariant -/

/-- The place of the word `barrier` once these tasks have written. -/
def barrierOffset (job : Fin n → DiskTask) (order : List (Fin n)) : Nat :=
  (diskRecords job order).length + 4

/-- The file holds the records of the tasks that have written, and the trailer once all
have. -/
structure FileText (job : Fin n → DiskTask) (done : List (Fin n)) (text : Text) : Prop where
  early : done.length ≠ n → text = diskRecords job done
  late : done.length = n → ∃ t, IsTrailer t ∧ text = diskRecords job done ++ t

/-- The tasks meet: `order` have taken the lock, `done` of them have written. -/
structure Meeting (job : Fin n → DiskTask) (order done : List (Fin n)) (s : Rendezvous n) :
    Prop where
  /-- No task joins twice, and a task that has taken the lock is not back at the start. -/
  once : order.Nodup
  waiting : ∀ p, s.pc p = .start ↔ p ∉ order
  /-- The tasks write in the order of the lock, one section after the other. -/
  sections : order = done ++ s.holder.toList
  intact : ∀ p, s.pc p ≠ .corrupted
  /-- Without a holder of the lock the file is whole; with one, the first part of what it
  appends is there. -/
  free : s.holder = none → FileText job done s.text
  holding : ∀ p, s.holder = some p → ∃ put out, s.pc p = .joining put out
  joining : ∀ p put out, s.pc p = .joining put out → s.holder = some p ∧
    put ++ out = appended n (job p) done.length ∧ s.text = diskRecords job done ++ put
  /-- Between seek and scan a task stands where no record is taken for the trailer. -/
  reading : ∀ p, s.pc p = .reading →
    NoPlusAt (diskRecords job order) (s.pos p) ∧ s.pos p + 31 ≤ s.text.length
  /-- A task finds the trailer after all have written their records, and its offset is that
  of the word `barrier`. -/
  found : ∀ p, s.pc p = .found → order.length = n ∧
    s.ipmMagicOffset p = barrierOffset job order ∧
    barrierWord <+: s.text.drop (s.ipmMagicOffset p)

/-- No section is partly written whose host has `+++` in its name. -/
def SeeksWhole (job : Fin n → DiskTask) (s : Rendezvous n) : Prop :=
  ∀ q, (s.pc q).put = [] ∨ ¬ plus <:+: (job q).hostname

instance (job : Fin n → DiskTask) (s : Rendezvous n) : Decidable (SeeksWhole job s) :=
  inferInstanceAs (Decidable (∀ q, (s.pc q).put = [] ∨ ¬ plus <:+: (job q).hostname))

section Meeting

variable {job : Fin n → DiskTask} {order done : List (Fin n)} {s s' : Rendezvous n}

/-- A task at another place than the one `p` went to was there before. -/
theorem of_goto {pcs : Fin n → RendezvousPc} {p q : Fin n} {pc place : RendezvousPc}
    (at_ : Function.update pcs p pc q = place) (other : pc ≠ place) :
    q ≠ p ∧ pcs q = place := by
  rcases eq_or_ne q p with rfl | apart
  · exact absurd ((Function.update_self _ _ _).symm.trans at_) other
  · exact ⟨apart, (Function.update_of_ne apart _ _).symm.trans at_⟩

/-- A place that `p` neither left nor went to has the same tasks. -/
theorem goto_iff {pcs : Fin n → RendezvousPc} {p q : Fin n} {pc place : RendezvousPc}
    (left : pcs p ≠ place) (other : pc ≠ place) :
    Function.update pcs p pc q = place ↔ pcs q = place := by
  refine ⟨fun at_ => (of_goto at_ other).2, fun at_ => ?_⟩
  have apart : q ≠ p := by
    rintro rfl
    exact left at_
  exact (Function.update_of_ne apart _ _).trans at_

theorem init_meeting (job : Fin n → DiskTask) (some_ : 0 < n) :
    Meeting job [] [] (Rendezvous.init n) where
  once := List.nodup_nil
  waiting _ := ⟨fun _ => List.not_mem_nil, fun _ => rfl⟩
  sections := rfl
  intact _ := nofun
  free _ := ⟨fun _ => rfl, fun all => absurd all some_.ne⟩
  holding _ held := by cases held
  joining _ _ _ at_ := by cases at_
  reading _ at_ := by cases at_
  found _ at_ := by cases at_

/-- As long as a task has not written, not all have. -/
theorem length_lt_of_not_mem {p : Fin n} (nodup : done.Nodup) (not_mem : p ∉ done) :
    done.length < n := by
  have card := (List.nodup_cons.mpr ⟨not_mem, nodup⟩).length_le_card
  rw [Fintype.card_fin, List.length_cons] at card
  exact card

theorem nodup_snoc {p : Fin n} : (done ++ [p]).Nodup ↔ p ∉ done ∧ done.Nodup := by
  rw [List.nodup_append_comm, List.singleton_append, List.nodup_cons]

namespace Meeting

/-- A task that has joined has written. -/
theorem ne_nil {p : Fin n} (meeting : Meeting job order done s)
    (joined : (s.pc p).joined = true) : done ≠ [] := by
  rintro rfl
  have started : p ∈ order := by
    by_contra out
    rw [(meeting.waiting p).mpr out] at joined
    cases joined
  rw [meeting.sections, List.nil_append, Option.mem_toList] at started
  obtain ⟨put, out, joining⟩ := meeting.holding p started
  rw [joining] at joined
  cases joined

/-- While a task holds the lock, the tasks before it have written. -/
theorem sections_of_joining {p : Fin n} {put out : Text} (meeting : Meeting job order done s)
    (joining : s.pc p = .joining put out) :
    order = done ++ [p] ∧ p ∉ done ∧ done.length < n := by
  have sections : order = done ++ [p] := by
    rw [meeting.sections, (meeting.joining p put out joining).1]
    rfl
  obtain ⟨new, nodup⟩ := nodup_snoc.mp (sections ▸ meeting.once)
  exact ⟨sections, new, length_lt_of_not_mem nodup new⟩

/-- The file begins with the records of the tasks that have written. -/
theorem begins (meeting : Meeting job order done s) : diskRecords job done <+: s.text := by
  cases holder : s.holder with
  | none =>
      rcases eq_or_ne done.length n with all | early
      · obtain ⟨t, -, text⟩ := (meeting.free holder).late all
        exact text ▸ List.prefix_append _ _
      · rw [(meeting.free holder).early early]
  | some q =>
      obtain ⟨put, out, joining⟩ := meeting.holding q holder
      exact (meeting.joining q put out joining).2.2 ▸ List.prefix_append _ _

/-- The file is a part of the records, or the records and a part of the trailer. -/
theorem written (meeting : Meeting job order done s) :
    s.text <+: diskRecords job order ∨
      order.length = n ∧ ∃ w, TrailerPart w ∧ s.text = diskRecords job order ++ w := by
  cases holder : s.holder with
  | none =>
      have same : order = done := by
        rw [meeting.sections, holder, Option.toList_none, List.append_nil]
      rcases eq_or_ne done.length n with all | early
      · obtain ⟨t, is, text⟩ := (meeting.free holder).late all
        exact Or.inr ⟨same ▸ all, t, ⟨t, is, List.prefix_refl t⟩, same ▸ text⟩
      · exact Or.inl (same ▸ (meeting.free holder).early early ▸ List.prefix_refl _)
  | some q =>
      obtain ⟨put, out, joining⟩ := meeting.holding q holder
      obtain ⟨-, pieces, text⟩ := meeting.joining q put out joining
      obtain ⟨sections, -, -⟩ := meeting.sections_of_joining joining
      rw [sections, diskRecords_snoc, text]
      rcases List.append_eq_append_iff.mp pieces with ⟨a, record, -⟩ | ⟨w, split, trailer_⟩
      · exact Or.inl ((List.prefix_append_right_inj _).mpr ⟨a, record.symm⟩)
      · split at trailer_
        · rename_i last
          refine Or.inr ⟨?_, w, ⟨trailer, trailer_isTrailer, out, trailer_.symm⟩, ?_⟩
          · rw [List.length_append, List.length_singleton]
            exact last
          · rw [split, List.append_assoc]
        · have none_ : w = [] := (List.append_eq_nil_iff.mp trailer_.symm).1
          rw [split, none_, List.append_nil]
          exact Or.inl (List.prefix_refl _)

/-- A task takes the lock and reads the records of all that have written. -/
theorem lock (blankless : ∀ p, ∀ c ∈ (job p).hostname, isSpace c = false) {p : Fin n}
    (meeting : Meeting job order done s) (h : rendezvousStep job s (.lock p) = .ok s') :
    Meeting job (order ++ [p]) done s' := by
  simp only [rendezvousStep] at h
  split at h
  · rename_i ready
    obtain ⟨start, free⟩ := ready
    have same : order = done := by
      rw [meeting.sections, free, Option.toList_none, List.append_nil]
    have new : p ∉ order := (meeting.waiting p).mp start
    have few := length_lt_of_not_mem (same ▸ meeting.once) (same ▸ new)
    have text := (meeting.free free).early few.ne
    rw [text, joinSection_records blankless done p] at h
    cases h
    refine ⟨nodup_snoc.mpr ⟨new, meeting.once⟩, fun q => ?_, same ▸ rfl, fun q at_ => ?_, nofun,
      fun q held => ?_, fun q put out at_ => ?_, fun q at_ => ?_, fun q at_ => ?_⟩
    · rw [List.mem_append, List.mem_singleton, not_or, ← meeting.waiting q]
      refine ⟨fun at_ => (of_goto at_ nofun).symm, fun at_ => ?_⟩
      exact (Function.update_of_ne at_.2 _ _).trans at_.1
    · exact meeting.intact q (of_goto at_ nofun).2
    · cases held
      exact ⟨[], _, Function.update_self _ _ _⟩
    · rcases eq_or_ne q p with rfl | apart
      · cases (Function.update_self _ _ _).symm.trans at_
        exact ⟨rfl, rfl, text.trans (List.append_nil _).symm⟩
      · have before : s.pc q = .joining put out :=
          (Function.update_of_ne apart _ _).symm.trans at_
        have held := (meeting.joining q put out before).1
        rw [free] at held
        cases held
    · obtain ⟨quiet, back⟩ := meeting.reading q (of_goto at_ nofun).2
      exact ⟨quiet.append p, back⟩
    · have all := (meeting.found q (of_goto at_ nofun).2).1
      rw [same] at all
      exact absurd all few.ne
  · cases h

/-- The stream of a section writes a full block. -/
theorem write {p : Fin n} {k : Nat} (meeting : Meeting job order done s)
    (h : rendezvousStep job s (.write p k) = .ok s') : Meeting job order done s' := by
  simp only [rendezvousStep] at h
  split at h
  · rename_i put out joining
    cases h
    obtain ⟨held, pieces, text⟩ := meeting.joining p put out joining
    have away : ∀ place : RendezvousPc, (∀ a b, RendezvousPc.joining a b ≠ place) →
        s.pc p ≠ place := by
      intro place other
      rw [joining]
      exact other put out
    refine ⟨meeting.once, fun q => ?_, meeting.sections, fun q at_ => ?_, fun free => ?_,
      fun q also => ?_, fun q put' out' at_ => ?_, fun q at_ => ?_, fun q at_ => ?_⟩
    · have other : RendezvousPc.joining (put ++ out.take k) (out.drop k) ≠ .start := nofun
      exact (goto_iff (away .start nofun) other).trans (meeting.waiting q)
    · exact meeting.intact q (of_goto at_ nofun).2
    · cases held.symm.trans free
    · cases held.symm.trans also
      exact ⟨_, _, Function.update_self _ _ _⟩
    · rcases eq_or_ne q p with rfl | apart
      · cases (Function.update_self _ _ _).symm.trans at_
        refine ⟨held, ?_, ?_⟩
        · rw [List.append_assoc, List.take_append_drop, pieces]
        · change s.text ++ out.take k = _
          rw [text, List.append_assoc]
      · have before : s.pc q = .joining put' out' :=
          (Function.update_of_ne apart _ _).symm.trans at_
        have also := (meeting.joining q put' out' before).1
        exact absurd (Option.some.inj (held.symm.trans also)).symm apart
    · obtain ⟨quiet, back⟩ := meeting.reading q (of_goto at_ nofun).2
      exact ⟨quiet, back.trans (List.prefix_append _ _).length_le⟩
    · obtain ⟨all, offset, word⟩ := meeting.found q (of_goto at_ nofun).2
      refine ⟨all, offset, word.trans ?_⟩
      change _ <+: (s.text ++ out.take k).drop _
      rw [List.drop_append]
      exact List.prefix_append _ _
  · cases h

/-- What a task leaves when it gives the lock up. -/
theorem flush_text {p : Fin n} (meeting : Meeting job order done s)
    (h : rendezvousStep job s (.flush p) = .ok s') :
    s'.text = diskRecords job (done ++ [p]) ++ if done.length + 1 = n then trailer else [] := by
  simp only [rendezvousStep] at h
  split at h
  · rename_i put out joining
    cases h
    obtain ⟨-, pieces, text⟩ := meeting.joining p put out joining
    change s.text ++ out = _
    rw [text, List.append_assoc, pieces, appended, diskRecords_snoc, List.append_assoc]
  · cases h

/-- A task writes the rest of its section and gives the lock up. -/
theorem flush {p : Fin n} (meeting : Meeting job order done s)
    (h : rendezvousStep job s (.flush p) = .ok s') :
    Meeting job order (done ++ [p]) s' := by
  have whole := meeting.flush_text h
  simp only [rendezvousStep] at h
  split at h
  · rename_i put out joining
    cases h
    have held := (meeting.joining p put out joining).1
    obtain ⟨sections, -, few⟩ := meeting.sections_of_joining joining
    have length : (done ++ [p]).length = done.length + 1 := by simp
    have grown : (s.flush p out).text = s.text ++ out := rfl
    refine ⟨meeting.once, fun q => ?_, sections.trans (List.append_nil _).symm, fun q at_ => ?_,
      fun _ => ⟨fun more => ?_, fun all => ⟨trailer, trailer_isTrailer, ?_⟩⟩, nofun,
      fun q put' out' at_ => ?_, fun q at_ => ?_, fun q at_ => ?_⟩
    · have left : s.pc p ≠ .start := by simp only [joining, ne_eq, reduceCtorEq, not_false_eq_true]
      have other : RendezvousPc.polling ≠ .start := nofun
      exact (goto_iff left other).trans (meeting.waiting q)
    · exact meeting.intact q (of_goto at_ nofun).2
    · rw [whole, if_neg (length ▸ more), List.append_nil]
    · rw [whole, if_pos (length ▸ all)]
    · obtain ⟨apart, before⟩ := of_goto at_ nofun
      have also := (meeting.joining q put' out' before).1
      exact absurd (Option.some.inj (held.symm.trans also)).symm apart
    · obtain ⟨apart, before⟩ := of_goto at_ nofun
      obtain ⟨quiet, back⟩ := meeting.reading q before
      have same : (s.flush p out).pos q = s.pos q := Function.update_of_ne apart _ _
      rw [same, grown]
      exact ⟨quiet, back.trans (List.prefix_append _ _).length_le⟩
    · obtain ⟨apart, before⟩ := of_goto at_ nofun
      obtain ⟨all, offset, word⟩ := meeting.found q before
      have same : (s.flush p out).ipmMagicOffset q = s.ipmMagicOffset q :=
        Function.update_of_ne apart _ _
      rw [same, grown, List.drop_append]
      exact ⟨all, offset, word.trans (List.prefix_append _ _)⟩
  · cases h

/-- A task that has joined goes on polling, or leaves. -/
theorem move {p : Fin n} {pc : RendezvousPc} {pos magic : Nat}
    (meeting : Meeting job order done s) (here : (s.pc p).joined = true)
    (joined : pc.joined = true)
    (reading : pc = .reading → NoPlusAt (diskRecords job order) pos ∧ pos + 31 ≤ s.text.length)
    (found : pc = .found → order.length = n ∧ magic = barrierOffset job order ∧
      barrierWord <+: s.text.drop magic) :
    Meeting job order done (s.move p pc pos magic) := by
  have away : ∀ {at_ place : RendezvousPc}, at_.joined = true → place.joined = false →
      at_ ≠ place := by
    intro at_ place inside out same
    rw [same, out] at inside
    cases inside
  refine ⟨meeting.once, fun q => ?_, meeting.sections, fun q at_ => ?_, meeting.free,
    fun q held => ?_, fun q put out at_ => ?_, fun q at_ => ?_, fun q at_ => ?_⟩
  · exact (goto_iff (away here rfl) (away joined rfl)).trans (meeting.waiting q)
  · exact meeting.intact q (of_goto at_ (away joined rfl)).2
  · obtain ⟨put, out, joining⟩ := meeting.holding q held
    exact ⟨put, out, (goto_iff (away here rfl) (away joined rfl)).mpr joining⟩
  · exact meeting.joining q put out (of_goto at_ (away joined rfl)).2
  · rcases eq_or_ne q p with rfl | apart
    · have pos_ : (s.move q pc pos magic).pos q = pos := Function.update_self _ _ _
      rw [pos_]
      exact reading ((Function.update_self _ _ _).symm.trans at_)
    · have pos_ : (s.move p pc pos magic).pos q = s.pos q := Function.update_of_ne apart _ _
      rw [pos_]
      exact meeting.reading q ((Function.update_of_ne apart _ _).symm.trans at_)
  · rcases eq_or_ne q p with rfl | apart
    · have magic_ : (s.move q pc pos magic).ipmMagicOffset q = magic := Function.update_self _ _ _
      rw [magic_]
      exact found ((Function.update_self _ _ _).symm.trans at_)
    · have magic_ : (s.move p pc pos magic).ipmMagicOffset q = s.ipmMagicOffset q :=
        Function.update_of_ne apart _ _
      rw [magic_]
      exact meeting.found q ((Function.update_of_ne apart _ _).symm.trans at_)

/-- The last 31 bytes of the file begin where no record is taken for the trailer. -/
theorem noPlusAt_seek (meeting : Meeting job order done s) (some_ : done ≠ [])
    (whole : SeeksWhole job s) : NoPlusAt (diskRecords job order) (s.text.length - 31) := by
  have long := (length_diskRecords job some_).trans meeting.begins.length_le
  cases holder : s.holder with
  | none =>
      have same : order = done := by
        rw [meeting.sections, holder, Option.toList_none, List.append_nil]
      rw [same]
      have file := meeting.free holder
      rcases eq_or_ne done.length n with all | early
      · obtain ⟨t, is, text⟩ := file.late all
        have length := congrArg List.length text
        rw [List.length_append, is.length] at length
        exact noPlusAt_recordEnd some_ (by omega) (by omega)
      · have length := congrArg List.length (file.early early)
        exact noPlusAt_recordEnd some_ (by omega) (by omega)
  | some q =>
      obtain ⟨put, out, joining⟩ := meeting.holding q holder
      obtain ⟨-, pieces, text⟩ := meeting.joining q put out joining
      obtain ⟨sections, -, -⟩ := meeting.sections_of_joining joining
      have length := congrArg List.length text
      rw [List.length_append] at length
      rw [sections]
      rcases Nat.lt_or_ge (diskRecords job done).length (s.text.length - 31) with inside | before
      · have partly : (s.pc q).put ≠ [] := by
          rw [joining]
          rintro none_
          change put = [] at none_
          rw [none_, List.length_nil] at length
          omega
        apply noPlusAt_plain ((whole q).resolve_left partly) inside.le
        have bound := congrArg List.length pieces
        rw [appended, List.length_append, List.length_append] at bound
        have end_ : (if done.length + 1 = n then trailer else []).length ≤ 31 := by
          split
          · exact trailer_isTrailer.length.le
          · exact Nat.zero_le 31
        rw [diskRecords_snoc, List.length_append]
        omega
      · exact (noPlusAt_recordEnd some_ before (by omega)).append q

theorem seek {p : Fin n} (meeting : Meeting job order done s) (whole : SeeksWhole job s)
    (h : rendezvousStep job s (.seek p) = .ok s') : Meeting job order done s' := by
  simp only [rendezvousStep] at h
  split at h
  · rename_i polling
    cases h
    have here : (s.pc p).joined = true := polling ▸ rfl
    have some_ := meeting.ne_nil here
    have long := (length_diskRecords job some_).trans meeting.begins.length_le
    rw [seekPoll, if_pos long]
    refine meeting.move here rfl (fun _ => ⟨meeting.noPlusAt_seek some_ whole, ?_⟩) nofun
    omega
  · cases h

theorem scan {p : Fin n} (meeting : Meeting job order done s)
    (h : rendezvousStep job s (.scan p) = .ok s') : Meeting job order done s' := by
  simp only [rendezvousStep] at h
  split at h
  · rename_i reading
    cases h
    have here : (s.pc p).joined = true := reading ▸ rfl
    obtain ⟨quiet, back⟩ := meeting.reading p reading
    rw [Rendezvous.scan]
    split
    · rename_i found
      refine meeting.move here rfl nofun fun _ => ?_
      rcases meeting.written with part | ⟨all, w, part, text⟩
      · rw [scanPoll_records quiet part] at found
        cases found
      · have some_ : order ≠ [] := by
          rw [meeting.sections]
          exact List.append_ne_nil_of_left_ne_nil (meeting.ne_nil here) _
        rw [text] at found back ⊢
        obtain ⟨ftell, word⟩ := scanPoll_trailer some_ quiet part back found
        refine ⟨all, by rw [ftell]; rfl, ?_⟩
        rw [ftell, List.drop_append, List.drop_eq_nil_of_le (by omega), List.nil_append]
        have four : (diskRecords job order).length + 3 + 1 - (diskRecords job order).length = 4 :=
          Nat.add_sub_cancel_left _ 4
        rwa [four]
    · exact meeting.move here rfl nofun nofun
  · cases h

theorem timeout {p : Fin n} (meeting : Meeting job order done s)
    (h : rendezvousStep job s (.timeout p) = .ok s') : Meeting job order done s' := by
  simp only [rendezvousStep] at h
  split at h
  · rename_i polling
    cases h
    exact meeting.move (polling ▸ rfl) rfl nofun nofun
  · cases h

/-- The word `barrier` is at the offset. -/
theorem barrier_at {done : List (Fin n)} {text : Text}
    (file : FileText job done text) (all : done.length = n) :
    barrierWord <+: text.drop (barrierOffset job done) := by
  obtain ⟨t, ⟨rest, _, rfl⟩, rfl⟩ := file.late all
  have place : barrierOffset job done = (diskRecords job done ++ plusLine).length := by
    rw [List.length_append, length_plusLine]
    rfl
  rw [← List.append_assoc, place, List.drop_left]
  exact List.prefix_append _ _

/-- A write over the barrier line leaves the trailer one. -/
theorem rewrite {p : Fin n} {id count : Int} {k : Nat} (meeting : Meeting job order done s)
    (fits : (barrierText id count).length ≤ 27)
    (h : rendezvousStep job s (.rewrite p id count k) = .ok s') :
    Meeting job order done s' := by
  simp only [rendezvousStep] at h
  split at h
  · rename_i ready
    obtain ⟨at_, free⟩ := ready
    cases h
    have same : order = done := by
      rw [meeting.sections, free, Option.toList_none, List.append_nil]
    obtain ⟨all, offset, -⟩ := meeting.found p at_
    subst same
    obtain ⟨t, is, text⟩ := (meeting.free free).late all
    obtain ⟨t', is', written⟩ := overwrite_trailer (diskRecords job order) is fits k
    have after : overwrite s.text (s.ipmMagicOffset p) ((barrierText id count).take k)
        = diskRecords job order ++ t' := by
      rw [offset, text]
      exact written
    have file : FileText job order
        (overwrite s.text (s.ipmMagicOffset p) ((barrierText id count).take k)) :=
      ⟨fun early => absurd all early, fun _ => ⟨t', is', after⟩⟩
    refine ⟨meeting.once, meeting.waiting, meeting.sections, meeting.intact, fun _ => file,
      meeting.holding, fun q put out joining => ?_, fun q reading => ?_, fun q found => ?_⟩
    · have held := (meeting.joining q put out joining).1
      rw [free] at held
      cases held
    · obtain ⟨quiet, back⟩ := meeting.reading q reading
      refine ⟨quiet, ?_⟩
      change _ ≤ (overwrite _ _ _).length
      rw [after, List.length_append, is'.length]
      rwa [text, List.length_append, is.length] at back
    · obtain ⟨-, offset', -⟩ := meeting.found q found
      refine ⟨all, offset', ?_⟩
      rw [offset']
      exact barrier_at file all
  · cases h

end Meeting

end Meeting

/-! ## Runs -/

section Runs

variable {job : Fin n → DiskTask} {acts : List (RendezvousAct n)} {s : Rendezvous n}

/-- What one action keeps, with the tasks in the order of their sections. -/
theorem Meeting.step {order done : List (Fin n)} {s' : Rendezvous n} {a : RendezvousAct n}
    (blankless : ∀ p, ∀ c ∈ (job p).hostname, isSpace c = false)
    (fits : ∀ p id count k, a = .rewrite p id count k → (barrierText id count).length ≤ 27)
    (whole : ∀ p, a = .seek p → SeeksWhole job s) (meeting : Meeting job order done s)
    (h : rendezvousStep job s a = .ok s') :
    Meeting job (order ++ lockOrder [a]) (done ++ flushOrder [a]) s' := by
  have order_ := List.append_nil order
  have done_ := List.append_nil done
  cases a with
  | lock p => exact done_.symm ▸ meeting.lock blankless h
  | flush p => exact order_.symm ▸ meeting.flush h
  | write p k => exact order_.symm ▸ done_.symm ▸ meeting.write h
  | seek p => exact order_.symm ▸ done_.symm ▸ meeting.seek (whole p rfl) h
  | scan p => exact order_.symm ▸ done_.symm ▸ meeting.scan h
  | timeout p => exact order_.symm ▸ done_.symm ▸ meeting.timeout h
  | rewrite p id count k =>
      exact order_.symm ▸ done_.symm ▸ meeting.rewrite (fits p id count k rfl) h

/-- A run keeps the meeting, with the tasks in the order of the run's sections. -/
theorem run_meeting (some_ : 0 < n) (blankless : ∀ p, ∀ c ∈ (job p).hostname, isSpace c = false)
    (fits : ∀ p id count k, .rewrite p id count k ∈ acts → (barrierText id count).length ≤ 27)
    (whole : ∀ s p, Runs.Visit (rendezvousStep job) (.init n) acts s (.seek p) → SeeksWhole job s)
    (ran : Runs.run (rendezvousStep job) (.init n) acts = .ok s) :
    Meeting job (lockOrder acts) (flushOrder acts) s := by
  induction acts using List.reverseRecOn generalizing s with
  | nil =>
      cases ran
      exact init_meeting job some_
  | append_singleton acts a ih =>
      obtain ⟨s', before, step⟩ := Runs.run_snoc_eq_ok ran
      have meeting := ih (fun p id count k mem => fits p id count k (List.mem_append_left _ mem))
        (fun t p visit => whole t p (visit.of_prefix (List.prefix_append acts [a]))) before
      rw [lockOrder, flushOrder, List.filterMap_append, List.filterMap_append]
      refine meeting.step blankless (fun p id count k last => ?_) (fun p last => ?_) step
      · subst last
        exact fits p id count k (List.mem_append_right _ (List.mem_singleton_self _))
      · subst last
        exact whole s' p ⟨acts, List.prefix_refl _, before⟩

/-- A poll after the last section finds the trailer. -/
theorem Meeting.poll_found {order done : List (Fin n)} {p : Fin n} {s₁ s₂ : Rendezvous n}
    (meeting : Meeting job order done s) (all : done.length = n)
    (sought : rendezvousStep job s (.seek p) = .ok s₁)
    (scanned : rendezvousStep job s₁ (.scan p) = .ok s₂) : s₂.pc p = .found := by
  have free : s.holder = none := by
    rw [Option.eq_none_iff_forall_ne_some]
    intro q held
    obtain ⟨put, out, joining⟩ := meeting.holding q held
    exact (meeting.sections_of_joining joining).2.2.ne all
  obtain ⟨t, is, text⟩ := (meeting.free free).late all
  have place : seekPoll s.text (s.pos p) = (diskRecords job done).length := by
    rw [seekPoll, text, List.length_append, is.length, if_pos (Nat.le_add_left 31 _)]
    exact Nat.add_sub_cancel _ 31
  obtain ⟨rest, -, rfl⟩ := is
  simp only [rendezvousStep] at sought scanned
  split at sought
  · cases sought
    split at scanned
    · cases scanned
      have pos : (s.move p .reading (seekPoll s.text (s.pos p)) (s.ipmMagicOffset p)).pos p
          = (diskRecords job done).length := (Function.update_self _ _ _).trans place
      have blank : skipSpace ((diskRecords job done).drop (diskRecords job done).length) = [] := by
        rw [List.drop_length]
        rfl
      have found : scanPoll (diskRecords job done ++ (plusLine ++ (barrierWord ++ rest)))
          (diskRecords job done).length = ⟨true, (diskRecords job done).length + 3⟩ :=
        scanPoll_plusLine blank le_rfl
      rw [← text] at found
      rw [Rendezvous.scan, pos]
      change (if (scanPoll s.text _).found = true then _ else _ : Rendezvous n).pc p = _
      rw [found]
      exact Function.update_self _ _ _
    · cases scanned
  · cases sought

/-- The tasks agree over every run.  For any number of tasks that join in any order,
with pieces of sections, polls and rewritten barrier lines anywhere, as long as no task
seeks while a record is partly written whose host has `+++` in its name: in every state the
meeting holds; a section appends its record, and the trailer if it is the last; and a poll
made after the last section finds the trailer. -/
theorem rendezvous_agrees (some_ : 0 < n) (job : Fin n → DiskTask)
    (blankless : ∀ p, ∀ c ∈ (job p).hostname, isSpace c = false)
    (acts : List (RendezvousAct n))
    (fits : ∀ p id count k, .rewrite p id count k ∈ acts → (barrierText id count).length ≤ 27)
    (whole : ∀ s p, Runs.Visit (rendezvousStep job) (.init n) acts s (.seek p) → SeeksWhole job s)
    (s : Rendezvous n) (ran : Runs.run (rendezvousStep job) (.init n) acts = .ok s) :
    Meeting job (lockOrder acts) (flushOrder acts) s ∧
      (∀ p s', rendezvousStep job s (.flush p) = .ok s' →
        s'.text = diskRecords job (flushOrder acts ++ [p]) ++
          if (flushOrder acts).length + 1 = n then trailer else []) ∧
      (∀ p s₁ s₂, (flushOrder acts).length = n → rendezvousStep job s (.seek p) = .ok s₁ →
        rendezvousStep job s₁ (.scan p) = .ok s₂ → s₂.pc p = .found) := by
  have meeting := run_meeting some_ blankless fits whole ran
  exact ⟨meeting, fun p s' step => meeting.flush_text step,
    fun p s₁ s₂ all sought scanned => meeting.poll_found all sought scanned⟩

end Runs

/-- Two tasks, the host of the first with `+++` in its name. -/
def twoTasks (p : Fin 2) : DiskTask :=
  if p.val = 0 then ⟨0, "+++node0".toList, 4711, 1157000000123456⟩
  else ⟨1, "node1".toList, 4712, 1157000000654321⟩

/-- Task `q` joins first and polls early, also while `p` has written only a part of its
section; `p` arrives at a barrier before `q` polls again. -/
def meetActs (p q : Fin n) : List (RendezvousAct n) :=
  [.lock q, .flush q, .seek q, .lock p, .write p 40, .scan q, .seek q, .write p 30, .scan q,
    .flush p, .seek p, .scan p, .rewrite p 0 1 9, .seek q, .rewrite p 0 1 11, .scan q]

/-- Two tasks meet, and agree on the offset 117. -/
theorem rendezvous_agrees_two :
    ∃ s, Runs.run (rendezvousStep twoTasks) (.init 2) (meetActs 1 0) = .ok s ∧
      s.ipmMagicOffset 0 = 117 ∧ s.ipmMagicOffset 1 = 117 ∧
        Meeting twoTasks [0, 1] [0, 1] s := by
  have runs : Runs.okWith (Runs.run (rendezvousStep twoTasks) (.init 2) (meetActs 1 0))
      (fun s => s.ipmMagicOffset 0 == 117 && s.ipmMagicOffset 1 == 117) = true := by
    decide +kernel
  obtain ⟨s, ran, offsets⟩ := Runs.okWith_eq_true runs
  rw [Bool.and_eq_true, beq_iff_eq, beq_iff_eq] at offsets
  refine ⟨s, ran, offsets.1, offsets.2, ?_⟩
  have blankless : ∀ p, ∀ c ∈ (twoTasks p).hostname, isSpace c = false := by
    intro p c
    have all : (twoTasks p).hostname.all (fun c => !isSpace c) = true := by
      revert p
      decide
    exact isSpace_of_all all
  have seeks : Runs.checkVisits (rendezvousStep twoTasks)
      (fun s a => match a with
        | .seek _ => decide (SeeksWhole twoTasks s)
        | _ => true) (.init 2) (meetActs 1 0) = true := by
    decide +kernel
  refine (rendezvous_agrees (by decide) twoTasks blankless (meetActs 1 0) ?_ ?_ s ran).1
  · intro p id count k mem
    simp only [meetActs, List.mem_cons, List.not_mem_nil, reduceCtorEq, false_or, or_false,
      RendezvousAct.rewrite.injEq] at mem
    rcases mem with ⟨-, rfl, rfl, -⟩ | ⟨-, rfl, rfl, -⟩
    all_goals decide
  · intro t p visit
    have check := Runs.checkVisits_visit seeks visit
    simp only [decide_eq_true_eq] at check
    exact check

/-! ## A poll before the section is whole -/

section Taken

variable {job : Fin n → DiskTask}

/-- A task that finds the lock free takes it. -/
theorem Meeting.lock_ok (blankless : ∀ p, ∀ c ∈ (job p).hostname, isSpace c = false)
    {done : List (Fin n)} {s : Rendezvous n} (meeting : Meeting job done done s)
    (free : s.holder = none) {p : Fin n} (new : p ∉ done) :
    ∃ s', rendezvousStep job s (.lock p) = .ok s' ∧ s'.text = s.text ∧ s'.pos = s.pos ∧
      s'.pc = Function.update s.pc p (.joining [] (appended n (job p) done.length)) := by
  have few := length_lt_of_not_mem meeting.once new
  have joins : joinSection n (job p) s.text = some (appended n (job p) done.length) := by
    rw [(meeting.free free).early few.ne]
    exact joinSection_records blankless done p
  have start : s.pc p = .start := (meeting.waiting p).mpr new
  refine ⟨{ s.goto p (.joining [] (appended n (job p) done.length)) with holder := some p },
    ?_, rfl, rfl, rfl⟩
  simp only [rendezvousStep, start, free, and_self, if_true, joins]

variable {s : Rendezvous n} {p q : Fin n} {put out : Text}

theorem flush_ok (joining : s.pc p = .joining put out) :
    rendezvousStep job s (.flush p) = .ok (s.flush p out) := by
  simp only [rendezvousStep, joining]

theorem write_ok (joining : s.pc p = .joining put out) (k : Nat) :
    rendezvousStep job s (.write p k) = .ok (s.write p put out k) := by
  simp only [rendezvousStep, joining]

/-- A poll that takes what it reads for the trailer. -/
theorem poll_ok (polling : s.pc q = .polling) {ftell : Nat}
    (taken : scanPoll s.text (seekPoll s.text (s.pos q)) = ⟨true, ftell⟩) :
    ∃ s', Runs.run (rendezvousStep job) s [.seek q, .scan q] = .ok s' ∧ s'.text = s.text ∧
      s'.pc q = .found ∧ s'.ipmMagicOffset q = ftell + 1 := by
  have seeks : rendezvousStep job s (.seek q) =
      .ok (s.move q .reading (seekPoll s.text (s.pos q)) (s.ipmMagicOffset q)) := by
    simp only [rendezvousStep, polling, if_true]
  have scans : ∀ t : Rendezvous n, t.pc q = .reading →
      scanPoll t.text (t.pos q) = ⟨true, ftell⟩ →
      rendezvousStep job t (.scan q) = .ok (t.move q .found ftell (ftell + 1)) := by
    intro t at_ read
    simp only [rendezvousStep, at_, if_true, Rendezvous.scan, read]
  generalize sought : s.move q .reading _ _ = t at seeks
  have reads : t.pc q = .reading := by
    rw [← sought]
    exact Function.update_self _ _ _
  have place : t.pos q = seekPoll s.text (s.pos q) := by
    rw [← sought]
    exact Function.update_self _ _ _
  have same : t.text = s.text := by
    rw [← sought]
    rfl
  refine ⟨t.move q .found ftell (ftell + 1), ?_, same, Function.update_self q _ _,
    Function.update_self q _ _⟩
  rw [Runs.run_cons_ok seeks, Runs.run_cons_ok (scans t reads (place ▸ same ▸ taken))]
  rfl

/-- The tasks that join write in that order. -/
theorem flushOrder_joins (order : List (Fin n)) :
    flushOrder (order.flatMap fun p => [.lock p, .flush p]) = order := by
  induction order with
  | nil => rfl
  | cons p order ih =>
      rw [List.flatMap_cons, flushOrder, List.filterMap_append]
      exact congrArg (p :: ·) ih

/-- A task that finds the lock free joins. -/
theorem Meeting.join (blankless : ∀ p, ∀ c ∈ (job p).hostname, isSpace c = false)
    {done : List (Fin n)} (meeting : Meeting job done done s) (free : s.holder = none)
    (new : p ∉ done) :
    ∃ s', Runs.run (rendezvousStep job) s [.lock p, .flush p] = .ok s' ∧ s'.holder = none ∧
      s'.pc = Function.update s.pc p .polling ∧
      Meeting job (done ++ [p]) (done ++ [p]) s' := by
  obtain ⟨t, locked, -, -, pcs⟩ := meeting.lock_ok blankless free new
  have joining : t.pc p = .joining [] (appended n (job p) done.length) := by
    rw [pcs, Function.update_self]
  have flushed : rendezvousStep job t (.flush p) =
      .ok (t.flush p (appended n (job p) done.length)) := flush_ok joining
  refine ⟨_, ?_, rfl, ?_, (meeting.lock blankless locked).flush flushed⟩
  · rw [Runs.run_cons_ok locked, Runs.run_cons_ok flushed]
    rfl
  · change Function.update t.pc p .polling = _
    rw [pcs, Function.update_idem]

/-- Every order in which tasks join is a run. -/
theorem run_joins (some_ : 0 < n) (blankless : ∀ p, ∀ c ∈ (job p).hostname, isSpace c = false)
    {order : List (Fin n)} (once : order.Nodup) :
    ∃ s, Runs.run (rendezvousStep job) (.init n)
        (order.flatMap fun p => [.lock p, .flush p]) = .ok s ∧ s.holder = none ∧
      (∀ p ∈ order, s.pc p = .polling) ∧ Meeting job order order s := by
  induction order using List.reverseRecOn with
  | nil => exact ⟨_, rfl, rfl, nofun, init_meeting job some_⟩
  | append_singleton order p ih =>
      obtain ⟨new, once'⟩ := nodup_snoc.mp once
      obtain ⟨s, ran, free, polling, meeting⟩ := ih once'
      obtain ⟨s', joined, free', pcs, meeting'⟩ := meeting.join blankless free new
      refine ⟨s', ?_, free', fun q mem => ?_, meeting'⟩
      · rw [List.flatMap_append, List.flatMap_singleton]
        exact Runs.run_trans ran joined
      · rw [pcs]
        rcases eq_or_ne q p with rfl | apart
        · exact Function.update_self _ _ _
        · rw [Function.update_of_ne apart]
          exact polling q ((List.mem_append.mp mem).resolve_right (apart ∘ List.mem_singleton.mp))

/-- A task polls after the stream of another has written a piece of its section. -/
theorem Meeting.poll_piece (blankless : ∀ p, ∀ c ∈ (job p).hostname, isSpace c = false)
    {done : List (Fin n)} (meeting : Meeting job done done s) (free : s.holder = none)
    (new : p ∉ done) (polling : s.pc q = .polling) {text : Text} {k ftell : Nat}
    (piece : text = s.text ++ (appended n (job p) done.length).take k)
    (taken : ∀ pos, scanPoll text (seekPoll text pos) = ⟨true, ftell⟩) :
    ∃ s', Runs.run (rendezvousStep job) s [.lock p, .write p k, .seek q, .scan q] = .ok s' ∧
      s'.text = text ∧ s'.pc q = .found ∧ s'.ipmMagicOffset q = ftell + 1 := by
  have apart : q ≠ p := by
    rintro rfl
    rw [(meeting.waiting q).mpr new] at polling
    cases polling
  obtain ⟨t, locked, text_, -, pcs⟩ := meeting.lock_ok blankless free new
  have joining : t.pc p = .joining [] (appended n (job p) done.length) := by
    rw [pcs, Function.update_self]
  have written : rendezvousStep job t (.write p k) =
      .ok (t.write p [] (appended n (job p) done.length) k) := write_ok joining k
  generalize torn : t.write p [] (appended n (job p) done.length) k = u at written
  have grown : u.text = text := by
    rw [← torn, piece, ← text_]
    rfl
  have here : u.pc q = .polling := by
    rw [← torn]
    change Function.update t.pc p _ q = _
    rw [Function.update_of_ne apart, pcs, Function.update_of_ne apart, polling]
  obtain ⟨s', polled, kept, found, magic⟩ := poll_ok here (grown.symm ▸ taken _)
  refine ⟨s', ?_, kept.trans grown, found, magic⟩
  rw [Runs.run_cons_ok locked, Runs.run_cons_ok written]
  exact polled

end Taken

/-- 71 tasks on one host, and one on a host with `+++` in its name. -/
def manyTasks (p : Fin 72) : DiskTask :=
  if p.val = 71 then ⟨71, "node13+++".toList, 3071, 1157000000654321⟩
  else ⟨p.val, "node12".toList, 3000 + p.val, 1157000000123456⟩

/-- The tasks of the one host. -/
def firstTasks : List (Fin 72) := (List.finRange 71).map Fin.castSucc

/-- The last task writes its section up to the end of the first block of the file, and a
task polls. -/
def takenActs : List (RendezvousAct 72) :=
  (firstTasks.flatMap fun p => [.lock p, .flush p]) ++
    [.lock 71, .write 71 49, .seek 0, .scan 0]

/-- A host name is taken for the trailer.  The file has its first 4096 bytes, the
records of 71 tasks and a part of the last, and task 0 has found a barrier line. -/
theorem hostname_taken_for_trailer :
    (∀ p, ∀ c ∈ (manyTasks p).hostname, isSpace c = false) ∧
      ∃ s, Runs.run (rendezvousStep manyTasks) (.init 72) takenActs = .ok s ∧
        s.text.length = 4096 ∧ (flushOrder takenActs).length = 71 ∧ s.pc 0 = .found ∧
        ¬ barrierWord <+: s.text.drop (s.ipmMagicOffset 0) := by
  have blankless : ∀ p, ∀ c ∈ (manyTasks p).hostname, isSpace c = false := by
    intro p c
    have all : (manyTasks p).hostname.all (fun c => !isSpace c) = true := by
      rw [manyTasks]
      split <;> rfl
    exact isSpace_of_all all
  have once : firstTasks.Nodup := (List.nodup_finRange 71).map (Fin.castSucc_injective 71)
  obtain ⟨s, ran, free, polling, meeting⟩ := run_joins (by decide) blankless once
  have count : firstTasks.length = 71 := by simp [firstTasks]
  have new : (71 : Fin 72) ∉ firstTasks := by
    intro mem
    obtain ⟨p, -, same⟩ := List.mem_map.mp mem
    exact absurd same (Fin.castSucc_ne_last p)
  have first : (0 : Fin 72) ∈ firstTasks := List.mem_map_of_mem (List.mem_finRange 0)
  have text := (meeting.free free).early (by rw [count]; decide)
  have size : s.text.length = 4047 := by
    have each : ∀ p : Fin 71, (diskRecord 72 (manyTasks p.castSucc)).length = 57 := by
      decide +kernel
    rw [text, diskRecords, List.length_flatMap, firstTasks, List.map_map]
    simp only [Function.comp_def, each, List.map_const', List.length_finRange,
      List.sum_replicate_nat]
  let piece := (appended 72 (manyTasks 71) 71).take 49
  have block : (s.text ++ piece).length = 4096 := by
    have length : piece.length = 49 := by decide +kernel
    rw [List.length_append, size, length]
  have drop : ∀ k, (s.text ++ piece).drop (4047 + k) = piece.drop k := fun k => by
    rw [← size, List.drop_length_add_append]
  -- the rest of the name is a token of its own
  have taken : ∀ pos, scanPoll (s.text ++ piece) (seekPoll (s.text ++ piece) pos)
      = ⟨true, 4068⟩ := by
    intro pos
    have scan : fscanf [.s] (piece.drop 18) = ⟨[plus], false, piece.drop 21⟩ := by
      decide +kernel
    have length : (piece.drop 21).length = 28 := by decide +kernel
    have place : seekPoll (s.text ++ piece) pos = 4047 + 18 := by
      rw [seekPoll, block]
      rfl
    simp only [scanPoll, place, drop, scan, block, length]
    rfl
  obtain ⟨s', polled, text', found, magic⟩ :=
    meeting.poll_piece blankless free new (polling 0 first) (by rw [count]) taken
  refine ⟨blankless, s', Runs.run_trans ran polled, text' ▸ block, ?_, found, ?_⟩
  · rw [takenActs, flushOrder, List.filterMap_append, List.length_append]
    exact congrArg List.length (flushOrder_joins firstTasks) |>.trans count
  · rw [text', magic]
    change ¬ barrierWord <+: (s.text ++ piece).drop (4047 + 22)
    rw [drop]
    decide +kernel

end Ipm
