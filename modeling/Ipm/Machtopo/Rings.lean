import Ipm.Machtopo.Script

/-!
# The rings of the machine topology

Each rank of `ipm_get_machtopo` follows its script (`machtopo_ok`), whatever order the
messages from `MPI_ANY_SOURCE` arrive in; so every run does.  At each receive the rank
names the stage it has come to, so no run is stuck.

* `machtopo_rings`: every message is taken by a receive meant for it, every run goes on
  until all ranks have ended, and then the roots, the sizes and the two kinds of rings
  are those of the hosts.
-/

namespace Ipm

open MessagePassing

section Rules

variable {n : Nat} [NeZero n] {H : Type*} [DecidableEq H] {host : Fin n → H} {me : Fin n}
  {Post : List (Fin n × MpiTag × TopoMsg H) → List (Receipt (Fin n) MpiTag (TopoMsg H)) →
    Topo H → Prop}
  {sent : List (Fin n × MpiTag × TopoMsg H)} {rcvd : List (Receipt (Fin n) MpiTag (TopoMsg H))}
  {l : Nat}

theorem sends_nil (host : Fin n → H) (p : Fin n) : Sends host p [] :=
  ⟨members host p, List.Perm.refl _, List.nil_prefix⟩

theorem Sends.closed {p : Fin n} (a b : List (Fin n × MpiTag × TopoMsg H))
    (sends : Sends host p (a ++ b)) : Sends host p a := by
  obtain ⟨order, perm, isPrefix⟩ := sends
  exact ⟨order, perm, (List.prefix_append a b).trans isPrefix⟩

omit [NeZero n] [DecidableEq H] in
/-- What is due at a stage is in all that is sent. -/
theorem getElem?_along_of_isPrefix {a b : List (Fin n × MpiTag × TopoMsg H)} {i : Nat}
    {x : MpiTag × TopoMsg H} (isPrefix : a <+: b) (at_ : (along me a)[i]? = some x) :
    (along me b)[i]? = some x := by
  obtain ⟨rest, whole⟩ := along_isPrefix (q := me) isPrefix
  rw [← whole, List.getElem?_append_left (List.getElem?_eq_some_iff.mp at_).1, at_]

/-- The rule of an integer from a rank, at a stage at which that rank has sent it. -/
theorem ok_recvInt {p : Fin n} {accepts : MpiTag → Bool} {kind : TopoKind}
    {k : Int → TopoProc n H} (own : (topoContract host).Stage me l sent)
    (next : ∀ order, order.Perm (members host p) → ∃ tag z,
      (along me (stageScript host p order l))[(Receipts.along p rcvd).length]?
          = some (tag, ⟨kind, .int z⟩) ∧
        accepts tag = true ∧
        (k z).Ok (topoContract host) me Post sent
          (rcvd ++ [⟨p, tag, ⟨kind, .int z⟩, true⟩])) :
    (recvInt (some p) accepts kind k).Ok (topoContract host) me Post sent rcvd := by
  apply Proc.ok_recv_from
  · refine ⟨l, own, p, Or.inr rfl, fun sentBy come => ?_⟩
    obtain ⟨order, perm, isPrefix⟩ := come
    obtain ⟨tag, z, at_, accepted, -⟩ := next order perm
    exact ⟨_, getElem?_along_of_isPrefix isPrefix at_, accepted⟩
  · intro sentBy sends
    obtain ⟨order, perm, isPrefix⟩ := sends
    obtain ⟨tag, z, at_, accepted, ok⟩ := next order perm
    have at_' := getElem?_along_of_isPrefix (stageScript_isPrefix host p order l) at_
    exact ⟨_, tag, _, along_isPrefix isPrefix, at_', accepted, beq_self_eq_true kind, ok⟩

/-- The rule of a name from a rank, at a stage at which that rank has sent it. -/
theorem ok_recvChars {p : Fin n} {accepts : MpiTag → Bool} {kind : TopoKind}
    {k : H → TopoProc n H} (own : (topoContract host).Stage me l sent)
    (next : ∀ order, order.Perm (members host p) → ∃ tag h,
      (along me (stageScript host p order l))[(Receipts.along p rcvd).length]?
          = some (tag, ⟨kind, .chars h⟩) ∧
        accepts tag = true ∧
        (k h).Ok (topoContract host) me Post sent
          (rcvd ++ [⟨p, tag, ⟨kind, .chars h⟩, true⟩])) :
    (recvChars (some p) accepts kind k).Ok (topoContract host) me Post sent rcvd := by
  apply Proc.ok_recv_from
  · refine ⟨l, own, p, Or.inr rfl, fun sentBy come => ?_⟩
    obtain ⟨order, perm, isPrefix⟩ := come
    obtain ⟨tag, h, at_, accepted, -⟩ := next order perm
    exact ⟨_, getElem?_along_of_isPrefix isPrefix at_, accepted⟩
  · intro sentBy sends
    obtain ⟨order, perm, isPrefix⟩ := sends
    obtain ⟨tag, h, at_, accepted, ok⟩ := next order perm
    have at_' := getElem?_along_of_isPrefix (stageScript_isPrefix host p order l) at_
    exact ⟨_, tag, _, along_isPrefix isPrefix, at_', accepted, beq_self_eq_true kind, ok⟩

end Rules

/-! ## Rank 0 and the names -/

section Gather

variable {n : Nat} [NeZero n] {H : Type*} [DecidableEq H] {host : Fin n → H}
  {Post : List (Fin n × MpiTag × TopoMsg H) → List (Receipt (Fin n) MpiTag (TopoMsg H)) →
    Topo H → Prop}

/-- The answers to these ranks. -/
def answers (host : Fin n → H) (l : List (Fin n)) : List (Fin n × MpiTag × TopoMsg H) :=
  toEach l fun q => [answerMsg host q]

/-- The names of these ranks. -/
def names (host : Fin n → H) (l : List (Fin n)) : List (Receipt (Fin n) MpiTag (TopoMsg H)) :=
  l.map fun q => ⟨q, (nameMsg host q).1, (nameMsg host q).2, true⟩

omit [NeZero n] [DecidableEq H] in
theorem along_names {l : List (Fin n)} (nodup : l.Nodup) (q : Fin n) :
    Receipts.along q (names host l) = if q ∈ l then [nameMsg host q] else [] := by
  induction l with
  | nil => rfl
  | cons p l ih =>
      obtain ⟨new, rest⟩ := List.nodup_cons.mp nodup
      change Receipts.along q
        ([⟨p, (nameMsg host p).1, (nameMsg host p).2, true⟩] ++ names host l) = _
      rw [Receipts.along_append, ih rest]
      rcases eq_or_ne p q with rfl | apart
      · rw [Receipts.along_self, if_neg new, if_pos List.mem_cons_self]
        rfl
      · rw [Receipts.along_other apart, List.nil_append]
        simp only [List.mem_cons, apart.symm, false_or]

/-- Rank 0 gathers the names: after the ranks `done` it has received their names,
answered with their roots, and filled its table. -/
theorem ok_gatherHosts {read : TopoRead n H} (reads : ReadsRanks read)
    {k : HostTable H → TopoProc n H} {done rest : List (Fin n)} {t : HostTable H}
    (split_ : 0 :: done ++ rest = List.finRange n)
    (table : TableOk host (0 :: done) t)
    (next : ∀ t, TableOk host (List.finRange n) t →
      (k t).Ok (topoContract host) 0 Post (answers host (otherRanks n))
        (names host (otherRanks n))) :
    (gatherHosts read rest t k).Ok (topoContract host) 0 Post (answers host done)
      (names host done) := by
  have others : done ++ rest = otherRanks n := by
    rw [finRange_eq] at split_
    exact (List.cons.inj split_).2
  induction rest generalizing done t with
  | nil =>
      rw [List.append_nil] at split_ others
      rw [others]
      exact next t (split_ ▸ table)
  | cons i rest ih =>
      have nodup : (done ++ i :: rest).Nodup := others ▸ otherRanks_nodup
      obtain ⟨doneNodup, -, apart⟩ := List.nodup_append.mp nodup
      have new : i ∉ done := fun mem => apart i mem i List.mem_cons_self rfl
      have other : i ≠ 0 := mem_otherRanks.mp (others ▸ by simp)
      have onward : 0 :: (done ++ [i]) ++ rest = List.finRange n := by
        rw [← split_]
        simp
      have onward' : done ++ [i] ++ rest = otherRanks n := by
        rw [← others]
        simp
      have own : (topoContract host).Stage 0 1 (answers host done) :=
        ⟨members host 0, List.Perm.refl _, List.nil_prefix⟩
      apply ok_recvChars own
      intro order perm
      refine ⟨(nameMsg host i).1, host i, ?_, rfl, ?_⟩
      · rw [along_stage_one host order other, along_names doneNodup, if_neg new]
        rfl
      · obtain ⟨t', j, found, table', root⟩ := table.count split_ (List.cons_ne_nil _ _)
        have grown : answers host (done ++ [i])
            = answers host done ++ [(i, answerMsg host i)] := by
          simp [answers, toEach]
        have grown' : names host (done ++ [i])
            = names host done ++ [⟨i, (nameMsg host i).1, (nameMsg host i).2, true⟩] := by
          simp [names]
        simp only [found]
        rw [reads _ _ _ _ root]
        refine ⟨?_, ?_⟩
        · refine ⟨members host 0, List.Perm.refl _, ?_⟩
          have begin_ : answers host done ++ [(i, answerMsg host i)] <+:
              answers host (otherRanks n) := by
            refine ⟨answers host rest, ?_⟩
            rw [← grown, ← onward']
            simp [answers, toEach]
          rw [script, if_pos rfl]
          exact begin_.trans (List.prefix_append _ _)
        · have after := ih onward table' onward'
          rw [grown, grown'] at after
          exact after

end Gather

/-! ## The ring of a host -/

section Ring

variable {n : Nat} [NeZero n] {H : Type*} [DecidableEq H] {host : Fin n → H} {me : Fin n}
  {Post : List (Fin n × MpiTag × TopoMsg H) → List (Receipt (Fin n) MpiTag (TopoMsg H)) →
    Topo H → Prop}
  {sent : List (Fin n × MpiTag × TopoMsg H)}

/-- How many messages a root has received of a rank before it collects its ranks. -/
def beforeRing (me q : Fin n) : Nat :=
  if me = 0 then (if q = 0 then 0 else 1) else if q = 0 then 4 else 0

/-- What a root that collects can receive from a rank: the rank of a member that has
not come yet, and nothing else. -/
theorem along_collect (root : hostRoot host me = me) {q : Fin n} {order : List (Fin n)}
    (perm : order.Perm (members host q)) {seen : Nat} (once : seen ≤ 1) :
    (∀ x ∈ (along me (script host q order)).drop (beforeRing me q + seen), MpiTag.any x.1 = false) ∨
      q ∈ members host me ∧ seen = 0 ∧
        (along me (script host q order))[beforeRing me q]? = some (rankMsg q) := by
  have empty : ∀ k, (∀ x ∈ ([] : List (MpiTag × TopoMsg H)).drop k, MpiTag.any x.1 = false) := by
    simp
  -- a rank sends its number to its root once, and nothing else after what came before
  have last : ∀ l : List (MpiTag × TopoMsg H), l.length = beforeRing me q →
      (∀ x ∈ (l ++ if q ∈ members host me then [rankMsg q] else []).drop (beforeRing me q + seen),
          MpiTag.any x.1 = false) ∨
        q ∈ members host me ∧ seen = 0 ∧
          (l ++ if q ∈ members host me then [rankMsg q] else [])[beforeRing me q]?
            = some (rankMsg q) := by
    intro l length
    split
    · rename_i member
      rcases Nat.le_one_iff_eq_zero_or_eq_one.mp once with fresh | gone
      · refine Or.inr ⟨member, fresh, ?_⟩
        rw [← length, List.getElem?_append_right (Nat.le_refl _), Nat.sub_self]
        rfl
      · left
        rw [gone, ← length, List.drop_append, List.drop_eq_nil_of_le (Nat.le_succ _)]
        simp
    · left
      rw [List.append_nil, List.drop_eq_nil_of_le (by omega)]
      simp
  rcases eq_or_ne q me with rfl | apart
  · rw [along_self_script perm root]
    exact Or.inl (empty _)
  rcases eq_or_ne me 0 with rfl | notZero
  · have length : [nameMsg host q].length = beforeRing 0 q := by
      rw [beforeRing, if_pos rfl, if_neg apart]
      rfl
    have found := last _ length
    simp only [mem_members_of_ne apart] at found ⊢
    rw [along_script_zero perm apart]
    exact found
  · rcases eq_or_ne q 0 with rfl | other
    · -- after the answer and the values of the host, rank 0 has only broadcasts
      left
      rw [along_zero_script perm notZero, if_pos root, if_neg (root.symm ▸ notZero), beforeRing,
        if_neg notZero, if_pos rfl]
      intro x mem
      have either : x = hnameMsg host ∨ x = nhostsMsg host := by
        rcases Nat.le_one_iff_eq_zero_or_eq_one.mp once with rfl | rfl
        · simpa [rootMsgs] using mem
        · exact Or.inr (by simpa [rootMsgs] using mem)
      rcases either with rfl | rfl
      · rfl
      · rfl
    · have length : ([] : List (MpiTag × TopoMsg H)).length = beforeRing me q := by
        rw [beforeRing, if_neg notZero, if_neg other]
        rfl
      have found := last _ length
      rcases eq_or_ne (hostRoot host q) q with own | member'
      · have away : ¬ (hostRoot host me = q ∧ me ≠ q) := fun both => apart (root ▸ both.1).symm
        rw [along_root_script perm other own notZero, if_neg away]
        exact Or.inl (empty _)
      · simp only [mem_members_of_ne apart] at found ⊢
        rw [along_member_script other member' notZero]
        exact found

/-- A member sends its number to its root, after what came before. -/
theorem along_member_collect {q : Fin n} {order : List (Fin n)}
    (perm : order.Perm (members host q)) (member : q ∈ members host me) :
    (along me (script host q order))[beforeRing me q]? = some (rankMsg q) := by
  obtain ⟨root, apart⟩ := mem_members.mp member
  rcases eq_or_ne me 0 with rfl | notZero
  · rw [along_script_zero perm apart, if_pos root, beforeRing, if_pos rfl, if_neg apart]
    rfl
  · have zero : q ≠ 0 := fun zero => notZero (by rw [← root, zero, hostRoot_zero])
    have other : hostRoot host q ≠ q := fun own => apart (own.symm.trans root)
    rw [along_member_script zero other notZero, if_pos root, beforeRing, if_neg notZero,
      if_neg zero]
    rfl

/-- A root that has not got all its members waits for one of them. -/
theorem collect_awaits {arrived : List (Fin n)}
    {rcvd : List (Receipt (Fin n) MpiTag (TopoMsg H))}
    (own : (topoContract host).Stage me 3 sent)
    (more : arrived.length < (members host me).length)
    (counts : ∀ q, (Receipts.along q rcvd).length = beforeRing me q + arrived.count q) :
    AwaitsAt (topoContract host) me 3 none MpiTag.any sent rcvd := by
  obtain ⟨q, member, new⟩ : ∃ q ∈ members host me, q ∉ arrived := by
    by_contra none_
    push Not at none_
    have within := (members_nodup.subperm none_).length_le
    omega
  obtain ⟨root', apart⟩ := mem_members.mp member
  have other : hostRoot host q ≠ q := fun own => apart (own.symm.trans root')
  have zero : q ≠ 0 := fun zero => other (by rw [zero, hostRoot_zero])
  refine ⟨own, q, Or.inl rfl, fun sentBy come => ⟨rankMsg q, ?_, rfl⟩⟩
  obtain ⟨order, perm, isPrefix⟩ := come
  rw [stageScript_member host order zero other] at isPrefix
  rw [counts q, List.count_eq_zero.mpr new]
  exact getElem?_along_of_isPrefix isPrefix (along_member_collect perm member)

/-- A root collects its members, in the order in which their messages arrive. -/
theorem ok_collectRanks {k : List Int → TopoProc n H} (root : hostRoot host me = me)
    (own : (topoContract host).Stage me 3 sent)
    {rounds : Nat} {arrived : List (Fin n)}
    {rcvd : List (Receipt (Fin n) MpiTag (TopoMsg H))} (nodup : arrived.Nodup)
    (inside : ∀ q ∈ arrived, q ∈ members host me)
    (all : arrived.length + rounds = (members host me).length)
    (counts : ∀ q, (Receipts.along q rcvd).length = beforeRing me q + arrived.count q)
    (next : ∀ order rcvd', order.Perm (members host me) →
      (∀ q, (Receipts.along q rcvd').length = beforeRing me q + order.count q) →
      (k ((me :: order).map fun p : Fin n => (p : Int))).Ok (topoContract host) me Post sent
        rcvd') :
    (collectRanks rounds ((me :: arrived).map fun p : Fin n => (p : Int)) k).Ok
      (topoContract host) me Post sent rcvd := by
  induction rounds generalizing arrived rcvd with
  | zero =>
      apply next arrived rcvd ?_ counts
      exact (List.subperm_of_subset nodup inside).perm_of_length_le (by omega)
  | succ rounds ih =>
      apply Proc.ok_recv ⟨3, collect_awaits own (by omega) counts⟩
      intro q sentBy _ sends
      obtain ⟨order, perm, isPrefix⟩ := sends
      refine ⟨_, along_isPrefix isPrefix, ?_⟩
      rw [counts q]
      have once : arrived.count q ≤ 1 := List.nodup_iff_count_le_one.mp nodup q
      rcases along_collect root perm once with refused | ⟨member, fresh, at_⟩
      · exact Or.inl refused
      · refine Or.inr ⟨.user 0, ⟨.mpiRank, .int q⟩, ?_, rfl, rfl, ?_⟩
        · rw [fresh]
          exact at_
        · have new : q ∉ arrived := List.count_eq_zero.mp fresh
          have after := @ih (arrived ++ [q])
            (rcvd ++ [⟨q, .user 0, ⟨.mpiRank, .int q⟩, true⟩]) ?_ ?_ ?_ ?_
          · simpa using after
          · rw [List.nodup_append_comm, List.singleton_append, List.nodup_cons]
            exact ⟨new, nodup⟩
          · intro x mem
            rcases List.mem_append.mp mem with before | last
            · exact inside x before
            · rwa [List.mem_singleton.mp last]
          · rw [List.length_append, List.length_singleton]
            omega
          · intro x
            rw [Receipts.along_append, List.length_append, counts x, List.count_append]
            rcases eq_or_ne x q with rfl | apart
            · rw [Receipts.along_self, List.count_singleton_self, List.length_singleton]
              omega
            · rw [Receipts.along_other apart.symm, List.count_singleton, List.length_nil]
              simp [apart.symm]

/-- The exchange of a root: it collects its members in some order, and sends them
their messages. -/
theorem ok_intraRing_root {read : TopoRead n H} (reads : ReadsRanks read) {t : Topo H}
    {k : Topo H → TopoProc n H}
    {rcvd : List (Receipt (Fin n) MpiTag (TopoMsg H))} (root : hostRoot host me = me)
    (two : 2 ≤ hostSize host me) (intraRoot : t.intraRoot = me)
    (size : t.intraSize = hostSize host me) (left : t.interLeft = (roots host).formPerm.symm me)
    (right : t.interRight = (roots host).formPerm me)
    (own : (topoContract host).Stage me 3 sent)
    (counts : ∀ q, (Receipts.along q rcvd).length = beforeRing me q)
    (begun : ∀ order : List (Fin n), ∃ tail,
      script host me order = sent ++ (toEach order (ringMsgs host me order) ++ tail))
    (next : ∀ order rcvd', order.Perm (members host me) →
      (∀ q, (Receipts.along q rcvd').length = beforeRing me q + order.count q) →
      (k { t with
          intraLeft := (me :: order).formPerm.symm me
          intraRight := (me :: order).formPerm me }).Ok (topoContract host) me Post
        (sent ++ toEach order (ringMsgs host me order)) rcvd') :
    (intraRing read me t k).Ok (topoContract host) me Post sent rcvd := by
  have length := hostSize_eq root
  have rounds : (t.intraSize - 1).toNat = (members host me).length := by omega
  rw [intraRing, if_pos intraRoot.symm, rounds]
  refine @ok_collectRanks n _ H _ host me Post sent _ root own _ [] rcvd List.nodup_nil
    (fun q mem => by cases mem) (Nat.zero_add _) (fun q => counts q) ?_
  intro order rcvd' perm counts'
  have count := perm.length_eq
  have nodup : (me :: order).Nodup := ring_nodup perm
  have all : (members host me).length + (0 + 1) = (me :: order).length := by
    rw [List.length_cons]
    omega
  have whole : t.intraSize = (me :: order).length := by
    rw [List.length_cons]
    omega
  have loop := sendRing_eq reads nodup whole size left right
    (read ((me :: order).map fun p : Fin n => (p : Int)) (t.intraSize - 1) fun intraLeft =>
      read ((me :: order).map fun p : Fin n => (p : Int)) 1 fun intraRight =>
        k { t with intraLeft := intraLeft, intraRight := intraRight }) all
  rw [Nat.zero_add, List.drop_one, List.tail_cons] at loop
  rw [loop]
  obtain ⟨tail, begun⟩ := begun order
  apply Proc.ok_sends Sends.closed
  · refine ⟨order, perm, tail, ?_⟩
    rw [begun, List.append_assoc]
  · obtain ⟨m, last⟩ : ∃ m, (me :: order).length = m + 1 + 1 := by
      refine ⟨order.length - 1, ?_⟩
      rw [List.length_cons]
      omega
    have place : t.intraSize - 1 = ((m + 1 : Nat) : Int) := by omega
    have before : (me :: order).formPerm.symm me = (me :: order)[m + 1] :=
      Neighbours.formPerm_symm_zero nodup (Nat.succ_pos _) last.symm
    have after : (me :: order).formPerm me = (me :: order)[1] :=
      List.formPerm_apply_lt_getElem (me :: order) nodup 0 (by omega)
    have one : ((1 : Nat) : Int) = 1 := rfl
    rw [place, reads _ _ _ _ (getElem?_ranks (m + 1) (by omega)), ← one,
      reads _ _ _ _ (getElem?_ranks 1 (by omega)), ← before, ← after]
    exact next order rcvd' perm counts'

/-- What a root sends to a member: something known, and then the ring messages. -/
theorem along_member_ring {p : Fin n} (zero : p ≠ 0) (member : hostRoot host p ≠ p)
    {order : List (Fin n)} (perm : order.Perm (members host (hostRoot host p))) :
    ∃ a b, along p (script host (hostRoot host p) order)
        = a ++ (ringMsgs host (hostRoot host p) order p ++ b) ∧
      a.length = if hostRoot host p = 0 then 1 else 0 := by
  rcases eq_or_ne (hostRoot host p) 0 with own | other
  · rw [own] at perm ⊢
    rw [along_zero_script perm zero, if_neg member, if_pos own]
    exact ⟨[answerMsg host p], [hnameMsg host, nhostsMsg host], rfl, rfl⟩
  · refine ⟨[], [], ?_, ?_⟩
    · rw [along_root_script perm other (hostRoot_idem host p) zero,
        if_pos ⟨rfl, member.symm⟩, List.append_nil]
      rfl
    · rw [if_neg other]
      rfl

end Ring

/-! ## Every rank follows its script -/

section Ends

variable {n : Nat} [NeZero n] {H : Type*} [DecidableEq H] {host : Fin n → H}

/-- The values of a rank, with these neighbours on its host. -/
def topoOf (host : Fin n → H) (p left right : Fin n) : Topo H where
  nhosts := (roots host).length
  mpiHnameRoot := host 0
  interLeft := (roots host).formPerm.symm (hostRoot host p)
  interRight := (roots host).formPerm (hostRoot host p)
  intraSize := hostSize host (hostRoot host p)
  intraRoot := hostRoot host p
  intraLeft := left
  intraRight := right

/-- How a rank ends: a root has sent its script for the order of its ring, another rank
has its neighbours from its root. -/
def Ends (host : Fin n → H) (p : Fin n) (sent : List (Fin n × MpiTag × TopoMsg H))
    (rcvd : List (Receipt (Fin n) MpiTag (TopoMsg H))) (t : Topo H) : Prop :=
  ∃ left right, t = topoOf host p left right ∧
    if hostRoot host p = p then
      ∃ order, order.Perm (members host p) ∧ sent = script host p order ∧
        left = (p :: order).formPerm.symm p ∧ right = (p :: order).formPerm p
    else
      (MpiTag.user 4, ⟨.intraLeft, .int left⟩) ∈ Receipts.along (hostRoot host p) rcvd ∧
        (MpiTag.user 5, ⟨.intraRight, .int right⟩) ∈ Receipts.along (hostRoot host p) rcvd

/-- How many messages a rank has received of rank 0 before the broadcasts. -/
def beforeBcast (host : Fin n → H) (p : Fin n) : Nat :=
  1 + ((if hostRoot host p = p then 3 else 0) + if hostRoot host p = 0 then 5 else 0)

/-- The broadcasts are the last messages of rank 0. -/
theorem along_zero_end {p : Fin n} (zero : p ≠ 0) {order : List (Fin n)}
    (perm : order.Perm (members host 0)) :
    ∃ l, along p (script host 0 order) = l ++ [hnameMsg host, nhostsMsg host] ∧
      l.length = beforeBcast host p := by
  rw [along_zero_script perm zero]
  refine ⟨answerMsg host p :: ((if hostRoot host p = p then rootMsgs host p else []) ++
    if hostRoot host p = 0 then ringMsgs host 0 order p else []), ?_, ?_⟩
  · rw [List.cons_append, List.append_assoc]
  · rw [beforeBcast, List.length_cons, List.length_append, apply_ite List.length,
      apply_ite List.length, Nat.add_comm]
    rfl

/-- The rule of the broadcasts. -/
theorem ok_recvBroadcasts {p : Fin n} (zero : p ≠ 0) {t : Topo H}
    {sent : List (Fin n × MpiTag × TopoMsg H)}
    {rcvd : List (Receipt (Fin n) MpiTag (TopoMsg H))}
    (all : ∃ order, order.Perm (members host p) ∧ sent = script host p order)
    (count : (Receipts.along 0 rcvd).length = beforeBcast host p)
    (ends : ∀ more, Ends host p sent (rcvd ++ more)
      { t with mpiHnameRoot := host 0, nhosts := (roots host).length }) :
    (recvBroadcasts t).Ok (topoContract host) p (Ends host p) sent rcvd := by
  apply ok_recvChars (stage_of_script all 4)
  intro order perm
  obtain ⟨l, whole, length⟩ := along_zero_end zero perm
  refine ⟨.bcast, host 0, ?_, rfl, ?_⟩
  · rw [stageScript_last, whole, count, ← length, List.getElem?_append_right (Nat.le_refl _),
      Nat.sub_self]
    rfl
  · apply ok_recvInt (stage_of_script all 4)
    intro order' perm'
    obtain ⟨l', whole', length'⟩ := along_zero_end zero perm'
    refine ⟨.bcast, (roots host).length, ?_, rfl, ?_⟩
    · rw [Receipts.along_append, Receipts.along_self, List.length_append, count, ← length',
        stageScript_last, whole', List.getElem?_append_right (Nat.le_add_right _ _),
        List.length_singleton, Nat.add_sub_cancel_left]
      rfl
    · rw [List.append_assoc]
      exact ⟨ends _, stage_of_script all⟩

/-- The rule of the ring message that comes after `j` others. -/
theorem ok_recvRing {p : Fin n} (zero : p ≠ 0) (member : hostRoot host p ≠ p) {j tag : Nat}
    {kind : TopoKind} {k : Int → TopoProc n H}
    {Post : List (Fin n × MpiTag × TopoMsg H) → List (Receipt (Fin n) MpiTag (TopoMsg H)) →
      Topo H → Prop}
    {sent : List (Fin n × MpiTag × TopoMsg H)} {rcvd : List (Receipt (Fin n) MpiTag (TopoMsg H))}
    (all : ∃ order, order.Perm (members host p) ∧ sent = script host p order)
    (count : (Receipts.along (hostRoot host p) rcvd).length
      = (if hostRoot host p = 0 then 1 else 0) + j)
    (next : ∀ order, ∃ z, (ringMsgs host (hostRoot host p) order p)[j]?
        = some (.user tag, ⟨kind, .int z⟩) ∧
      (k z).Ok (topoContract host) p Post sent
        (rcvd ++ [⟨hostRoot host p, .user tag, ⟨kind, .int z⟩, true⟩])) :
    (recvIntFrom (hostRoot host p : Int) tag kind k).Ok (topoContract host) p Post sent rcvd := by
  rw [recvIntFrom_rank]
  apply ok_recvInt (stage_of_script all 4)
  intro order perm
  obtain ⟨a, b, whole, length⟩ := along_member_ring zero member perm
  obtain ⟨z, at_, ok⟩ := next order
  have within := (List.getElem?_eq_some_iff.mp at_).1
  refine ⟨.user tag, z, ?_, beq_self_eq_true _, ok⟩
  rw [stageScript_last, whole, count, ← length, List.getElem?_append_right (Nat.le_add_right _ _),
    Nat.add_sub_cancel_left, List.getElem?_append_left within]
  exact at_

omit [NeZero n] in
/-- The test by which a rank finds that it is no root. -/
theorem rank_ne_root {p : Fin n} (member : hostRoot host p ≠ p) :
    ¬ ((p : Int) = (hostRoot host p : Fin n)) := by
  intro same
  apply member
  apply Fin.ext
  exact (Int.ofNat.inj same).symm

/-- A rank that is no root sends its name and its number, and takes over what its
root sends. -/
theorem ok_member (read : TopoRead n H) {p : Fin n} (zero : p ≠ 0)
    (member : hostRoot host p ≠ p) :
    (intraRing read p { Topo.zero (host p) with intraRoot := hostRoot host p } recvBroadcasts).Ok
      (topoContract host) p (Ends host p) [(0, nameMsg host p)]
      [⟨0, (answerMsg host p).1, (answerMsg host p).2, true⟩] := by
  have first : (Receipts.along (hostRoot host p)
      [⟨0, (answerMsg host p).1, (answerMsg host p).2, true⟩]).length
        = (if hostRoot host p = 0 then 1 else 0) + 0 := by
    split
    · rename_i own
      rw [own, Receipts.along_self]
      rfl
    · rename_i other
      rw [Receipts.along_other (Ne.symm other)]
      rfl
  have more : ∀ (rcvd : List (Receipt (Fin n) MpiTag (TopoMsg H))) (j : Nat) tag m,
      (Receipts.along (hostRoot host p) rcvd).length
        = (if hostRoot host p = 0 then 1 else 0) + j →
      (Receipts.along (hostRoot host p) (rcvd ++ [⟨hostRoot host p, tag, m, true⟩])).length
        = (if hostRoot host p = 0 then 1 else 0) + (j + 1) := by
    intro rcvd j tag m count
    rw [Receipts.along_append, Receipts.along_self, List.length_append, count,
      List.length_singleton, Nat.add_assoc]
  rw [intraRing, if_neg (rank_ne_root member), sendInt_rank]
  have all : ∃ order, order.Perm (members host p) ∧
      [(0, nameMsg host p)] ++ [(hostRoot host p, rankMsg p)] = script host p order := by
    refine ⟨members host p, List.Perm.refl _, ?_⟩
    rw [script, if_neg zero, if_neg member]
    rfl
  refine ⟨?_, ?_⟩
  · obtain ⟨order, perm, whole⟩ := all
    exact ⟨order, perm, whole ▸ List.prefix_rfl⟩
  have count1 := more _ 0 (.user 1) ⟨.memberInterLeft, .int ((roots host).formPerm.symm
    (hostRoot host p))⟩ first
  have count2 := more _ 1 (.user 2) ⟨.memberInterRight, .int ((roots host).formPerm
    (hostRoot host p))⟩ count1
  have count3 := more _ 2 (.user 3) ⟨.memberIntraSize, .int (hostSize host (hostRoot host p))⟩
    count2
  apply ok_recvRing zero member all first
  refine fun _ => ⟨_, rfl, ?_⟩
  apply ok_recvRing zero member all count1
  refine fun _ => ⟨_, rfl, ?_⟩
  apply ok_recvRing zero member all count2
  refine fun _ => ⟨_, rfl, ?_⟩
  apply ok_recvRing zero member all count3
  refine fun order => ⟨_, rfl, ?_⟩
  have count4 := more _ 3 (.user 4) ⟨.intraLeft, .int ((hostRoot host p :: order).formPerm.symm p)⟩
    count3
  apply ok_recvRing zero member all count4
  refine fun order' => ⟨_, rfl, ?_⟩
  apply ok_recvBroadcasts zero all
  · rw [beforeBcast, if_neg member]
    split
    · rename_i own
      rw [own]
      simp [Receipts.along]
    · rename_i other
      simp [Receipts.along, other]
  · refine fun rest => ⟨(hostRoot host p :: order).formPerm.symm p,
      (hostRoot host p :: order').formPerm p, rfl, ?_⟩
    rw [if_neg member]
    refine ⟨?_, ?_⟩ <;> simp [Receipts.along]

/-- A root other than 0 sends its name, receives its values, and runs its ring. -/
theorem ok_root {read : TopoRead n H} (reads : ReadsRanks read) {p : Fin n} (zero : p ≠ 0)
    (root : hostRoot host p = p) (two : 2 ≤ hostSize host p) :
    (intraRing read p
      { Topo.zero (host p) with
        intraRoot := hostRoot host p
        intraSize := hostSize host p
        interLeft := (roots host).formPerm.symm p
        interRight := (roots host).formPerm p }
      recvBroadcasts).Ok (topoContract host) p (Ends host p) [(0, nameMsg host p)]
      (⟨0, (answerMsg host p).1, (answerMsg host p).2, true⟩ ::
        (rootMsgs host p).map fun x => ⟨0, x.1, x.2, true⟩) := by
  have own : (topoContract host).Stage p 3 [(0, nameMsg host p)] := by
    have early : 3 ≤ nameUntil host p := by rw [nameUntil, if_pos root]
    refine ⟨members host p, List.Perm.refl _, ?_⟩
    rw [stageScript, if_neg zero, if_pos early]
  apply ok_intraRing_root reads root two (by rw [root]) rfl rfl rfl own
  · intro q
    rw [beforeRing, if_neg zero]
    split
    · rename_i own
      rw [own]
      simp [Receipts.along, rootMsgs]
    · rename_i other
      simp [Receipts.along, rootMsgs, Ne.symm other]
  · intro order
    refine ⟨[], ?_⟩
    rw [script, if_neg zero, if_pos root, List.append_nil]
    rfl
  · intro order rcvd' perm counts
    have whole : [(0, nameMsg host p)] ++ toEach order (ringMsgs host p order)
        = script host p order := by
      rw [script, if_neg zero, if_pos root]
      rfl
    apply ok_recvBroadcasts zero ⟨order, perm, whole⟩
    · have absent : order.count 0 = 0 := by
        rw [List.count_eq_zero, mem_order perm, hostRoot_zero]
        exact fun both => zero both.1.symm
      rw [counts 0, absent, beforeRing, if_neg zero, if_pos rfl, beforeBcast, root, if_pos rfl,
        if_neg zero]
    · intro more
      refine ⟨(p :: order).formPerm.symm p, (p :: order).formPerm p, ?_, ?_⟩
      · simp only [topoOf, root]
      · rw [if_pos root]
        exact ⟨order, perm, whole, rfl, rfl⟩

/-- A rank other than 0 follows its script. -/
theorem ok_machtopoTask {read : TopoRead n H} (reads : ReadsRanks read) {p : Fin n}
    (zero : p ≠ 0) (two : 2 ≤ hostSize host (hostRoot host p)) :
    (machtopoTask read p (host p)).Ok (topoContract host) p (Ends host p) [] [] := by
  refine ⟨⟨members host p, List.Perm.refl _, ?_⟩, ?_⟩
  · rw [script, if_neg zero]
    split
    · exact ⟨_, rfl⟩
    · exact ⟨_, rfl⟩
  have own : (topoContract host).Stage p 2 [(0, nameMsg host p)] := by
    have early : 2 ≤ nameUntil host p := by
      rw [nameUntil]
      split
      · decide
      · decide
    refine ⟨members host p, List.Perm.refl _, ?_⟩
    rw [stageScript, if_neg zero, if_pos early]
  apply ok_recvInt own
  intro order perm
  refine ⟨(answerMsg host p).1, hostRoot host p, ?_, rfl, ?_⟩
  · rw [along_stage_two host order zero]
    rfl
  rcases eq_or_ne (hostRoot host p) p with root | member
  · rw [root] at two
    have values : ∀ order j,
        (along p (stageScript host 0 order 2))[j + 1]? = (rootMsgs host p)[j]? := by
      intro order j
      rw [along_stage_two host order zero, if_pos root, List.getElem?_cons_succ]
    have start : ((p : Int) = (hostRoot host p : Fin n)) := by rw [root]
    rw [if_pos start]
    apply ok_recvInt own
    intro order perm
    refine ⟨.user 0, hostSize host p, ?_, rfl, ?_⟩
    · have at_ := values order 0
      simpa [Receipts.along, rootMsgs] using at_
    apply ok_recvInt own
    intro order perm
    refine ⟨.user 0, (roots host).formPerm.symm p, ?_, rfl, ?_⟩
    · have at_ := values order 1
      simpa [Receipts.along, rootMsgs] using at_
    apply ok_recvInt own
    intro order perm
    refine ⟨.user 0, (roots host).formPerm p, ?_, rfl, ?_⟩
    · have at_ := values order 2
      simpa [Receipts.along, rootMsgs] using at_
    exact ok_root reads zero root two
  · rw [if_neg (rank_ne_root member)]
    exact ok_member read zero member

/-- With a second host, rank 0 sends the roots their messages and has its own neighbours. -/
theorem zeroData_eq {read : TopoRead n H} (reads : ReadsRanks read) {t : HostTable H}
    (table : TableOk host (List.finRange n) t) (hosts : 2 ≤ (roots host).length) (topo : Topo H)
    (k : Topo H → TopoProc n H) :
    zeroData read t topo k = Proc.sends (toEach (roots host).tail (rootMsgs host))
      (k { topo with
        intraSize := hostSize host 0
        interLeft := (roots host).formPerm.symm 0
        interRight := (roots host).formPerm 0 }) := by
  have nhosts : t.nhosts = (roots host).length := table.nhosts
  obtain ⟨array, sizes⟩ := table.arrays
  obtain ⟨m, count⟩ : ∃ m, (roots host).length = m + 1 + 1 := ⟨(roots host).length - 2, by omega⟩
  have head : (roots host)[0]? = some 0 := by
    rw [roots_eq]
    rfl
  obtain ⟨_, first⟩ := List.getElem?_eq_some_iff.mp head
  have size := sizes 0 (by omega)
  have before : (roots host).formPerm.symm 0 = (roots host)[m + 1] := by
    rw [← Neighbours.formPerm_symm_zero roots_nodup (by omega) count.symm, first]
  have after : (roots host).formPerm 0 = (roots host)[1] := by
    rw [← List.formPerm_apply_lt_getElem (roots host) roots_nodup 0 (by omega), first]
  have tail : (roots host).drop (0 + 1) = (roots host).tail := List.drop_one
  have zeros : ((0 : Nat) : Int) = 0 := rfl
  have ones : ((1 : Nat) : Int) = 1 := rfl
  have lasts : (t.nhosts : Int) - 1 = ((m + 1 : Nat) : Int) := by omega
  rw [zeroData, ← Nat.zero_add 1, sendRoots_eq reads table _ (by omega), tail, ← zeros,
    readAt_eq size, lasts, reads _ _ _ _ (array (m + 1) (by omega)), ← ones,
    reads _ _ _ _ (array 1 (by omega)), first, ← before, ← after]

/-- Rank 0 follows its script, if there is a second host and a second rank on its own. -/
theorem ok_machtopoZero {read : TopoRead n H} (reads : ReadsRanks read)
    (hosts : 2 ≤ (roots host).length) (two : 2 ≤ hostSize host 0) :
    (machtopoZero read (host 0)).Ok (topoContract host) 0 (Ends host 0) [] [] := by
  have all : 0 :: [] ++ otherRanks n = List.finRange n := finRange_eq.symm
  apply ok_gatherHosts reads all (init_tableOk host)
  intro t table
  have nhosts : t.nhosts = (roots host).length := table.nhosts
  have begun : ∀ order : List (Fin n), script host 0 order
      = (answers host (otherRanks n) ++ toEach (roots host).tail (rootMsgs host)) ++
        (toEach order (ringMsgs host 0 order) ++ broadcasts (host 0) (roots host).length) := by
    intro order
    rw [script, if_pos rfl, List.append_assoc]
    rfl
  rw [zeroData_eq reads table hosts]
  apply Proc.ok_sends Sends.closed
  · refine ⟨members host 0, List.Perm.refl _, _, (begun _).symm⟩
  have zeroRoot := hostRoot_zero host
  have own : (topoContract host).Stage 0 3
      (answers host (otherRanks n) ++ toEach (roots host).tail (rootMsgs host)) := by
    refine ⟨members host 0, List.Perm.refl _, ?_⟩
    exact List.prefix_rfl
  apply ok_intraRing_root reads zeroRoot two
  · rfl
  · rfl
  · rfl
  · rfl
  · exact own
  · intro q
    rw [along_names otherRanks_nodup, beforeRing, if_pos rfl]
    rcases eq_or_ne q 0 with rfl | other
    · rw [if_pos rfl, if_neg fun mem => mem_otherRanks.mp mem rfl]
      rfl
    · rw [if_neg other, if_pos (mem_otherRanks.mpr other)]
      rfl
  · exact fun order => ⟨_, begun order⟩
  · intro order rcvd' perm _
    have whole : answers host (otherRanks n) ++ toEach (roots host).tail (rootMsgs host) ++
        toEach order (ringMsgs host 0 order) ++ broadcasts (host 0) t.nhosts
          = script host 0 order := by
      rw [begun order, nhosts, List.append_assoc]
    apply Proc.ok_sends Sends.closed
    · exact ⟨order, perm, whole ▸ List.prefix_rfl⟩
    · refine ⟨?_, stage_of_script ⟨order, perm, whole⟩⟩
      refine ⟨(0 :: order).formPerm.symm 0, (0 :: order).formPerm 0, ?_, ?_⟩
      · simp only [topoOf, zeroRoot, nhosts]
        rfl
      · rw [if_pos zeroRoot]
        exact ⟨order, perm, whole, rfl, rfl⟩

/-- Every rank follows its script, whatever read finds its ranks. -/
theorem machtopoBy_ok {read : TopoRead n H} (reads : ReadsRanks read)
    (hosts : 2 ≤ (roots host).length) (two : ∀ p, 2 ≤ hostSize host (hostRoot host p))
    (p : Fin n) : (ipmGetMachtopoBy read host p).Ok (topoContract host) p (Ends host p) [] [] := by
  have many : n ≠ 1 := by
    rintro rfl
    have short : (roots host).length ≤ (List.finRange 1).length := List.length_filter_le _ _
    rw [List.length_finRange] at short
    omega
  rw [ipmGetMachtopoBy, if_neg many]
  rcases eq_or_ne p 0 with rfl | zero
  · have own := two 0
    rw [hostRoot_zero] at own
    rw [if_neg (not_not.mpr rfl)]
    exact ok_machtopoZero reads hosts own
  · rw [if_pos zero]
    exact ok_machtopoTask reads zero (two p)

/-- Every rank follows its script, for two hosts with two ranks each. -/
theorem machtopo_ok (hosts : 2 ≤ (roots host).length)
    (two : ∀ p, 2 ≤ hostSize host (hostRoot host p)) (p : Fin n) :
    (ipmGetMachtopo host p).Ok (topoContract host) p (Ends host p) [] [] := by
  exact machtopoBy_ok readsRanks_readAt hosts two p

end Ends

/-! ## The rings -/

section Rings

variable {n : Nat} [NeZero n] {H : Type*} [DecidableEq H] {host : Fin n → H}

/-- What the ranks have found out about the hosts. -/
structure HostRings (host : Fin n → H) (topo : Fin n → Topo H) : Prop where
  /-- The number of distinct names. -/
  nhosts : ∀ p, (topo p).nhosts = (Finset.univ.image host).card
  /-- The least rank of the host. -/
  intraRoot : ∀ p, ∃ r : Fin n, (topo p).intraRoot = r ∧ host r = host p ∧
    ∀ q, host q = host p → r ≤ q
  intraSize : ∀ p, (topo p).intraSize = (Finset.univ.filter fun q => host q = host p).card
  /-- One cycle through the ranks of each host, and its inverse. -/
  intra : ∀ p, ∃ right : Equiv.Perm (Fin n), right.IsCycleOn {q | host q = host p} ∧
    ∀ q, host q = host p → (topo q).intraRight = right q ∧ (topo q).intraLeft = right.symm q
  /-- One cycle through the roots, and its inverse. -/
  inter : ∃ right : Equiv.Perm (Fin n), right.IsCycleOn {r | (topo r).intraRoot = r} ∧
    ∀ r : Fin n, (topo r).intraRoot = r →
      (topo r).interRight = right r ∧ (topo r).interLeft = right.symm r
  /-- The members of a host hold their root's values. -/
  members : ∀ p r : Fin n, (topo p).intraRoot = r →
    (topo p).interRight = (topo r).interRight ∧ (topo p).interLeft = (topo r).interLeft

/-- The ring messages of a root to a member. -/
theorem mem_ring {p : Fin n} (zero : p ≠ 0) (member : hostRoot host p ≠ p)
    {order : List (Fin n)} (perm : order.Perm (members host (hostRoot host p)))
    {x : MpiTag × TopoMsg H} (late : x.1 = .user 4 ∨ x.1 = .user 5)
    (mem : x ∈ along p (script host (hostRoot host p) order)) :
    x ∈ ringMsgs host (hostRoot host p) order p := by
  rcases eq_or_ne (hostRoot host p) 0 with own | other
  · rw [own] at perm mem ⊢
    rw [along_zero_script perm zero, if_neg member, if_pos own] at mem
    simp only [List.nil_append, List.mem_cons, List.mem_append, List.not_mem_nil, or_false] at mem
    rcases mem with rfl | inside | rfl | rfl
    · simp [answerMsg] at late
    · exact inside
    · simp [hnameMsg] at late
    · simp [nhostsMsg] at late
  · rwa [along_root_script perm other (hostRoot_idem host p) zero,
      if_pos ⟨rfl, member.symm⟩] at mem

/-- The values of every rank, by the orders in which the roots collected. -/
theorem machtopo_values {s : Net (Fin n) MpiTag (TopoMsg H) (Topo H)} {topo : Fin n → Topo H}
    (coherent : Coherent (topoContract host) (Ends host) s)
    (finished : ∀ p, s.proc p = .done (topo p))
    (r : Fin n) (root : hostRoot host r = r) :
    ∃ order : List (Fin n), order.Perm (members host r) ∧ ∀ p, hostRoot host p = r →
      topo p = topoOf host p ((r :: order).formPerm.symm p) ((r :: order).formPerm p) := by
  have ends : ∀ p, Ends host p (s.sent p) (s.rcvd p) (topo p) := by
    intro p
    have ok := coherent.ok p
    rw [finished p] at ok
    exact ok.1
  obtain ⟨left, right, values, own⟩ := ends r
  rw [if_pos root] at own
  obtain ⟨order, perm, sent, rfl, rfl⟩ := own
  refine ⟨order, perm, ?_⟩
  rintro p rfl
  rcases eq_or_ne (hostRoot host p) p with self | member
  · rw [← self]
    simpa only [root] using values
  · have zero : p ≠ 0 := fun zero => member (zero ▸ hostRoot_zero host)
    obtain ⟨left, right, values', got⟩ := ends p
    rw [if_neg member] at got
    have fifo := coherent.fifo (hostRoot host p) p
    rw [sent] at fifo
    have sameLeft : left = (hostRoot host p :: order).formPerm.symm p := by
      have inRing := mem_ring zero member perm (Or.inl rfl)
        (fifo ▸ List.mem_append_left _ got.1)
      simpa [ringMsgs, Fin.ext_iff] using inRing
    have sameRight : right = (hostRoot host p :: order).formPerm p := by
      have inRing := mem_ring zero member perm (Or.inr rfl)
        (fifo ▸ List.mem_append_left _ got.2)
      simpa [ringMsgs, Fin.ext_iff] using inRing
    rw [values', sameLeft, sameRight]

omit [NeZero n] in
/-- The roots are one rank for each name. -/
theorem length_roots : (roots host).length = (Finset.univ.image host).card := by
  have names : (roots host).toFinset.image host = Finset.univ.image host := by
    ext h
    rw [Finset.mem_image, Finset.mem_image]
    refine ⟨fun ⟨r, _, name⟩ => ⟨r, Finset.mem_univ r, name⟩, fun ⟨p, _, name⟩ => ?_⟩
    refine ⟨hostRoot host p, ?_, (host_hostRoot host p).trans name⟩
    exact List.mem_toFinset.mpr (mem_roots.mpr (hostRoot_idem host p))
  have injective : Set.InjOn host ((roots host).toFinset : Set (Fin n)) := by
    intro r inRoots r' inRoots' same
    have root := mem_roots.mp (List.mem_toFinset.mp inRoots)
    have root' := mem_roots.mp (List.mem_toFinset.mp inRoots')
    rw [← root, ← root']
    exact (hostRoot_eq_iff host).mpr same
  rw [← names, Finset.card_image_of_injOn injective, List.toFinset_card_of_nodup roots_nodup]

omit [NeZero n] in
/-- The size of a host is the number of its ranks. -/
theorem hostSize_card (p : Fin n) :
    hostSize host (hostRoot host p) = (Finset.univ.filter fun q => host q = host p).card := by
  have ranks : ((List.finRange n).filter fun q => hostRoot host q = hostRoot host p).toFinset
      = Finset.univ.filter fun q => host q = host p := by
    ext q
    simp [hostRoot_eq_iff]
  rw [hostSize, countIn, List.countP_eq_length_filter, ← ranks,
    List.toFinset_card_of_nodup ((List.nodup_finRange n).filter _)]

omit [NeZero n] in
theorem two_le_roots : 2 ≤ (roots host).length ↔ ∃ p q, host p ≠ host q := by
  rw [length_roots]
  change 1 < _ ↔ _
  rw [Finset.one_lt_card]
  constructor
  · intro distinct
    obtain ⟨x, inX, y, inY, apart⟩ := distinct
    obtain ⟨p, -, rfl⟩ := Finset.mem_image.mp inX
    obtain ⟨q, -, rfl⟩ := Finset.mem_image.mp inY
    exact ⟨p, q, apart⟩
  · intro distinct
    obtain ⟨p, q, apart⟩ := distinct
    exact ⟨host p, Finset.mem_image_of_mem host (Finset.mem_univ p), host q,
      Finset.mem_image_of_mem host (Finset.mem_univ q), apart⟩

omit [NeZero n] in
theorem two_le_hostSize :
    (∀ p, 2 ≤ hostSize host (hostRoot host p)) ↔ ∀ p, ∃ q, q ≠ p ∧ host q = host p := by
  constructor
  · intro two p
    have many := two p
    rw [hostSize_card] at many
    have own : p ∈ Finset.univ.filter fun q => host q = host p := by simp
    obtain ⟨q, mem, apart⟩ := Finset.exists_mem_ne (Nat.lt_of_succ_le many) p
    exact ⟨q, apart, (Finset.mem_filter.mp mem).2⟩
  · intro pairs p
    obtain ⟨q, apart, same⟩ := pairs (hostRoot host p)
    have member : q ∈ members host (hostRoot host p) := by
      refine mem_members.mpr ⟨?_, apart⟩
      rw [(hostRoot_eq_iff host).mpr same, hostRoot_idem]
    have := List.length_pos_of_mem member
    rw [hostSize_eq (hostRoot_idem host p)]
    omega

/-- What the values of every rank say of the hosts. -/
theorem hostRings_of_values {topo : Fin n → Topo H}
    (values : ∀ r, hostRoot host r = r → ∃ order : List (Fin n), order.Perm (members host r) ∧
      ∀ p, hostRoot host p = r →
        topo p = topoOf host p ((r :: order).formPerm.symm p) ((r :: order).formPerm p)) :
    HostRings host topo := by
  have shape : ∀ p, ∃ left right, topo p = topoOf host p left right := by
    intro p
    obtain ⟨order, _, of⟩ := values (hostRoot host p) (hostRoot_idem host p)
    exact ⟨_, _, of p rfl⟩
  have isRoot : ∀ p r : Fin n, (topo p).intraRoot = r ↔ hostRoot host p = r := by
    intro p r
    obtain ⟨left, right, of⟩ := shape p
    rw [of]
    simp [topoOf, Fin.ext_iff]
  refine ⟨fun p => ?_, fun p => ?_, fun p => ?_, fun p => ?_, ?_, fun p r own => ?_⟩
  · obtain ⟨left, right, of⟩ := shape p
    rw [of, ← length_roots]
    rfl
  · refine ⟨hostRoot host p, (isRoot p _).mpr rfl, host_hostRoot host p, fun q same => ?_⟩
    exact hostRoot_le host same
  · obtain ⟨left, right, of⟩ := shape p
    rw [of, ← hostSize_card]
    rfl
  · obtain ⟨order, perm, of⟩ := values (hostRoot host p) (hostRoot_idem host p)
    have nodup : (hostRoot host p :: order).Nodup := ring_nodup perm
    have ranks : {q | q ∈ hostRoot host p :: order} = {q | host q = host p} := by
      ext q
      rw [Set.mem_ofPred_eq, Set.mem_ofPred_eq, List.mem_cons, mem_order perm,
        ← hostRoot_eq_iff host]
      refine ⟨fun mem => ?_, fun same => ?_⟩
      · rcases mem with rfl | both
        · exact hostRoot_idem host p
        · exact both.1
      · rcases eq_or_ne q (hostRoot host p) with self | other
        · exact Or.inl self
        · exact Or.inr ⟨same, other⟩
    refine ⟨(hostRoot host p :: order).formPerm, ranks ▸ nodup.isCycleOn_formPerm, ?_⟩
    intro q same
    rw [of q ((hostRoot_eq_iff host).mpr same)]
    exact ⟨rfl, rfl⟩
  · have ranks : {r | r ∈ roots host} = {r : Fin n | (topo r).intraRoot = r} := by
      ext r
      rw [Set.mem_ofPred_eq, Set.mem_ofPred_eq, mem_roots, isRoot]
    refine ⟨(roots host).formPerm, ranks ▸ roots_nodup.isCycleOn_formPerm, fun r own => ?_⟩
    have root := (isRoot r r).mp own
    obtain ⟨left, right, of⟩ := shape r
    rw [of]
    simp only [topoOf, root, and_self]
  · have root := (isRoot p r).mp own
    obtain ⟨left, right, of⟩ := shape p
    obtain ⟨left', right', of'⟩ := shape r
    have same : hostRoot host r = hostRoot host p := by
      rw [← root]
      exact hostRoot_idem host p
    rw [of, of']
    simp only [topoOf, same, and_self]

/-- The machine topology.  For any number of ranks on at least two hosts, with at
least two ranks on each, in every state that any order of steps comes to: every message
taken so far was taken by a receive meant for it, ranks that have all ended hold what
`HostRings` says, and from every such state the ranks go on to that end. -/
theorem machtopo_rings (host : Fin n → H) (hosts : ∃ p q, host p ≠ host q)
    (pairs : ∀ p, ∃ q, q ≠ p ∧ host q = host p) (acts : List (Fin n × Fin n))
    (s : Net (Fin n) MpiTag (TopoMsg H) (Topo H))
    (ran : Runs.run netStep (Net.init (ipmGetMachtopo host)) acts = .ok s) :
    (∀ p, ∀ x ∈ s.rcvd p, x.meant = true) ∧
      (∀ topo, (∀ p, s.proc p = .done (topo p)) → HostRings host topo) ∧
      ∃ more s' topo, Runs.run netStep s more = .ok s' ∧ (∀ p, s'.proc p = .done (topo p)) ∧
        HostRings host topo := by
  have coherent := run_coherent (sends_nil host)
    (machtopo_ok (two_le_roots.mpr hosts) (two_le_hostSize.mpr pairs)) ran
  have rings : ∀ {t : Net (Fin n) MpiTag (TopoMsg H) (Topo H)}, Coherent (topoContract host)
      (Ends host) t → ∀ topo, (∀ p, t.proc p = .done (topo p)) → HostRings host topo :=
    fun coherent topo finished => hostRings_of_values (machtopo_values coherent finished)
  refine ⟨coherent.meant, rings coherent, ?_⟩
  obtain ⟨more, s', ran', coherent', ended⟩ := coherent.finishes
  choose topo finished using ended
  exact ⟨more, s', topo, ran', finished, rings coherent' topo finished⟩

end Rings

/-- Two hosts with two ranks each. -/
def twoHosts (p : Fin 4) : Nat := p.val % 2

/-- The ranks send their names, then rank 0 answers, and each host runs its ring. -/
def twoHostsActs : List (Fin 4 × Fin 4) :=
  [(1, 0), (2, 0), (3, 0), (0, 1), (0, 1), (0, 2), (0, 2), (0, 3), (0, 3)] ++
    List.replicate 3 (0, 0) ++ List.replicate 2 (2, 0) ++ List.replicate 2 (3, 0) ++
    List.replicate 4 (1, 0) ++ [(1, 3)] ++ List.replicate 5 (1, 0) ++ [(0, 2)] ++
    List.replicate 11 (0, 0) ++ List.replicate 7 (2, 0) ++ List.replicate 5 (3, 1) ++
    List.replicate 2 (3, 0) ++ List.replicate 2 (1, 0)

/-- The two hosts find their rings, in this run and whenever the ranks go on from the names. -/
theorem machtopo_rings_two :
    (∃ s topo, Runs.run netStep (Net.init (ipmGetMachtopo twoHosts)) twoHostsActs = .ok s ∧
      (∀ p, s.proc p = .done (topo p)) ∧ HostRings twoHosts topo ∧
        ∀ p, ∀ x ∈ s.rcvd p, x.meant = true) ∧
    ∃ s more s' topo,
      Runs.run netStep (Net.init (ipmGetMachtopo twoHosts)) (twoHostsActs.take 8) = .ok s ∧
        Runs.run netStep s more = .ok s' ∧ (∀ p, s'.proc p = .done (topo p)) ∧
          HostRings twoHosts topo := by
  have two : ∃ p q, twoHosts p ≠ twoHosts q := ⟨0, 1, by decide⟩
  have pairs : ∀ p, ∃ q, q ≠ p ∧ twoHosts q = twoHosts p := by decide
  constructor
  · have runs : Runs.okWith (Runs.run netStep (Net.init (ipmGetMachtopo twoHosts)) twoHostsActs)
        (fun s => (List.finRange 4).all fun p => (s.proc p).result.isSome) = true := by
      decide +kernel
    obtain ⟨s, ran, ended⟩ := Runs.okWith_eq_true runs
    have finished : ∀ p, ∃ t, s.proc p = .done t := by
      intro p
      obtain ⟨t, result⟩ :=
        Option.isSome_iff_exists.mp (List.all_eq_true.mp ended p (List.mem_finRange p))
      exact ⟨t, Proc.eq_done result⟩
    choose topo done using finished
    obtain ⟨meant, rings, -⟩ := machtopo_rings twoHosts two pairs twoHostsActs s ran
    exact ⟨s, topo, ran, done, rings topo done, meant⟩
  · have runs : Runs.okWith (Runs.run netStep (Net.init (ipmGetMachtopo twoHosts))
        (twoHostsActs.take 8)) (fun _ => true) = true := by
      decide +kernel
    obtain ⟨s, ran, -⟩ := Runs.okWith_eq_true runs
    obtain ⟨-, -, more, s', topo, goesOn, done, rings⟩ :=
      machtopo_rings twoHosts two pairs (twoHostsActs.take 8) s ran
    exact ⟨s, more, s', topo, ran, goesOn, done, rings⟩

end Ipm
