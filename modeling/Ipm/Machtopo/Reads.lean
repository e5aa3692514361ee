import Ipm.Machtopo.Rings

/-!
# The reads of the machine topology

`ipm_get_machtopo` reads `local_roots[1]` and `local_ranks[1]` whatever the numbers of hosts
and of ranks.  With one host the first has not been set, and on a host with one rank the
second is behind the list.

* `machtopo_gathers`: a run in which rank 0 has the names of all ranks.
* `single_host_faults`, `single_rank_faults`: runs that come to these reads.
* `topoSafe_iff`: the reads find ranks, and the function sets ranks, exactly for one rank
  or for two hosts or more with two ranks or more each.
-/

namespace Ipm

open MessagePassing

/-- The value is a rank. -/
def IsRank (n : Nat) (z : Int) : Prop := 0 ≤ z ∧ z < n

theorem isRank_fin {n : Nat} (p : Fin n) : IsRank n (p : Int) :=
  ⟨Int.natCast_nonneg _, Int.ofNat_lt.mpr p.isLt⟩

/-- The roots and neighbours of a rank are ranks. -/
structure Topo.Ranks {H : Type*} (n : Nat) (t : Topo H) : Prop where
  intraRoot : IsRank n t.intraRoot
  intraLeft : IsRank n t.intraLeft
  intraRight : IsRank n t.intraRight
  interLeft : IsRank n t.interLeft
  interRight : IsRank n t.interRight

section Reads

variable {n : Nat} [NeZero n] {H : Type*} [DecidableEq H]

/-- In no run a read of `local_roots` or `local_ranks` finds anything but a rank, and every
rank that has ended has set ranks. -/
structure TopoSafe (host : Fin n → H) : Prop where
  reads : ∀ acts s, Runs.run netStep (Net.init (ipmGetMachtopoBy readRank host)) acts = .ok s →
    ∀ p, s.proc p ≠ .fault
  ends : ∀ acts s, Runs.run netStep (Net.init (ipmGetMachtopo host)) acts = .ok s →
    ∀ p t, s.proc p = .done t → t.Ranks n

variable {host : Fin n → H}

/-! ## Where the reads find ranks -/

/-- What every rank meets a rule for. -/
theorem TopoSafe.of_ok {C : Contract (Fin n) MpiTag (TopoMsg H)}
    {Post : Fin n → List (Fin n × MpiTag × TopoMsg H) →
      List (Receipt (Fin n) MpiTag (TopoMsg H)) → Topo H → Prop} (good : ∀ p, C.Good p [])
    (checked : ∀ p, (ipmGetMachtopoBy readRank host p).Ok C p (Post p) [] [])
    (code : ∀ p, (ipmGetMachtopo host p).Ok C p (Post p) [] [])
    (ranks : ∀ p sent rcvd t, Post p sent rcvd t → t.Ranks n) : TopoSafe host where
  reads := by
    intro acts s ran p fault
    have ok := (run_coherent good checked ran).ok p
    rw [fault] at ok
    exact ok
  ends := by
    intro acts s ran p t done
    have ok := (run_coherent good code ran).ok p
    rw [done] at ok
    exact ranks p _ _ t ok.1

theorem topoSafe_one (one : n = 1) : TopoSafe host := by
  -- one rank sends and receives nothing
  let alone : Contract (Fin n) MpiTag (TopoMsg H) :=
    ⟨fun _ _ => True, fun _ _ _ => True, fun _ _ => trivial⟩
  have ok : ∀ (read : TopoRead n H) (p : Fin n),
      (ipmGetMachtopoBy read host p).Ok alone p (fun _ _ t => t.Ranks n) [] [] := by
    intro read p
    rw [ipmGetMachtopoBy, if_pos one]
    refine ⟨⟨?_, ?_, ?_, ?_, ?_⟩, fun _ => trivial⟩
    all_goals exact isRank_fin p
  exact .of_ok (fun _ => trivial) (ok readRank) (ok readAt) fun _ _ _ _ ranks => ranks

theorem topoSafe_pairs (hosts : 2 ≤ (roots host).length)
    (two : ∀ p, 2 ≤ hostSize host (hostRoot host p)) : TopoSafe host := by
  refine .of_ok (sends_nil host) (machtopoBy_ok readsRanks_readRank hosts two)
    (machtopo_ok hosts two) fun p sent rcvd t ends => ?_
  obtain ⟨left, right, rfl, -⟩ := ends
  exact ⟨isRank_fin _, isRank_fin _, isRank_fin _, isRank_fin _, isRank_fin _⟩

/-! ## A run in which rank 0 gathers the names -/

/-- A rank that has sent its name. -/
def awaitRoot (me : Fin n) (hostname : H) : TopoProc n H :=
  recvInt (some 0) MpiTag.any .intraRoot fun root =>
    if (me : Int) = root then
      recvInt (some 0) MpiTag.any .intraSize fun intraSize =>
      recvInt (some 0) MpiTag.any .interLeft fun interLeft =>
      recvInt (some 0) MpiTag.any .interRight fun interRight =>
        intraRing readRank me
          { Topo.zero hostname with
            intraRoot := root
            intraSize := intraSize
            interLeft := interLeft
            interRight := interRight }
          recvBroadcasts
    else intraRing readRank me { Topo.zero hostname with intraRoot := root } recvBroadcasts

/-- Rank 0 has gathered the names of `done` and has those of `rest` before it. -/
structure Gathering (host : Fin n → H) (k : HostTable H → TopoProc n H) (done rest : List (Fin n))
    (s : Net (Fin n) MpiTag (TopoMsg H) (Topo H)) : Prop where
  zero : ∃ t, TableOk host (0 :: done) t ∧ s.proc 0 = gatherHosts readRank rest t k
  fresh : ∀ i ∈ rest, s.proc i = machtopoTask readRank i (host i) ∧ s.chan i 0 = [] ∧
    s.chan 0 i = []
  answered : ∀ i ∈ done, s.proc i = awaitRoot i (host i) ∧ s.chan 0 i = [answerMsg host i]

/-- The next rank sends its name, and rank 0 takes and answers it. -/
theorem Gathering.next {k : HostTable H → TopoProc n H} {done rest : List (Fin n)} {i : Fin n}
    {s : Net (Fin n) MpiTag (TopoMsg H) (Topo H)} (gathering : Gathering host k done (i :: rest) s)
    (split_ : 0 :: done ++ i :: rest = List.finRange n) :
    ∃ s', Runs.run netStep s [(i, 0), (0, i), (0, i)] = .ok s' ∧
      Gathering host k (done ++ [i]) rest s' := by
  obtain ⟨⟨t, table, zero⟩, fresh, answered⟩ := gathering
  obtain ⟨proc, inbox, outbox⟩ := fresh i List.mem_cons_self
  have nodup : (0 :: done ++ i :: rest).Nodup := split_ ▸ List.nodup_finRange n
  obtain ⟨-, later, apart⟩ := List.nodup_append.mp nodup
  have notZero : i ≠ 0 := fun same => apart 0 List.mem_cons_self i List.mem_cons_self same.symm
  obtain ⟨t', j, found, table', root⟩ := table.count split_ (List.cons_ne_nil _ _)
  -- the name on its way, taken, and answered
  let s₁ := s.post i 0 (nameMsg host i).1 (nameMsg host i).2 (awaitRoot i (host i))
  let asked : TopoProc n H :=
    .send i (.user 0) ⟨.intraRoot, .int (hostRoot host i)⟩
      (gatherHosts readRank rest (t'.count j) k)
  let s₂ := s₁.take i 0 (nameMsg host i).1 (nameMsg host i).2 true [] asked
  let s₃ := s₂.post 0 i (answerMsg host i).1 (answerMsg host i).2
    (gatherHosts readRank rest (t'.count j) k)
  have first : netStep s (i, 0) = .ok s₁ := netStep_send proc
  have second : netStep s₁ (0, i) = .ok s₂ := by
    have at_ : s₁.proc 0 = gatherHosts readRank (i :: rest) t k := by
      rw [Net.post_proc_of_ne notZero.symm, zero]
    have queue : s₁.chan i 0 = [((nameMsg host i).1, (nameMsg host i).2)] := by
      rw [Net.post_chan, inbox]
      rfl
    have taken := netStep_recv (s := s₁) (p := i) at_ (Or.inr rfl) queue rfl
    rw [taken]
    simp only [nameMsg, found, readsRanks_readRank _ _ _ _ root]
    rfl
  have third : netStep s₂ (0, i) = .ok s₃ := netStep_send Net.take_proc
  have procs : ∀ x, x ≠ 0 → x ≠ i → s₃.proc x = s.proc x := by
    intro x other other'
    rw [Net.post_proc_of_ne other, Net.take_proc_of_ne other, Net.post_proc_of_ne other']
  have chans : ∀ x y, x ≠ i → x ≠ 0 ∨ y ≠ i → s₃.chan x y = s.chan x y := by
    intro x y other other'
    rw [Net.post_chan_of_ne other', Net.take_chan_of_ne (Or.inl other),
      Net.post_chan_of_ne (Or.inl other)]
  refine ⟨s₃, ?_, ⟨t'.count j, table', Net.post_proc⟩, fun x mem => ?_, fun x mem => ?_⟩
  · rw [Runs.run_cons_ok first, Runs.run_cons_ok second, Runs.run_cons_ok third]
    rfl
  · have other : x ≠ i := fun same => (List.nodup_cons.mp later).1 (same ▸ mem)
    have other' : x ≠ 0 := fun same =>
      apart 0 List.mem_cons_self x (List.mem_cons_of_mem i mem) same.symm
    rw [procs x other' other, chans x 0 other (Or.inl other'),
      chans 0 x notZero.symm (Or.inr other)]
    exact fresh x (List.mem_cons_of_mem i mem)
  · rcases List.mem_append.mp mem with before | last
    · have other : x ≠ i := apart x (List.mem_cons_of_mem 0 before) i List.mem_cons_self
      have other' : x ≠ 0 := fun same => by
        have front := (List.nodup_append.mp nodup).1
        exact (List.nodup_cons.mp front).1 (same ▸ before)
      rw [procs x other' other, chans 0 x notZero.symm (Or.inr other)]
      exact answered x before
    · rw [List.mem_singleton.mp last]
      refine ⟨?_, ?_⟩
      · rw [Net.post_proc_of_ne notZero, Net.take_proc_of_ne notZero, Net.post_proc]
      · rw [Net.post_chan, Net.take_chan_of_ne (Or.inl notZero.symm),
          Net.post_chan_of_ne (Or.inl notZero.symm), outbox]
        rfl

theorem Gathering.all {k : HostTable H → TopoProc n H} {done rest : List (Fin n)}
    {s : Net (Fin n) MpiTag (TopoMsg H) (Topo H)} (gathering : Gathering host k done rest s)
    (split_ : 0 :: done ++ rest = List.finRange n) :
    ∃ acts s', Runs.run netStep s acts = .ok s' ∧ Gathering host k (otherRanks n) [] s' := by
  induction rest generalizing done s with
  | nil =>
      rw [List.append_nil, finRange_eq] at split_
      obtain rfl : done = otherRanks n := (List.cons.inj split_).2
      exact ⟨[], s, rfl, gathering⟩
  | cons i rest ih =>
      obtain ⟨s', ran, next⟩ := gathering.next split_
      obtain ⟨acts, s'', rest', gathered⟩ := ih next (by
        rw [← split_]
        simp)
      exact ⟨_, s'', Runs.run_trans ran rest', gathered⟩

/-- What rank 0 does with the names. -/
def afterGather (hostname : H) (hosts : HostTable H) : TopoProc n H :=
  zeroData readRank hosts (Topo.zero hostname) fun t =>
    intraRing readRank 0 t fun t =>
      Proc.sends (broadcasts hostname hosts.nhosts)
        (.done { t with mpiHnameRoot := hostname, nhosts := hosts.nhosts })

/-- A run in which rank 0 has the names of all ranks, with its answers on their way. -/
theorem machtopo_gathers (host : Fin n → H) (many : n ≠ 1) :
    ∃ acts s, Runs.run netStep (Net.init (ipmGetMachtopoBy readRank host)) acts = .ok s ∧
      (∃ t, TableOk host (List.finRange n) t ∧ s.proc 0 = afterGather (host 0) t) ∧
      ∀ i ≠ 0, s.proc i = awaitRoot i (host i) ∧ s.chan 0 i = [answerMsg host i] := by
  have start : Gathering host (afterGather (host 0)) [] (otherRanks n)
      (Net.init (ipmGetMachtopoBy readRank host)) := by
    refine ⟨⟨_, init_tableOk host, ?_⟩, fun i mem => ⟨?_, rfl, rfl⟩, fun i mem => by cases mem⟩
    · change ipmGetMachtopoBy readRank host 0 = _
      rw [ipmGetMachtopoBy, if_neg many, if_neg (not_not.mpr rfl)]
      rfl
    · change ipmGetMachtopoBy readRank host i = _
      rw [ipmGetMachtopoBy, if_neg many, if_pos (mem_otherRanks.mp mem)]
  obtain ⟨acts, s, ran, ⟨t, table, zero⟩, -, answered⟩ := start.all finRange_eq.symm
  refine ⟨acts, s, ran, ⟨t, ?_, zero⟩, fun i other => answered i (mem_otherRanks.mpr other)⟩
  rwa [finRange_eq]

/-! ## Where they do not -/

/-- With one host rank 0 reads a root that has not been set. -/
theorem afterGather_single {t : HostTable H} (table : TableOk host (List.finRange n) t)
    (many : n ≠ 1) (single : (roots host).length = 1) :
    afterGather (n := n) (host 0) t = .fault := by
  obtain ⟨array, sizes⟩ := table.arrays
  have nhosts : t.nhosts = 1 := table.nhosts.trans single
  have unset : t.localRoots[1]? = some (-1) := by
    have only : (rootsIn host (List.finRange n)).length = 1 := single
    have positive := NeZero.pos n
    rw [table.localRoots, perRoot, List.getElem?_append_right (by rw [List.length_map]; omega),
      List.length_map, only, List.getElem?_replicate, if_pos (by omega)]
  have last : (t.nhosts : Int) - 1 = ((0 : Nat) : Int) := by omega
  have zeros : (0 : Int) = ((0 : Nat) : Int) := rfl
  have ones : (1 : Int) = ((1 : Nat) : Int) := rfl
  rw [afterGather, zeroData, nhosts]
  change readAt t.localSizes 0 _ = _
  rw [zeros, readAt_eq (sizes 0 (by omega))]
  change readRank t.localRoots 0 _ = _
  rw [zeros, readsRanks_readRank _ _ _ _ (array 0 (by omega)), ones, readRank, readAt_eq unset]
  rfl

omit [NeZero n] [DecidableEq H] in
/-- A root that is alone on its host reads behind its list. -/
theorem intraRing_alone {me : Fin n} {t : Topo H} (root : t.intraRoot = me)
    (alone : t.intraSize = 1) (k : Topo H → TopoProc n H) :
    intraRing readRank me t k = .fault := by
  have zeros : (1 : Int) - 1 = ((0 : Nat) : Int) := rfl
  have own : [(me : Int)][0]? = some (me : Int) := rfl
  have none_ : ((1 : Int) - 1).toNat = 0 := rfl
  rw [intraRing, if_pos root.symm, alone, none_, collectRanks, sendRing, zeros,
    readsRanks_readRank _ _ _ _ own]
  rfl

omit [DecidableEq H] in
/-- A rank takes an integer of rank 0. -/
theorem step_recvInt {s : Net (Fin n) MpiTag (TopoMsg H) (Topo H)} {r : Fin n} {kind : TopoKind}
    {k : Int → TopoProc n H} {x : TopoMsg H} {z : Int} {rest : List (MpiTag × TopoMsg H)}
    {tag : Nat} (at_ : s.proc r = recvInt (some 0) MpiTag.any kind k)
    (queue : s.chan 0 r = (.user tag, x) :: rest) (int : x.data = .int z) :
    ∃ s', netStep s (r, 0) = .ok s' ∧ s'.proc r = k z ∧ s'.chan 0 r = rest := by
  refine ⟨_, netStep_recv at_ (Or.inr rfl) queue rfl, ?_, Net.take_chan⟩
  rw [Net.take_proc, int]

/-- A root other than 0 that is alone on its host comes to that read with the messages of
rank 0. -/
theorem root_faults {s : Net (Fin n) MpiTag (TopoMsg H) (Topo H)} {r : Fin n}
    (root : hostRoot host r = r) (alone : hostSize host r = 1)
    (at_ : s.proc r = awaitRoot r (host r))
    (queue : s.chan 0 r = answerMsg host r :: rootMsgs host r) :
    ∃ acts s', Runs.run netStep s acts = .ok s' ∧ s'.proc r = .fault := by
  obtain ⟨s₁, first, at₁, queue₁⟩ := step_recvInt at_ queue rfl
  rw [root, if_pos rfl] at at₁
  obtain ⟨s₂, second, at₂, queue₂⟩ := step_recvInt at₁ queue₁ rfl
  obtain ⟨s₃, third, at₃, queue₃⟩ := step_recvInt at₂ queue₂ rfl
  obtain ⟨s₄, fourth, at₄, -⟩ := step_recvInt at₃ queue₃ rfl
  refine ⟨[(r, 0), (r, 0), (r, 0), (r, 0)], s₄, ?_, ?_⟩
  · rw [Runs.run_cons_ok first, Runs.run_cons_ok second, Runs.run_cons_ok third,
      Runs.run_cons_ok fourth]
    rfl
  · rw [at₄]
    refine intraRing_alone rfl ?_ recvBroadcasts
    change (hostSize host r : Int) = 1
    rw [alone]
    rfl

theorem single_host_faults (host : Fin n → H) (many : n ≠ 1) (single : (roots host).length = 1) :
    ∃ acts s, Runs.run netStep (Net.init (ipmGetMachtopoBy readRank host)) acts = .ok s ∧
      s.proc 0 = .fault := by
  obtain ⟨acts, s, ran, ⟨t, table, zero⟩, -⟩ := machtopo_gathers host many
  exact ⟨acts, s, ran, zero.trans (afterGather_single table many single)⟩

theorem single_rank_faults (many : n ≠ 1) (hosts : 2 ≤ (roots host).length) {r : Fin n}
    (root : hostRoot host r = r) (alone : hostSize host r = 1) :
    ∃ acts s, Runs.run netStep (Net.init (ipmGetMachtopoBy readRank host)) acts = .ok s ∧
      s.proc r = .fault := by
  obtain ⟨acts, s, ran, ⟨t, table, zero⟩, answered⟩ := machtopo_gathers host many
  rw [afterGather, zeroData_eq readsRanks_readRank table hosts] at zero
  obtain ⟨more, s', sent, ended, procs, chans, -⟩ := run_sends zero
  rcases eq_or_ne r 0 with rfl | other
  · refine ⟨_, s', Runs.run_trans ran sent, ended.trans (intraRing_alone rfl ?_ _)⟩
    change (hostSize host 0 : Int) = 1
    rw [alone]
    rfl
  · obtain ⟨waits, queue⟩ := answered r other
    have full : s'.chan 0 r = answerMsg host r :: rootMsgs host r := by
      rw [chans r, queue, along_toEach roots_nodup.tail, if_pos (mem_roots_tail.mpr ⟨root, other⟩)]
      rfl
    obtain ⟨last, s'', received, fault⟩ :=
      root_faults root alone ((procs r other).trans waits) full
    exact ⟨_, s'', Runs.run_trans (Runs.run_trans ran sent) received, fault⟩

theorem roots_pos (host : Fin n → H) : 1 ≤ (roots host).length := by
  rw [roots_eq, List.length_cons]
  omega

end Reads

/-- The reads of `ipm_get_machtopo` find ranks, and it sets ranks, exactly for one rank, or
for two hosts or more with two ranks or more on each. -/
theorem topoSafe_iff {n : Nat} [NeZero n] {H : Type*} [DecidableEq H] (host : Fin n → H) :
    TopoSafe host ↔
      n = 1 ∨ (∃ p q, host p ≠ host q) ∧ ∀ p, ∃ q, q ≠ p ∧ host q = host p := by
  rw [← two_le_roots, ← two_le_hostSize]
  constructor
  · intro safe
    by_contra bad
    obtain ⟨many, bad⟩ := not_or.mp bad
    have positive := roots_pos host
    by_cases hosts : 2 ≤ (roots host).length
    · have small := not_forall.mp fun two => bad ⟨hosts, two⟩
      obtain ⟨p, small⟩ := small
      have size := hostSize_eq (hostRoot_idem host p)
      obtain ⟨acts, s, ran, fault⟩ :=
        single_rank_faults many hosts (hostRoot_idem host p) (by omega)
      exact safe.reads acts s ran _ fault
    · obtain ⟨acts, s, ran, fault⟩ := single_host_faults host many (by omega)
      exact safe.reads acts s ran 0 fault
  · intro condition
    rcases condition with one | ⟨hosts, two⟩
    · exact topoSafe_one one
    · exact topoSafe_pairs hosts two

/-- Two hosts of two ranks. -/
theorem topoSafe_twoPairs : TopoSafe (fun p : Fin 4 => p.val / 2) :=
  (topoSafe_iff _).mpr (Or.inr ⟨⟨0, 2, by decide⟩, by decide⟩)

/-- Two ranks on one host, and a host with one rank among two. -/
theorem not_topoSafe_small :
    ¬ TopoSafe (fun _ : Fin 2 => 0) ∧ ¬ TopoSafe (fun p : Fin 3 => p.val / 2) := by
  constructor
  · intro safe
    obtain ⟨acts, s, ran, fault⟩ :=
      single_host_faults (fun _ : Fin 2 => 0) (by decide) (by decide)
    exact safe.reads acts s ran 0 fault
  · intro safe
    have root : hostRoot (fun p : Fin 3 => p.val / 2) 2 = 2 := by decide
    obtain ⟨acts, s, ran, fault⟩ := single_rank_faults (by decide) (by decide) root (by decide)
    exact safe.reads acts s ran 2 fault

end Ipm
