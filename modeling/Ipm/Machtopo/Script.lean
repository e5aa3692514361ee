import Ipm.Lib.Neighbours
import Ipm.Machtopo.Hosts

/-!
# What every rank sends

The messages of `ipm_get_machtopo`, rank by rank, from the hosts and from the order in
which a root collects its ranks.  The guarantee of a rank (`Sends`) is that what it has
sent so far is the beginning of its script, for some order; a receiver reads off what
comes next from whom (`along_script_zero` and its neighbours below).  At each of its
receives a rank has come to a stage, with what is due to others sent (`stageScript`).

* `topoContract`: the guarantees and the stages.
* `sendRoots_eq`, `sendRing_eq`: the loops of the code send these messages.
-/

namespace Ipm

open MessagePassing Neighbours

section Script

variable {n : Nat} {H : Type*} [DecidableEq H] (host : Fin n → H)

/-- The roots of all hosts. -/
def roots : List (Fin n) := rootsIn host (List.finRange n)

/-- How many ranks have a root. -/
def hostSize (r : Fin n) : Nat := countIn host (List.finRange n) r

/-- The other ranks of a root's host. -/
def members (r : Fin n) : List (Fin n) :=
  (List.finRange n).filter fun q => hostRoot host q = r ∧ q ≠ r

/-- What rank 0 answers to a name. -/
def answerMsg (q : Fin n) : MpiTag × TopoMsg H := (.user 0, ⟨.intraRoot, .int (hostRoot host q)⟩)

/-- What rank 0 sends to another root. -/
def rootMsgs (r : Fin n) : List (MpiTag × TopoMsg H) :=
  [(.user 0, ⟨.intraSize, .int (hostSize host r)⟩),
    (.user 0, ⟨.interLeft, .int ((roots host).formPerm.symm r)⟩),
    (.user 0, ⟨.interRight, .int ((roots host).formPerm r)⟩)]

/-- What a root sends to a rank of its host, once it has collected them in an order. -/
def ringMsgs (r : Fin n) (order : List (Fin n)) (q : Fin n) : List (MpiTag × TopoMsg H) :=
  [(.user 1, ⟨.memberInterLeft, .int ((roots host).formPerm.symm r)⟩),
    (.user 2, ⟨.memberInterRight, .int ((roots host).formPerm r)⟩),
    (.user 3, ⟨.memberIntraSize, .int (hostSize host r)⟩),
    (.user 4, ⟨.intraLeft, .int ((r :: order).formPerm.symm q)⟩),
    (.user 5, ⟨.intraRight, .int ((r :: order).formPerm q)⟩)]

def nameMsg (p : Fin n) : MpiTag × TopoMsg H := (.user p, ⟨.hostname, .chars (host p)⟩)

def rankMsg (p : Fin n) : MpiTag × TopoMsg H := (.user 0, ⟨.mpiRank, .int p⟩)

section Zero

variable [NeZero n]

def hnameMsg : MpiTag × TopoMsg H := (.bcast, ⟨.hnameRoot, .chars (host 0)⟩)

def nhostsMsg : MpiTag × TopoMsg H := (.bcast, ⟨.nhosts, .int (roots host).length⟩)

/-- Everything a rank sends. -/
def script (p : Fin n) (order : List (Fin n)) : List (Fin n × MpiTag × TopoMsg H) :=
  if p = 0 then
    toEach (otherRanks n) (fun q => [answerMsg host q]) ++
      (toEach (roots host).tail (rootMsgs host) ++
        (toEach order (ringMsgs host 0 order) ++
          broadcasts (host 0) (roots host).length))
  else if hostRoot host p = p then (0, nameMsg host p) :: toEach order (ringMsgs host p order)
  else [(0, nameMsg host p), (hostRoot host p, rankMsg p)]

/-- The guarantee of a rank: it has sent a beginning of its script. -/
def Sends (p : Fin n) (sent : List (Fin n × MpiTag × TopoMsg H)) : Prop :=
  ∃ order, order.Perm (members host p) ∧ sent <+: script host p order

/-- The stages up to which a rank other than 0 has sent no more than its name. -/
def nameUntil (p : Fin n) : Nat := if hostRoot host p = p then 3 else 2

/-- What a rank has sent when it comes to a stage.  Rank 0 waits for the names at stage 1,
the others for its answers at 2, the roots for their ranks at 3, and at 4 a rank waits for
its root or for the broadcasts. -/
def stageScript (p : Fin n) (order : List (Fin n)) (l : Nat) :
    List (Fin n × MpiTag × TopoMsg H) :=
  if p = 0 then
    if l ≤ 1 then []
    else if l ≤ 3 then
      toEach (otherRanks n) (fun q => [answerMsg host q]) ++
        toEach (roots host).tail (rootMsgs host)
    else script host p order
  else if l ≤ nameUntil host p then [(0, nameMsg host p)]
  else script host p order

end Zero

variable {host}

/-! ## The ranks of a script -/

theorem otherRanks_nodup : (otherRanks n).Nodup := (List.nodup_finRange n).tail

theorem roots_nodup : (roots host).Nodup := (List.nodup_finRange n).filter _

theorem mem_roots {r : Fin n} : r ∈ roots host ↔ hostRoot host r = r := by
  rw [roots, mem_rootsIn]
  exact ⟨fun both => both.2, fun root => ⟨List.mem_finRange r, root⟩⟩

theorem mem_members {q r : Fin n} : q ∈ members host r ↔ hostRoot host q = r ∧ q ≠ r := by
  simp [members]

theorem members_nodup {r : Fin n} : (members host r).Nodup := (List.nodup_finRange n).filter _

/-- A root counts itself and its members. -/
theorem hostSize_eq {r : Fin n} (root : hostRoot host r = r) :
    hostSize host r = (members host r).length + 1 := by
  have perm : ((List.finRange n).filter fun q => hostRoot host q = r).Perm
      (r :: members host r) := by
    have notIn : r ∉ members host r := fun mem => (mem_members.mp mem).2 rfl
    rw [List.perm_ext_iff_of_nodup ((List.nodup_finRange n).filter _)
      (List.nodup_cons.mpr ⟨notIn, members_nodup⟩)]
    intro q
    rw [List.mem_cons, mem_members, List.mem_filter, decide_eq_true_eq]
    refine ⟨fun mem => ?_, fun mem => ?_⟩
    · rcases eq_or_ne q r with same | other
      · exact Or.inl same
      · exact Or.inr ⟨mem.2, other⟩
    · rcases mem with rfl | mem
      · exact ⟨List.mem_finRange q, root⟩
      · exact ⟨List.mem_finRange q, mem.1⟩
  rw [hostSize, countIn, List.countP_eq_length_filter, perm.length_eq, List.length_cons]

/-- Of the other ranks, those with the root are its members. -/
theorem mem_members_of_ne {q r : Fin n} (apart : q ≠ r) :
    q ∈ members host r ↔ hostRoot host q = r := by
  rw [mem_members, and_iff_left apart]

theorem mem_order {p q : Fin n} {order : List (Fin n)} (perm : order.Perm (members host p)) :
    q ∈ order ↔ hostRoot host q = p ∧ q ≠ p := perm.mem_iff.trans mem_members

/-- A root and its members, in an order. -/
theorem ring_nodup {r : Fin n} {order : List (Fin n)} (perm : order.Perm (members host r)) :
    (r :: order).Nodup := by
  refine List.nodup_cons.mpr ⟨fun mem => ?_, perm.nodup_iff.mpr members_nodup⟩
  exact ((mem_order perm).mp mem).2 rfl

variable [NeZero n]

theorem finRange_eq : List.finRange n = 0 :: otherRanks n := by
  obtain ⟨m, rfl⟩ : ∃ m, n = m + 1 := ⟨n - 1, by have := NeZero.ne n; omega⟩
  rw [otherRanks, List.finRange_succ]
  rfl

theorem mem_otherRanks {q : Fin n} : q ∈ otherRanks n ↔ q ≠ 0 := by
  have nodup : (0 :: otherRanks n).Nodup := finRange_eq (n := n) ▸ List.nodup_finRange n
  have notIn : (0 : Fin n) ∉ otherRanks n := (List.nodup_cons.mp nodup).1
  refine ⟨fun mem zero => notIn (zero ▸ mem), fun ne => ?_⟩
  have every : q ∈ 0 :: otherRanks n := finRange_eq (n := n) ▸ List.mem_finRange q
  exact (List.mem_cons.mp every).resolve_left ne

theorem roots_eq (host : Fin n → H) : roots host = 0 :: (roots host).tail := by
  have head : roots host = 0 :: rootsIn host (otherRanks n) := by
    rw [roots, finRange_eq, rootsIn, List.filter_cons_of_pos (by simp [hostRoot_zero])]
    rfl
  rw [head]
  rfl

theorem mem_roots_tail {r : Fin n} : r ∈ (roots host).tail ↔ hostRoot host r = r ∧ r ≠ 0 := by
  have nodup : (0 :: (roots host).tail).Nodup := roots_eq host ▸ roots_nodup
  have notIn := (List.nodup_cons.mp nodup).1
  have every : r ∈ 0 :: (roots host).tail ↔ hostRoot host r = r := by
    rw [← roots_eq host, mem_roots]
  rw [List.mem_cons] at every
  refine ⟨fun mem => ⟨every.mp (Or.inr mem), fun zero => notIn (zero ▸ mem)⟩, fun both => ?_⟩
  exact (every.mpr both.1).resolve_left both.2

/-! ## What one rank gets -/

section Along

variable {p q : Fin n} {order : List (Fin n)}

/-- What the other ranks send to rank 0. -/
theorem along_script_zero (perm : order.Perm (members host p)) (other : p ≠ 0) :
    along 0 (script host p order)
      = nameMsg host p :: if hostRoot host p = 0 then [rankMsg p] else [] := by
  rw [script, if_neg other]
  split
  · rename_i root
    have notIn : (0 : Fin n) ∉ order := by
      rw [mem_order perm, hostRoot_zero]
      exact fun mem => other mem.1.symm
    rw [along_self, along_toEach (perm.nodup_iff.mpr members_nodup), if_neg notIn, root,
      if_neg other]
  · rw [along_self]
    split
    · rename_i zero
      rw [zero, along_self, along_nil]
    · rename_i away
      rw [along_other away, along_nil]

/-- What rank 0 sends to another rank. -/
theorem along_zero_script (perm : order.Perm (members host 0)) (other : q ≠ 0) :
    along q (script host 0 order) = answerMsg host q ::
      ((if hostRoot host q = q then rootMsgs host q else []) ++
        ((if hostRoot host q = 0 then ringMsgs host 0 order q else []) ++
          [hnameMsg host, nhostsMsg host])) := by
  have tail : (roots host).tail.Nodup := roots_nodup.tail
  have inOrder : (q ∈ order) = (hostRoot host q = 0) :=
    propext (perm.mem_iff.trans (mem_members_of_ne other))
  have inRoots : (q ∈ (roots host).tail) = (hostRoot host q = q) := by
    rw [mem_roots_tail]
    exact propext ⟨fun mem => mem.1, fun root => ⟨root, other⟩⟩
  rw [script, if_pos rfl, along_append, along_append, along_append, broadcasts, along_append,
    along_toEach otherRanks_nodup, along_toEach tail,
    along_toEach (perm.nodup_iff.mpr members_nodup), along_toEach otherRanks_nodup,
    along_toEach otherRanks_nodup]
  simp only [if_pos (mem_otherRanks.mpr other), inOrder, inRoots]
  rfl

/-- What a root other than 0 sends to the other ranks. -/
theorem along_root_script (perm : order.Perm (members host p)) (zero : p ≠ 0)
    (root : hostRoot host p = p) (other : q ≠ 0) :
    along q (script host p order)
      = if hostRoot host q = p ∧ q ≠ p then ringMsgs host p order q else [] := by
  rw [script, if_neg zero, if_pos root, along_other other.symm,
    along_toEach (perm.nodup_iff.mpr members_nodup)]
  simp only [mem_order perm]

/-- What a rank that is no root sends to the other ranks. -/
theorem along_member_script (zero : p ≠ 0) (member : hostRoot host p ≠ p) (other : q ≠ 0) :
    along q (script host p order) = if hostRoot host p = q then [rankMsg p] else [] := by
  rw [script, if_neg zero, if_neg member, along_other other.symm]
  split
  · rename_i same
    rw [same, along_self, along_nil]
  · rename_i away
    rw [along_other away, along_nil]

/-- No root sends to itself. -/
theorem along_self_script (perm : order.Perm (members host p)) (root : hostRoot host p = p) :
    along p (script host p order) = [] := by
  have notIn : p ∉ order := (List.nodup_cons.mp (ring_nodup perm)).1
  rcases eq_or_ne p 0 with rfl | zero
  · have notOther : (0 : Fin n) ∉ otherRanks n := fun mem => mem_otherRanks.mp mem rfl
    have notRoot : (0 : Fin n) ∉ (roots host).tail := fun mem => (mem_roots_tail.mp mem).2 rfl
    rw [script, if_pos rfl, along_append, along_append, along_append, broadcasts, along_append,
      along_toEach otherRanks_nodup, along_toEach roots_nodup.tail,
      along_toEach (perm.nodup_iff.mpr members_nodup), along_toEach otherRanks_nodup,
      along_toEach otherRanks_nodup]
    simp only [if_neg notOther, if_neg notRoot, if_neg notIn, List.append_nil]
  · rw [along_root_script perm zero root zero, if_neg fun both => both.2 rfl]

end Along

/-! ## The stages -/

section Stages

variable {p q : Fin n} {order : List (Fin n)}

theorem stageScript_isPrefix (host : Fin n → H) (p : Fin n) (order : List (Fin n)) (l : Nat) :
    stageScript host p order l <+: script host p order := by
  rw [stageScript]
  split
  · rename_i zero
    split
    · exact List.nil_prefix
    · split
      · rw [script, if_pos zero, ← List.append_assoc]
        exact List.prefix_append _ _
      · exact List.prefix_rfl
  · rename_i other
    split
    · rw [script, if_neg other]
      by_cases root : hostRoot host p = p
      · rw [if_pos root]
        exact ⟨_, rfl⟩
      · rw [if_neg root]
        exact ⟨_, rfl⟩
    · exact List.prefix_rfl

/-- At a later stage a rank has sent no less. -/
theorem stageScript_mono (host : Fin n → H) (p : Fin n) (order : List (Fin n)) {l l' : Nat}
    (later : l ≤ l') : stageScript host p order l <+: stageScript host p order l' := by
  have whole := stageScript_isPrefix host p order l
  rw [stageScript] at whole
  rw [stageScript, stageScript]
  split
  · rename_i zero
    rw [if_pos zero] at whole
    split
    · exact List.nil_prefix
    · rename_i gathered
      rw [if_neg gathered] at whole
      rw [if_neg fun early => gathered (later.trans early)]
      split
      · rename_i early
        rw [if_pos early] at whole
        split
        · exact List.prefix_rfl
        · exact whole
      · rename_i late
        rw [if_neg fun early => late (later.trans early)]
  · rename_i other
    rw [if_neg other] at whole
    split
    · rename_i early
      rw [if_pos early] at whole
      split
      · exact List.prefix_rfl
      · exact whole
    · rename_i late
      rw [if_neg fun early => late (later.trans early)]

/-- At the last stage a rank has sent everything. -/
theorem stageScript_last (host : Fin n → H) (p : Fin n) (order : List (Fin n)) :
    stageScript host p order 4 = script host p order := by
  have late : ¬ 4 ≤ nameUntil host p := by
    rw [nameUntil]
    split
    · decide
    · decide
  have gathered : ¬ 4 ≤ 1 := by decide
  have collected : ¬ 4 ≤ 3 := by decide
  rw [stageScript, if_neg gathered, if_neg collected, if_neg late, ite_self]

/-- A rank that is no root has sent everything when the roots collect. -/
theorem stageScript_member (host : Fin n → H) (order : List (Fin n)) (zero : p ≠ 0)
    (member : hostRoot host p ≠ p) : stageScript host p order 3 = script host p order := by
  have late : ¬ 3 ≤ nameUntil host p := by
    rw [nameUntil, if_neg member]
    decide
  rw [stageScript, if_neg zero, if_neg late]

/-- The other ranks have sent their names when rank 0 waits for them. -/
theorem along_stage_one (host : Fin n → H) (order : List (Fin n)) (other : p ≠ 0) :
    along 0 (stageScript host p order 1) = [nameMsg host p] := by
  have early : 1 ≤ nameUntil host p := by
    rw [nameUntil]
    split
    · decide
    · decide
  rw [stageScript, if_neg other, if_pos early, along_self, along_nil]

/-- Rank 0 has answered, and sent the other roots their messages, when they wait for these. -/
theorem along_stage_two (host : Fin n → H) (order : List (Fin n)) (other : q ≠ 0) :
    along q (stageScript host 0 order 2)
      = answerMsg host q :: if hostRoot host q = q then rootMsgs host q else [] := by
  have inRoots : (q ∈ (roots host).tail) = (hostRoot host q = q) := by
    rw [mem_roots_tail]
    exact propext ⟨fun mem => mem.1, fun root => ⟨root, other⟩⟩
  have gathered : ¬ 2 ≤ 1 := by decide
  have sending : 2 ≤ 3 := by decide
  rw [stageScript, if_pos rfl, if_neg gathered, if_pos sending, along_append,
    along_toEach otherRanks_nodup, along_toEach roots_nodup.tail,
    if_pos (mem_otherRanks.mpr other)]
  simp only [inRoots]
  rfl

/-- What the ranks promise of what they have sent. -/
def topoContract (host : Fin n → H) : Contract (Fin n) MpiTag (TopoMsg H) where
  Good := Sends host
  Stage p l sent := ∃ order, order.Perm (members host p) ∧ stageScript host p order l <+: sent
  earlier := fun {p _ _ _} later come => by
    obtain ⟨order, perm, isPrefix⟩ := come
    exact ⟨order, perm, (stageScript_mono host p order later).trans isPrefix⟩

/-- A rank that has sent its script has come to every stage. -/
theorem stage_of_script {sent : List (Fin n × MpiTag × TopoMsg H)}
    (all : ∃ order, order.Perm (members host p) ∧ sent = script host p order) (l : Nat) :
    (topoContract host).Stage p l sent := by
  obtain ⟨order, perm, rfl⟩ := all
  exact ⟨order, perm, stageScript_isPrefix host p order l⟩

end Stages

end Script

/-! ## The loops of the code -/

section Loops

variable {n : Nat} {H : Type*}

theorem toRank_rank (p : Fin n) : toRank n (p : Int) = some p := by
  simp [toRank]

theorem sendInt_rank (p : Fin n) (tag : Nat) (kind : TopoKind) (z : Int) (k : TopoProc n H) :
    sendInt (p : Int) tag kind z k = .send p (.user tag) ⟨kind, .int z⟩ k := by
  rw [sendInt, toRank_rank]

theorem recvIntFrom_rank (p : Fin n) (tag : Nat) (kind : TopoKind) (k : Int → TopoProc n H) :
    recvIntFrom (p : Int) tag kind k = recvInt (some p) (MpiTag.only (.user tag)) kind k := by
  rw [recvIntFrom, toRank_rank]

theorem readAt_eq {a : List Int} {j : Nat} {z : Int} (at_ : a[j]? = some z)
    (k : Int → TopoProc n H) : readAt a (j : Int) k = k z := by
  rw [readAt, if_pos (Int.natCast_nonneg j), Int.toNat_natCast, at_]

/-- A read that finds the ranks of an array. -/
def ReadsRanks (read : TopoRead n H) : Prop :=
  ∀ (a : List Int) (j : Nat) (p : Fin n) (k : Int → TopoProc n H), a[j]? = some (p : Int) →
    read a (j : Int) k = k p

theorem readsRanks_readAt : ReadsRanks (n := n) (H := H) readAt :=
  fun _ _ _ k at_ => readAt_eq at_ k

theorem readsRanks_readRank : ReadsRanks (n := n) (H := H) readRank := by
  intro a j p k at_
  rw [readRank, readAt_eq at_, toRank_rank]
  rfl

variable {read : TopoRead n H} (reads : ReadsRanks read) {l : List (Fin n)} {a : List Int}
  {j : Nat} {k : Int → TopoProc n H}

omit k in
/-- The array of some ranks. -/
theorem getElem?_ranks (j : Nat) (h : j < l.length) :
    (l.map fun p : Fin n => (p : Int))[j]? = some (l[j] : Int) := by
  rw [List.getElem?_map, List.getElem?_eq_getElem h]
  rfl

include reads

/-- The neighbour before, read from an array that starts with a ring of ranks. -/
theorem read_prev (array : ∀ j (h : j < l.length), a[j]? = some (l[j] : Int)) (nodup : l.Nodup)
    (within : j + 1 < l.length) :
    read a (((j + 1 : Nat) : Int) - 1) k = k (l.formPerm.symm l[j + 1]) := by
  have place : (((j + 1 : Nat) : Int) - 1) = (j : Int) := by omega
  rw [place, reads a j _ k (array j (by omega)), formPerm_symm_succ nodup within]

/-- The neighbour after. -/
theorem read_next (array : ∀ j (h : j < l.length), a[j]? = some (l[j] : Int)) (nodup : l.Nodup)
    (within : j < l.length) {last : Prop} [Decidable last] (isLast : last ↔ j + 1 = l.length) :
    read a (if last then 0 else (j : Int) + 1) k = k (l.formPerm l[j]) := by
  split
  · rename_i end_
    rw [formPerm_last nodup (isLast.mp end_)]
    exact reads a 0 _ k (array 0 (by omega))
  · rename_i more
    have next : j + 1 < l.length := by
      have := mt isLast.mpr more
      omega
    rw [List.formPerm_apply_lt_getElem l nodup j next]
    exact reads a (j + 1) _ k (array (j + 1) next)

end Loops

section Bursts

variable {n : Nat} {H : Type*} [DecidableEq H] {host : Fin n → H}

/-- The elements of an array with one value for each root. -/
theorem getElem?_perRoot (f : Fin n → Int) (z : Int) {j : Nat} (h : j < (roots host).length) :
    (perRoot host (List.finRange n) f z)[j]? = some (f (roots host)[j]) := by
  have h' : j < (rootsIn host (List.finRange n)).length := h
  rw [perRoot, List.getElem?_append_left (by rwa [List.length_map]), List.getElem?_map,
    List.getElem?_eq_getElem h']
  rfl

/-- The arrays of rank 0, by root. -/
theorem TableOk.arrays {t : HostTable H} (ok : TableOk host (List.finRange n) t) :
    (∀ j (h : j < (roots host).length), t.localRoots[j]? = some ((roots host)[j] : Int)) ∧
      ∀ j (h : j < (roots host).length),
        t.localSizes[j]? = some (hostSize host (roots host)[j] : Int) := by
  refine ⟨fun j h => ?_, fun j h => ?_⟩
  · rw [ok.localRoots]
    exact getElem?_perRoot _ _ h
  · rw [ok.localSizes]
    exact getElem?_perRoot _ _ h

section Loops

variable {read : TopoRead n H} (reads : ReadsRanks read)
include reads

/-- The loop over the other roots sends them their messages. -/
theorem sendRoots_eq {t : HostTable H} (ok : TableOk host (List.finRange n) t)
    (k : TopoProc n H) {rounds j : Nat} (all : rounds + (j + 1) = (roots host).length) :
    sendRoots read t rounds (j + 1) k
      = Proc.sends (toEach ((roots host).drop (j + 1)) (rootMsgs host)) k := by
  obtain ⟨array, sizes⟩ := ok.arrays
  induction rounds generalizing j with
  | zero =>
      rw [List.drop_eq_nil_of_le (by omega)]
      rfl
  | succ rounds ih =>
      have within : j + 1 < (roots host).length := by omega
      have nhosts : t.nhosts = (roots host).length := ok.nhosts
      rw [sendRoots, read_prev reads array roots_nodup within,
        read_next reads array roots_nodup within (by omega), readAt_eq (sizes _ within),
        reads _ _ _ _ (array _ within), sendInt_rank, sendInt_rank, sendInt_rank, ih (by omega),
        List.drop_eq_getElem_cons within]
      rfl

/-- The loop over the ranks of a host sends them their messages. -/
theorem sendRing_eq {r : Fin n} {order : List (Fin n)} {t : Topo H} (nodup : (r :: order).Nodup)
    (size : t.intraSize = (r :: order).length) (hostSize_ : t.intraSize = hostSize host r)
    (left : t.interLeft = (roots host).formPerm.symm r)
    (right : t.interRight = (roots host).formPerm r) (k : TopoProc n H) {rounds j : Nat}
    (all : rounds + (j + 1) = (r :: order).length) :
    sendRing read ((r :: order).map fun p : Fin n => (p : Int)) t rounds (j + 1) k
      = Proc.sends (toEach ((r :: order).drop (j + 1)) (ringMsgs host r order)) k := by
  induction rounds generalizing j with
  | zero =>
      rw [List.drop_eq_nil_of_le (by omega)]
      rfl
  | succ rounds ih =>
      have within : j + 1 < (r :: order).length := by omega
      rw [sendRing, read_prev reads getElem?_ranks nodup within,
        read_next reads getElem?_ranks nodup within (by omega),
        reads _ _ _ _ (getElem?_ranks _ within),
        sendInt_rank, sendInt_rank, sendInt_rank, sendInt_rank, sendInt_rank, ih (by omega),
        List.drop_eq_getElem_cons within, left, right, hostSize_]
      rfl

end Loops

end Bursts

end Ipm
