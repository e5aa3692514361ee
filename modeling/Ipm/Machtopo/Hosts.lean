import Mathlib.Data.Finset.Max
import Mathlib.Data.Fintype.Basic
import Mathlib.Data.Fin.Basic
import Ipm.Machtopo.Code

/-!
# Hosts and their roots

What the table of rank 0 (`HostTable`) says after it has received some of the names.
The root of a host is its least rank, so with the ranks in order a host is new exactly
when the rank is its root.

* `hostRoot_eq_iff`: two ranks have one root exactly when they share a host.
* `find_spec`: the loop over the known hosts finds the root of the rank.
* `TableOk.count`: the table after one more name.
-/

namespace Ipm

section Roots

variable {n : Nat} {H : Type*} [DecidableEq H] (host : Fin n → H)

/-- The ranks of a rank's host. -/
def hostRanks (p : Fin n) : Finset (Fin n) := Finset.univ.filter fun q => host q = host p

theorem mem_hostRanks {p q : Fin n} : q ∈ hostRanks host p ↔ host q = host p := by
  simp [hostRanks]

/-- The least rank of a rank's host. -/
def hostRoot (p : Fin n) : Fin n :=
  (hostRanks host p).min' ⟨p, (mem_hostRanks host).mpr rfl⟩

theorem host_hostRoot (p : Fin n) : host (hostRoot host p) = host p :=
  (mem_hostRanks host).mp (Finset.min'_mem _ _)

theorem hostRoot_le {p q : Fin n} (same : host q = host p) : hostRoot host p ≤ q :=
  Finset.min'_le _ _ ((mem_hostRanks host).mpr same)

theorem hostRoot_eq_iff {p q : Fin n} : hostRoot host p = hostRoot host q ↔ host p = host q := by
  refine ⟨fun same => ?_, fun same => ?_⟩
  · rw [← host_hostRoot host p, same, host_hostRoot host q]
  · apply le_antisymm
    · exact hostRoot_le host ((host_hostRoot host q).trans same.symm)
    · exact hostRoot_le host ((host_hostRoot host p).trans same)

theorem hostRoot_idem (p : Fin n) : hostRoot host (hostRoot host p) = hostRoot host p :=
  (hostRoot_eq_iff host).mpr (host_hostRoot host p)

theorem hostRoot_zero [NeZero n] : hostRoot host 0 = 0 :=
  le_antisymm (hostRoot_le host rfl) (Fin.zero_le _)

/-- The roots of a list of ranks. -/
def rootsIn (l : List (Fin n)) : List (Fin n) := l.filter fun p => hostRoot host p = p

/-- How many of a list of ranks have a root. -/
def countIn (l : List (Fin n)) (r : Fin n) : Nat := l.countP fun p => hostRoot host p = r

theorem mem_rootsIn {l : List (Fin n)} {p : Fin n} :
    p ∈ rootsIn host l ↔ p ∈ l ∧ hostRoot host p = p := by
  simp [rootsIn]

theorem countIn_snoc (l : List (Fin n)) (i r : Fin n) :
    countIn host (l ++ [i]) r = countIn host l r + if hostRoot host i = r then 1 else 0 := by
  simp only [countIn, List.countP_append, List.countP_singleton, decide_eq_true_eq]

end Roots

/-! ## The ranks in order -/

section Order

variable {n : Nat} {done rest : List (Fin n)} {i : Fin n}

/-- In the list of all ranks, those before a rank are the smaller ones. -/
theorem mem_before (split_ : done ++ i :: rest = List.finRange n) {q : Fin n} :
    q ∈ done ↔ q < i := by
  have sorted := List.pairwise_lt_finRange n
  rw [← split_, List.pairwise_append, List.pairwise_cons] at sorted
  obtain ⟨-, ⟨after, -⟩, before⟩ := sorted
  refine ⟨fun mem => before q mem i List.mem_cons_self, fun less => ?_⟩
  have every : q ∈ done ++ i :: rest := split_ ▸ List.mem_finRange q
  rcases List.mem_append.mp every with mem | mem
  · exact mem
  · rcases List.mem_cons.mp mem with rfl | later
    · exact absurd less (lt_irrefl _)
    · exact absurd less (not_lt_of_gt (after q later))

theorem length_before (split_ : done ++ i :: rest = List.finRange n) : done.length < n := by
  have length := congrArg List.length split_
  rw [List.length_append, List.length_cons, List.length_finRange] at length
  omega

theorem nodup_before (split_ : done ++ i :: rest = List.finRange n) : done.Nodup := by
  have nodup := List.nodup_finRange n
  rw [← split_] at nodup
  exact (List.nodup_append.mp nodup).1

end Order

/-! ## The table of rank 0 -/

section Table

variable {n : Nat} {H : Type*} [DecidableEq H] {host : Fin n → H}

/-- A value for each root, and one for the rest of an array. -/
def perRoot (host : Fin n → H) (done : List (Fin n)) (f : Fin n → Int) (z : Int) : List Int :=
  (rootsIn host done).map f ++ List.replicate (n - (rootsIn host done).length) z

/-- The table after the names of these ranks. -/
structure TableOk (host : Fin n → H) (done : List (Fin n)) (t : HostTable H) : Prop where
  nhosts : t.nhosts = (rootsIn host done).length
  hlist : t.hlist = (rootsIn host done).map host
  localRoots : t.localRoots = perRoot host done (fun p : Fin n => (p : Int)) (-1)
  localSizes : t.localSizes = perRoot host done (fun r => countIn host done r) 0

/-- The element after a list of a known length. -/
theorem modify_append_cons {α : Type*} (a b : List α) (x : α) (f : α → α) :
    (a ++ x :: b).modify a.length f = a ++ f x :: b := by
  induction a with
  | nil => rfl
  | cons y a ih =>
      change y :: (a ++ x :: b).modify a.length f = _
      rw [ih]
      rfl

theorem getElem?_append_cons {α : Type*} (a b : List α) (x : α) :
    (a ++ x :: b)[a.length]? = some x := by
  rw [List.getElem?_append_right (Nat.le_refl _), Nat.sub_self]
  rfl

/-- The loop finds a host it knows. -/
theorem find_known {hn : H} {i : Fin n} {t : HostTable H} {before after : List H}
    (length : t.hlist.length = t.nhosts) (hlist : t.hlist = before ++ hn :: after)
    (new : hn ∉ before) {rounds j : Nat} (from_ : j ≤ before.length)
    (enough : before.length < rounds + j) :
    t.find hn i rounds j = (t, before.length) := by
  have known : before.length < t.nhosts := by
    rw [← length, hlist, List.length_append, List.length_cons]
    omega
  induction rounds generalizing j with
  | zero => omega
  | succ rounds ih =>
      rw [HostTable.find, if_pos (by omega)]
      rcases Nat.lt_or_eq_of_le from_ with earlier | rfl
      · have other : t.hlist[j]? ≠ some hn := by
          rw [hlist, List.getElem?_append_left earlier]
          exact fun at_ => new (List.mem_of_getElem? at_)
        rw [if_neg other, if_neg (by omega)]
        exact ih earlier (by omega)
      · rw [hlist, getElem?_append_cons, if_pos rfl]

/-- The loop adds a host it does not know. -/
theorem find_new {hn : H} {i : Fin n} {t : HostTable H}
    (length : t.hlist.length = t.nhosts) (new : hn ∉ t.hlist) {rounds j : Nat}
    (from_ : j < t.nhosts) (enough : t.nhosts < rounds + j) :
    t.find hn i rounds j = (t.add (t.nhosts - 1) hn i, t.nhosts) := by
  induction rounds generalizing j with
  | zero => omega
  | succ rounds ih =>
      have other : t.hlist[j]? ≠ some hn := fun at_ => new (List.mem_of_getElem? at_)
      rw [HostTable.find, if_pos from_, if_neg other]
      rcases eq_or_ne j (t.nhosts - 1) with rfl | earlier
      · -- the loop goes on to the host it has just added
        have next : t.nhosts - 1 + 1 = t.nhosts := by omega
        rw [if_pos rfl, next]
        obtain ⟨rounds, rfl⟩ : ∃ k, rounds = k + 1 := ⟨rounds - 1, by omega⟩
        have last : (t.add (t.nhosts - 1) hn i).hlist[t.nhosts]? = some hn := by
          rw [← length]
          exact getElem?_append_cons _ [] hn
        have more : t.nhosts < (t.add (t.nhosts - 1) hn i).nhosts := Nat.lt_succ_self _
        rw [HostTable.find, if_pos more, if_pos last]
      · rw [if_neg earlier]
        exact ih (by omega) (by omega)

variable {done rest : List (Fin n)} {i : Fin n} {t : HostTable H}

theorem TableOk.length (ok : TableOk host done t) : t.hlist.length = t.nhosts := by
  rw [ok.hlist, ok.nhosts, List.length_map]

/-- One more rank does not count for the other roots. -/
theorem map_countIn_snoc {roots : List (Fin n)} (notIn : hostRoot host i ∉ roots) :
    (roots.map fun r => (countIn host (done ++ [i]) r : Int)) =
      roots.map fun r => (countIn host done r : Int) := by
  apply List.map_congr_left
  intro r inside
  have apart : hostRoot host i ≠ r := fun eq => notIn (eq ▸ inside)
  rw [countIn_snoc, if_neg apart, Nat.add_zero]

/-- One more rank of a host that is known. -/
theorem TableOk.count_known (ok : TableOk host done t)
    (split_ : done ++ i :: rest = List.finRange n) (known : hostRoot host i ≠ i) :
    ∃ j, t.find (host i) i (t.nhosts + 1) 0 = (t, j) ∧ TableOk host (done ++ [i]) (t.count j) ∧
      t.localRoots[j]? = some (hostRoot host i : Int) := by
  have less : hostRoot host i < i := lt_of_le_of_ne (hostRoot_le host rfl) known
  have mem : hostRoot host i ∈ rootsIn host done :=
    (mem_rootsIn host).mpr ⟨(mem_before split_).mpr less, hostRoot_idem host i⟩
  have nodup : (rootsIn host done).Nodup := (nodup_before split_).filter _
  obtain ⟨before, after, roots⟩ := List.append_of_mem mem
  rw [roots, List.nodup_append, List.nodup_cons] at nodup
  obtain ⟨-, ⟨notAfter, -⟩, apart⟩ := nodup
  have notBefore : hostRoot host i ∉ before :=
    fun also => apart _ also _ List.mem_cons_self rfl
  have same : rootsIn host (done ++ [i]) = rootsIn host done := by
    simp [rootsIn, known]
  refine ⟨before.length, ?_, ⟨?_, ?_, ?_, ?_⟩, ?_⟩
  · have hlist : t.hlist = before.map host ++ host i :: after.map host := by
      rw [ok.hlist, roots, List.map_append, List.map_cons, host_hostRoot host i]
    have new : host i ∉ before.map host := by
      intro also
      obtain ⟨r, inBefore, shared⟩ := List.mem_map.mp also
      have isRoot : hostRoot host r = r :=
        ((mem_rootsIn host).mp (roots ▸ List.mem_append_left _ inBefore)).2
      rw [← (hostRoot_eq_iff host).mpr shared, isRoot] at notBefore
      exact notBefore inBefore
    have bound : (before.map host).length < t.nhosts + 1 := by
      rw [ok.nhosts, roots, List.length_map, List.length_append]
      omega
    have found := find_known (i := i) ok.length hlist new (Nat.zero_le _) bound
    rwa [List.length_map] at found
  · exact same ▸ ok.nhosts
  · exact same ▸ ok.hlist
  · rw [perRoot, same]
    exact ok.localRoots
  · have sizes : t.localSizes = before.map (fun r => (countIn host done r : Int)) ++
        (countIn host done (hostRoot host i) : Int) ::
          (after.map (fun r => (countIn host done r : Int)) ++
            List.replicate (n - (rootsIn host done).length) 0) := by
      rw [ok.localSizes, perRoot, roots, List.map_append, List.map_cons, List.append_assoc,
        List.cons_append]
    have own : (countIn host (done ++ [i]) (hostRoot host i) : Int)
        = countIn host done (hostRoot host i) + 1 := by
      rw [countIn_snoc, if_pos rfl]
      rfl
    have place : before.length = (before.map fun r => (countIn host done r : Int)).length :=
      (List.length_map _).symm
    rw [perRoot, same, HostTable.count, sizes, place, modify_append_cons]
    rw [roots, List.map_append, List.map_cons, map_countIn_snoc notBefore,
      map_countIn_snoc notAfter, own, List.append_assoc, List.cons_append]
  · rw [ok.localRoots, perRoot, roots, List.map_append, List.append_assoc, List.map_cons,
      List.cons_append]
    have place : before.length = (before.map fun r : Fin n => (r : Int)).length :=
      (List.length_map _).symm
    rw [place]
    exact getElem?_append_cons _ _ _

/-- The first name read is that of rank 0. -/
theorem TableOk.nhosts_pos (ok : TableOk host done t)
    (split_ : done ++ i :: rest = List.finRange n) (some_ : done ≠ []) : 0 < t.nhosts := by
  obtain ⟨q, more⟩ := List.exists_mem_of_ne_nil done some_
  have before := (mem_before split_).mp more
  have root : hostRoot host q ∈ rootsIn host done := by
    refine (mem_rootsIn host).mpr ⟨(mem_before split_).mpr ?_, hostRoot_idem host q⟩
    exact lt_of_le_of_lt (hostRoot_le host rfl) before
  rw [ok.nhosts]
  exact List.length_pos_of_mem root

/-- The name of a new host is not in the table. -/
theorem TableOk.unknown (ok : TableOk host done t) (notIn : i ∉ done)
    (new : hostRoot host i = i) : host i ∉ t.hlist := by
  rw [ok.hlist]
  intro also
  obtain ⟨r, inRoots, shared⟩ := List.mem_map.mp also
  obtain ⟨inDone, isRoot⟩ := (mem_rootsIn host).mp inRoots
  have same := (hostRoot_eq_iff host).mpr shared
  rw [isRoot, new] at same
  exact notIn (same ▸ inDone)

/-- A new host has had no rank before. -/
theorem countIn_new (split_ : done ++ i :: rest = List.finRange n) (new : hostRoot host i = i) :
    (countIn host (done ++ [i]) i : Int) = 0 + 1 := by
  have none_ : countIn host done i = 0 := by
    rw [countIn, List.countP_eq_zero]
    intro q inDone
    have less := (mem_before split_).mp inDone
    have le : hostRoot host q ≤ q := hostRoot_le host rfl
    simpa using (lt_of_le_of_lt le less).ne
  rw [countIn_snoc, if_pos new, none_]
  rfl

/-- The first rank of a host. -/
theorem TableOk.count_new (ok : TableOk host done t)
    (split_ : done ++ i :: rest = List.finRange n) (some_ : done ≠ []) (new : hostRoot host i = i) :
    ∃ t' j, t.find (host i) i (t.nhosts + 1) 0 = (t', j) ∧
      TableOk host (done ++ [i]) (t'.count j) ∧
        t'.localRoots[j]? = some (hostRoot host i : Int) := by
  have notIn : i ∉ done := fun mem => absurd ((mem_before split_).mp mem) (lt_irrefl _)
  have grown : rootsIn host (done ++ [i]) = rootsIn host done ++ [i] := by
    simp [rootsIn, new]
  have short : (rootsIn host done).length ≤ done.length := List.length_filter_le _ _
  have room := length_before split_
  have pos := ok.nhosts_pos split_ some_
  have replicate_ : ∀ z : Int, List.replicate (n - (rootsIn host done).length) z
      = z :: List.replicate (n - (rootsIn host (done ++ [i])).length) z := by
    intro z
    rw [← List.replicate_succ, grown, List.length_append, List.length_singleton]
    congr 1
    omega
  have place : t.nhosts - 1 + 1 = t.nhosts := by omega
  have roots : (t.add (t.nhosts - 1) (host i) i).localRoots
      = perRoot host (done ++ [i]) (fun p : Fin n => (p : Int)) (-1) := by
    change t.localRoots.set (t.nhosts - 1 + 1) (i : Int) = _
    rw [place, ok.localRoots, perRoot, replicate_, ok.nhosts, perRoot, grown, List.map_append]
    have length : (rootsIn host done).length
        = ((rootsIn host done).map fun p : Fin n => (p : Int)).length := (List.length_map _).symm
    rw [List.set_append_right _ _ (Nat.le_of_eq length.symm), length, Nat.sub_self,
      List.set_cons_zero, List.append_assoc]
    rfl
  refine ⟨t.add (t.nhosts - 1) (host i) i, t.nhosts, ?_, ⟨?_, ?_, roots, ?_⟩, ?_⟩
  · exact find_new ok.length (ok.unknown notIn new) pos (Nat.lt_succ_self _)
  · change t.nhosts + 1 = _
    rw [grown, ok.nhosts, List.length_append, List.length_singleton]
  · change t.hlist ++ [host i] = _
    rw [grown, ok.hlist, List.map_append, List.map_singleton]
  · have notRoot : hostRoot host i ∉ rootsIn host done := by
      rw [new]
      exact fun mem => notIn ((mem_rootsIn host).mp mem).1
    change t.localSizes.modify t.nhosts (· + 1) = _
    rw [ok.localSizes, perRoot, replicate_, ← map_countIn_snoc notRoot, ok.nhosts, perRoot,
      grown, List.map_append, List.map_singleton, countIn_new split_ new]
    have length : (rootsIn host done).length
        = ((rootsIn host done).map fun r => (countIn host (done ++ [i]) r : Int)).length :=
      (List.length_map _).symm
    rw [length, modify_append_cons, List.append_assoc]
    rfl
  · have length : (rootsIn host done).length
        = ((rootsIn host done).map fun p : Fin n => (p : Int)).length := (List.length_map _).symm
    rw [roots, perRoot, grown, List.map_append, List.map_singleton, ok.nhosts, length,
      List.append_assoc, List.singleton_append, getElem?_append_cons, new]

/-- The table after one more name, and the root it answers with. -/
theorem TableOk.count (ok : TableOk host done t) (split_ : done ++ i :: rest = List.finRange n)
    (some_ : done ≠ []) :
    ∃ t' j, t.find (host i) i (t.nhosts + 1) 0 = (t', j) ∧
      TableOk host (done ++ [i]) (t'.count j) ∧
      (t'.count j).localRoots[j]? = some (hostRoot host i : Int) := by
  rcases eq_or_ne (hostRoot host i) i with new | known
  · exact ok.count_new split_ some_ new
  · obtain ⟨j, found, next, root⟩ := ok.count_known split_ known
    exact ⟨t, j, found, next, root⟩

theorem init_tableOk [NeZero n] (host : Fin n → H) :
    TableOk host [0] (HostTable.init n (host 0)) := by
  have roots : rootsIn host [0] = [0] := by simp [rootsIn, hostRoot_zero]
  have own : countIn host [0] 0 = 1 := by simp [countIn, hostRoot_zero]
  obtain ⟨m, rfl⟩ : ∃ m, n = m + 1 := ⟨n - 1, by have := NeZero.ne n; omega⟩
  refine ⟨?_, ?_, ?_, ?_⟩
  · rw [roots]
    rfl
  · rw [roots]
    rfl
  · rw [perRoot, roots]
    rfl
  · rw [perRoot, roots, List.map_singleton, own]
    rfl

end Table

end Ipm
