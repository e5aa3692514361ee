import Mathlib.Algebra.Ring.Nat
import Mathlib.Data.List.FinRange
import Ipm.Lib.MessagePassing

/-!
# The machine topology

`ipm_get_machtopo` (`src/ipm_mpi_machtopo.c`) as one process for each rank.  Rank 0
receives every host name in the order of the ranks, answers with the root of the host,
and sends each other root its size and its neighbours among the roots.  Each root
collects the ranks of its host from `MPI_ANY_SOURCE` and sends them the values of the
host and their neighbours.  Two broadcasts end it.

Every message carries what it was sent as, which the code does not see; a receive says
what it is meant for.  A read outside an array, or a message to a rank that does not
exist, is a fault.  How an element of `local_roots` or `local_ranks` is read is left open:
the code takes what stands there (`readAt`), and a check of the array wants a rank
(`readRank`).  `PMPI_Bcast` is a message of its root to each other rank, in a
context of its own that no `PMPI_Recv` sees; a send does not wait for its receive.
-/

namespace Ipm

open MessagePassing

/-! ## Messages -/

/-- The tag of a message, and the context of the broadcasts. -/
inductive MpiTag
  | user (tag : Nat)
  | bcast
  deriving DecidableEq, Repr

/-- `MPI_ANY_TAG`. -/
def MpiTag.any : MpiTag → Bool
  | .user _ => true
  | .bcast => false

/-- One tag. -/
def MpiTag.only (tag : MpiTag) : MpiTag → Bool := fun other => other == tag

/-- What a message is sent as. -/
inductive TopoKind
  | hostname
  | intraRoot
  | intraSize
  | interLeft
  | interRight
  | mpiRank
  | memberInterLeft
  | memberInterRight
  | memberIntraSize
  | intraLeft
  | intraRight
  | hnameRoot
  | nhosts
  deriving DecidableEq, Repr

/-- `MPI_CHAR` and `MPI_INT` buffers. -/
inductive TopoData (H : Type*)
  | chars (h : H)
  | int (z : Int)

structure TopoMsg (H : Type*) where
  kind : TopoKind
  data : TopoData H

/-- What the function sets on a rank. -/
structure Topo (H : Type*) where
  nhosts : Int
  mpiHnameRoot : H
  interLeft : Int
  interRight : Int
  intraSize : Int
  intraRoot : Int
  intraLeft : Int
  intraRight : Int

/-- The `task` and `job` of a rank before the call, zero as static data are. -/
def Topo.zero {H : Type*} (hostname : H) : Topo H := ⟨0, hostname, 0, 0, 0, 0, 0, 0⟩

abbrev TopoProc (n : Nat) (H : Type*) := Proc (Fin n) MpiTag (TopoMsg H) (Topo H)

section Steps

variable {n : Nat} {H : Type*}

/-- The rank an integer names. -/
def toRank (n : Nat) (z : Int) : Option (Fin n) :=
  if h : 0 ≤ z ∧ z.toNat < n then some ⟨z.toNat, h.2⟩ else none

/-- `PMPI_Send` of one `MPI_INT`. -/
def sendInt (dst : Int) (tag : Nat) (kind : TopoKind) (z : Int) (k : TopoProc n H) :
    TopoProc n H :=
  match toRank n dst with
  | some q => .send q (.user tag) ⟨kind, .int z⟩ k
  | none => .fault

/-- `PMPI_Recv` of one `MPI_INT`, meant for messages of a kind. -/
def recvInt (src : Option (Fin n)) (accepts : MpiTag → Bool) (kind : TopoKind)
    (k : Int → TopoProc n H) : TopoProc n H :=
  .recv src accepts (fun m => m.kind == kind) fun m =>
    match m.data with
    | .int z => k z
    | .chars _ => .fault

/-- `PMPI_Recv` of a host name. -/
def recvChars (src : Option (Fin n)) (accepts : MpiTag → Bool) (kind : TopoKind)
    (k : H → TopoProc n H) : TopoProc n H :=
  .recv src accepts (fun m => m.kind == kind) fun m =>
    match m.data with
    | .chars h => k h
    | .int _ => .fault

/-- `PMPI_Recv` of one `MPI_INT` from the rank an integer names. -/
def recvIntFrom (src : Int) (tag : Nat) (kind : TopoKind) (k : Int → TopoProc n H) :
    TopoProc n H :=
  match toRank n src with
  | some p => recvInt (some p) (MpiTag.only (.user tag)) kind k
  | none => .fault

/-- An array element. -/
def readAt (l : List Int) (j : Int) (k : Int → TopoProc n H) : TopoProc n H :=
  match if 0 ≤ j then l[j.toNat]? else none with
  | some z => k z
  | none => .fault

/-- How an element of `local_roots` or `local_ranks` is read. -/
abbrev TopoRead (n : Nat) (H : Type*) := List Int → Int → (Int → TopoProc n H) → TopoProc n H

/-- A read that also fails at an element that has not been set to a rank. -/
def readRank : TopoRead n H := fun l j k =>
  readAt l j fun z => if (toRank n z).isSome then k z else .fault

end Steps

/-! ## Rank 0 -/

/-- `hlist`, `local_roots` and `local_sizes` of rank 0, and `job.nhosts`. -/
structure HostTable (H : Type*) where
  nhosts : Nat
  hlist : List H
  localRoots : List Int
  localSizes : List Int

section Host

variable {n : Nat} {H : Type*} [DecidableEq H]

namespace HostTable

/-- Rank 0 on its own host. -/
def init (n : Nat) (h : H) : HostTable H where
  nhosts := 1
  hlist := [h]
  localRoots := (List.replicate n (-1)).set 0 0
  localSizes := (List.replicate n 0).set 0 1

/-- A new host behind the last one, `j`. -/
def add (t : HostTable H) (j : Nat) (hn : H) (i : Fin n) : HostTable H :=
  { t with
    nhosts := t.nhosts + 1
    hlist := t.hlist ++ [hn]
    localRoots := t.localRoots.set (j + 1) i }

/-- The loop over the known hosts, from `j` on: it breaks at the host, and adds it when
it passes the last one, at which it then breaks. -/
def find (hn : H) (i : Fin n) : Nat → HostTable H → Nat → HostTable H × Nat
  | 0, t, j => (t, j)
  | rounds + 1, t, j =>
      if j < t.nhosts then
        if t.hlist[j]? = some hn then (t, j)
        else if j = t.nhosts - 1 then find hn i rounds (t.add j hn i) (j + 1)
        else find hn i rounds t (j + 1)
      else (t, j)

/-- `local_sizes[j]++`. -/
def count (t : HostTable H) (j : Nat) : HostTable H :=
  { t with localSizes := t.localSizes.modify j (· + 1) }

end HostTable

variable (read : TopoRead n H)

/-- The loop over the other ranks: receive the name of the host, and answer with its
root. -/
def gatherHosts : List (Fin n) → HostTable H → (HostTable H → TopoProc n H) → TopoProc n H
  | [], t, k => k t
  | i :: rest, t, k =>
      recvChars (some i) MpiTag.any .hostname fun hn =>
        let (t, j) := t.find hn i (t.nhosts + 1) 0
        let t := t.count j
        read t.localRoots j fun root =>
          .send i (.user 0) ⟨.intraRoot, .int root⟩ (gatherHosts rest t k)

/-- The loop over the other roots, from `j` on: their size and neighbours. -/
def sendRoots (t : HostTable H) : Nat → Nat → TopoProc n H → TopoProc n H
  | 0, _, k => k
  | rounds + 1, j, k =>
      read t.localRoots (j - 1) fun ileft =>
      read t.localRoots (if j = t.nhosts - 1 then 0 else j + 1) fun iright =>
      readAt t.localSizes j fun size =>
      read t.localRoots j fun root =>
        sendInt root 0 .intraSize size <|
        sendInt root 0 .interLeft ileft <|
        sendInt root 0 .interRight iright <|
        sendRoots t rounds (j + 1) k

/-- Rank 0 between the answers and the ring of its host; its `intra_root` is the 0 of
static data. -/
def zeroData (t : HostTable H) (topo : Topo H) (k : Topo H → TopoProc n H) : TopoProc n H :=
  sendRoots read t (t.nhosts - 1) 1 <|
    readAt t.localSizes 0 fun intraSize =>
    read t.localRoots (t.nhosts - 1) fun interLeft =>
    read t.localRoots 1 fun interRight =>
      k { topo with intraSize := intraSize, interLeft := interLeft, interRight := interRight }

end Host

/-! ## The ring of a host -/

section Ring

variable {n : Nat} {H : Type*}

/-- The loop of a root that collects the other ranks of its host. -/
def collectRanks : Nat → List Int → (List Int → TopoProc n H) → TopoProc n H
  | 0, ranks, k => k ranks
  | rounds + 1, ranks, k =>
      recvInt none MpiTag.any .mpiRank fun z => collectRanks rounds (ranks ++ [z]) k

variable (read : TopoRead n H)

/-- The loop of a root over these ranks, from `j` on: the values of the host, and the
neighbours of the rank. -/
def sendRing (ranks : List Int) (t : Topo H) : Nat → Nat → TopoProc n H → TopoProc n H
  | 0, _, k => k
  | rounds + 1, j, k =>
      read ranks (j - 1) fun ileft =>
      read ranks (if (j : Int) = t.intraSize - 1 then 0 else j + 1) fun iright =>
      read ranks j fun rank =>
        sendInt rank 1 .memberInterLeft t.interLeft <|
        sendInt rank 2 .memberInterRight t.interRight <|
        sendInt rank 3 .memberIntraSize t.intraSize <|
        sendInt rank 4 .intraLeft ileft <|
        sendInt rank 5 .intraRight iright <|
        sendRing ranks t rounds (j + 1) k

/-- The two exchanges between a root and the ranks of its host. -/
def intraRing (me : Fin n) (t : Topo H) (k : Topo H → TopoProc n H) : TopoProc n H :=
  if (me : Int) = t.intraRoot then
    collectRanks (t.intraSize - 1).toNat [(me : Int)] fun ranks =>
      sendRing read ranks t (t.intraSize - 1).toNat 1 <|
        read ranks (t.intraSize - 1) fun intraLeft =>
        read ranks 1 fun intraRight =>
          k { t with intraLeft := intraLeft, intraRight := intraRight }
  else
    sendInt t.intraRoot 0 .mpiRank me <|
      recvIntFrom t.intraRoot 1 .memberInterLeft fun interLeft =>
      recvIntFrom t.intraRoot 2 .memberInterRight fun interRight =>
      recvIntFrom t.intraRoot 3 .memberIntraSize fun intraSize =>
      recvIntFrom t.intraRoot 4 .intraLeft fun intraLeft =>
      recvIntFrom t.intraRoot 5 .intraRight fun intraRight =>
        k { t with
          interLeft := interLeft
          interRight := interRight
          intraSize := intraSize
          intraLeft := intraLeft
          intraRight := intraRight }

end Ring

/-! ## The function -/

section Machtopo

variable {n : Nat} [NeZero n] {H : Type*}

/-- The ranks but 0, in order. -/
def otherRanks (n : Nat) : List (Fin n) := (List.finRange n).tail

/-- The broadcasts of rank 0. -/
def broadcasts (hname : H) (nhosts : Int) : List (Fin n × MpiTag × TopoMsg H) :=
  toEach (otherRanks n) (fun _ => [(.bcast, ⟨.hnameRoot, .chars hname⟩)]) ++
    toEach (otherRanks n) (fun _ => [(.bcast, ⟨.nhosts, .int nhosts⟩)])

/-- Both broadcasts, on a rank other than 0. -/
def recvBroadcasts (t : Topo H) : TopoProc n H :=
  recvChars (some 0) (MpiTag.only .bcast) .hnameRoot fun hname =>
    recvInt (some 0) (MpiTag.only .bcast) .nhosts fun nhosts =>
      .done { t with mpiHnameRoot := hname, nhosts := nhosts }

variable (read : TopoRead n H)

/-- A rank other than 0. -/
def machtopoTask (me : Fin n) (hostname : H) : TopoProc n H :=
  .send 0 (.user me) ⟨.hostname, .chars hostname⟩ <|
    recvInt (some 0) MpiTag.any .intraRoot fun root =>
      if (me : Int) = root then
        recvInt (some 0) MpiTag.any .intraSize fun intraSize =>
        recvInt (some 0) MpiTag.any .interLeft fun interLeft =>
        recvInt (some 0) MpiTag.any .interRight fun interRight =>
          intraRing read me
            { Topo.zero hostname with
              intraRoot := root
              intraSize := intraSize
              interLeft := interLeft
              interRight := interRight }
            recvBroadcasts
      else intraRing read me { Topo.zero hostname with intraRoot := root } recvBroadcasts

variable [DecidableEq H]

/-- Rank 0. -/
def machtopoZero (hostname : H) : TopoProc n H :=
  gatherHosts read (otherRanks n) (HostTable.init n hostname) fun hosts =>
    zeroData read hosts (Topo.zero hostname) fun t =>
      intraRing read 0 t fun t =>
        Proc.sends (broadcasts hostname hosts.nhosts)
          (.done { t with mpiHnameRoot := hostname, nhosts := hosts.nhosts })

/-- `ipm_get_machtopo` on a rank, with this read. -/
def ipmGetMachtopoBy (host : Fin n → H) (me : Fin n) : TopoProc n H :=
  if n = 1 then
    .done {
      nhosts := 1
      mpiHnameRoot := host me
      interLeft := me
      interRight := me
      intraSize := 1
      intraRoot := me
      intraLeft := me
      intraRight := me }
  else if me ≠ 0 then machtopoTask read me (host me)
  else machtopoZero read (host me)

/-- `ipm_get_machtopo` on a rank. -/
def ipmGetMachtopo (host : Fin n → H) (me : Fin n) : TopoProc n H :=
  ipmGetMachtopoBy readAt host me

end Machtopo

end Ipm
