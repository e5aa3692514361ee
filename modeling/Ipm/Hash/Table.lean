import Mathlib.Data.Rat.Defs
import Mathlib.Algebra.Order.Ring.Unbundled.Rat
import Ipm.Lib.Runs
import Ipm.Sizes
import Ipm.Key

/-!
# The event hash table

The hash table part of `task`, with `IPM_HASH_HKEY` (`include/ipm.h`),
`ipm_hash_cull` (`src/ipm_util.c`) and the logging section of a generated wrapper
(`bin/make_wrappers`).

`IPM_HASH_HKEY` and `ipm_hash_cull` call each other.  The probe loop `hkeyLoop`
takes the cull it may call as a parameter, and `ipmHashCull` ties the knot by
recursion on a bound that limits both the nesting of culls and the passes of each
loop; a run that exceeds it stops with `Stop.outOfFuel`.

`collisions` is the file-scope counter of `ipm.h`: it is part of the state, so
what a nested insertion leaves in it is there when the interrupted probe resumes.
-/

namespace Ipm

/-! ## State -/

/-- `ipm_hash_ent`. -/
structure HashEnt where
  key : Nat
  count : Nat
  tTot : Rat
  tMin : Rat
  tMax : Rat

/-- `IPM_MPI_KEY_CLEAR`. -/
def HashEnt.clear : HashEnt := ⟨0, 0, 0, 0, 0⟩

/-- The entry `IPM_HASH_HKEY` makes for a new key. -/
def HashEnt.new (fkey : Nat) : HashEnt := ⟨fkey, 0, 0, 10 ^ 15, 0⟩

/-- The fields of `task` the hash table code reads and writes, and `collisions`. -/
structure HashState where
  hash : Nat → HashEnt
  hashNkey : Nat
  hashNlog : Nat
  callMask : Nat → Nat
  callMcount : Nat → Nat → Nat
  callMtime : Nat → Nat → Rat
  collisions : Nat

/-- The state `ipm_init_task` and `IPM_HASH_CLEAR` leave. -/
def HashState.init : HashState where
  hash := fun _ => HashEnt.clear
  hashNkey := 0
  hashNlog := 0
  callMask := fun _ => callMaskBprec
  callMcount := fun _ _ => 0
  callMtime := fun _ _ => 0
  collisions := 0

/-- How the code stops short: `exit(1)`, a division by zero, or the bound of the
model's recursion. -/
inductive Stop
  | exit
  | divByZero
  | outOfFuel
  deriving DecidableEq, Repr

/-- Store an entry. -/
def HashState.setEnt (t : HashState) (hkey : Nat) (ent : HashEnt) : HashState :=
  { t with hash := Function.update t.hash hkey ent }

/-- The `new key` branch of `IPM_HASH_HKEY`. -/
def HashState.newKey (t : HashState) (hkey fkey : Nat) : HashState :=
  { t.setEnt hkey (HashEnt.new fkey) with hashNkey := t.hashNkey + 1 }

/-- `collisions++`. -/
def HashState.collide (t : HashState) : HashState :=
  { t with collisions := t.collisions + 1 }

/-! ## `IPM_HASH_HKEY` -/

/-- The slot of the probe sequence of `fkey` after `collisions` collisions. -/
def hkeyAt (b : Build) (fkey collisions : Nat) : Nat :=
  (fkey % b.maxsizeHash + collisions * (1 + fkey % (b.maxsizeHash - 2))) % b.maxsizeHash

/-- The check of `hash_nkey` against `MAXSIZE_HASHLIMIT` after a collision. -/
def cullIfFull (b : Build) (cull : HashState → Except Stop HashState) (t : HashState) :
    Except Stop HashState :=
  if b.maxsizeHashlimit ≤ t.hashNkey then cull t else .ok t

/-- The `while` loop of `IPM_HASH_HKEY`.  `cull` is the call of `ipm_hash_cull`;
with two slots the probe formula divides by zero. -/
def hkeyLoop (b : Build) (cull : HashState → Except Stop HashState) (fkey : Nat) :
    Nat → HashState → Nat → Except Stop (HashState × Nat)
  | 0, _, _ => .error .outOfFuel
  | fuel + 1, t, hkey =>
      if (t.hash hkey).key = fkey then .ok (t, hkey)
      else if (t.hash hkey).key = 0 then
        hkeyLoop b cull fkey fuel (t.newKey hkey fkey) hkey
      else do
        let t ← cullIfFull b cull t
        if b.maxsizeHash = 2 then .error .divByZero
        else hkeyLoop b cull fkey fuel t.collide (hkeyAt b fkey t.collide.collisions)

/-- `IPM_HASH_HKEY`. -/
def ipmHashHkey (b : Build) (cull : HashState → Except Stop HashState) (fuel : Nat)
    (t : HashState) (fkey : Nat) : Except Stop (HashState × Nat) :=
  hkeyLoop b cull fkey fuel { t with collisions := 0 } (fkey % b.maxsizeHash)

/-! ## `ipm_hash_cull` -/

/-- Zero the call statistics of every region. -/
def clearCalls (b : Build) (t : HashState) : HashState :=
  { t with
    callMcount := fun j i =>
      if j < maxsizeRegion ∧ 1 ≤ i ∧ i ≤ b.maxsizeCalls then 0 else t.callMcount j i
    callMtime := fun j i =>
      if j < maxsizeRegion ∧ 1 ≤ i ∧ i ≤ b.maxsizeCalls then 0 else t.callMtime j i }

/-- Add one slot to the density of its call, kept under region 0. -/
def countCall (t : HashState) (i : Nat) : HashState :=
  let icall := keyCall (t.hash i).key
  { t with
    callMtime := Function.update t.callMtime 0
      (Function.update (t.callMtime 0) icall (t.callMtime 0 icall + (t.hash i).tTot))
    callMcount := Function.update t.callMcount 0
      (Function.update (t.callMcount 0) icall (t.callMcount 0 icall + 1)) }

/-- The call statistics `ipm_hash_cull` looks for the densest call in. -/
def callDensity (b : Build) (t : HashState) : HashState :=
  (List.range (b.maxsizeHash + 1)).foldl countCall (clearCalls b t)

/-- `most_dense_call`: the first call of the greatest density, or 0. -/
def mostDenseCall (b : Build) (t : HashState) : Nat :=
  ((List.range' 1 b.maxsizeCalls).foldl
    (fun best i => if t.callMcount 0 i > best.2 then (i, t.callMcount 0 i) else best) (0, 0)).1

/-- Everything before the saved data is put back: densities, the emptied table and
the lowered precision of the densest call. -/
def cullStart (b : Build) (t : HashState) : Except Stop HashState :=
  let t := callDensity b t
  let call := mostDenseCall b t
  let callMask := Function.update t.callMask call (callBufPrecisionDown (t.callMask call))
  if callMask call &&& callMaskBprec = 0 then .error .exit
  else .ok { t with hash := fun _ => HashEnt.clear, hashNkey := 0, callMask := callMask }

/-- Fold a saved entry into the entry of its new key. -/
def HashEnt.merge (ent saved : HashEnt) : HashEnt :=
  { ent with
    count := ent.count + saved.count
    tTot := ent.tTot + saved.tTot
    tMax := if saved.tMax > ent.tMax then saved.tMax else ent.tMax
    tMin := if saved.tMin < ent.tMin then saved.tMin else ent.tMin }

/-- Put one saved entry back under the key its decoded fields have now. -/
def reinsert (b : Build) (cull : HashState → Except Stop HashState) (fuel : Nat)
    (t : HashState) (saved : HashEnt) : Except Stop HashState :=
  if saved.key = 0 then .ok t
  else do
    let key := ipmMpiKey t.callMask (keyRegion saved.key) (keyCall saved.key)
      (keyRank saved.key) (keyByte saved.key)
    let (t, hkey) ← ipmHashHkey b cull fuel t key
    .ok (t.setEnt hkey ((t.hash hkey).merge saved))

/-- `hbuf_save`, the copy of the table. -/
def savedTable (b : Build) (t : HashState) : List HashEnt :=
  (List.range (b.maxsizeHash + 1)).map t.hash

/-- `ipm_hash_cull("MAXSIZE_HASHLIMIT")`. -/
def ipmHashCull (b : Build) : Nat → HashState → Except Stop HashState
  | 0, _ => .error .outOfFuel
  | fuel + 1, t => do
      let start ← cullStart b t
      Runs.run (reinsert b (ipmHashCull b fuel) fuel) start (savedTable b t)

/-! ## Logging an event -/

/-- What a wrapper logs: the current region, its own call id, `irank` and `ibytes`,
the duration `t2-t1`, and the outcome of `duration_adjust`. -/
structure MpiEvent where
  region : Int
  call : Nat
  rank : Int
  bytes : Int
  wall : Rat
  ret : Int := 0
  srDur : Rat := 0

/-- Add a duration to the statistics of an entry. -/
def HashEnt.addTime (ent : HashEnt) (wall : Rat) : HashEnt :=
  { ent with
    tTot := ent.tTot + wall
    tMax := if wall > ent.tMax then wall else ent.tMax
    tMin := if wall < ent.tMin then wall else ent.tMin }

/-- The update of an event's entry, by the value `duration_adjust` returned. -/
def HashEnt.log (ent : HashEnt) (e : MpiEvent) : HashEnt :=
  let ent := { ent with count := ent.count + 1 }
  if e.ret = 0 then ent.addTime e.wall
  else if e.ret = -1 then
    -- the average so far, t_max and t_min not touched
    if ent.count - 1 > 0 then { ent with tTot := ent.tTot + ent.tTot / (ent.count - 1 : Nat) }
    else ent
  else if e.ret = 1 then ent.addTime (e.wall - e.srDur)
  else ent

/-- The logging section of a wrapper. -/
def wrapperLog (b : Build) (fuel : Nat) (t : HashState) (e : MpiEvent) :
    Except Stop HashState := do
  let t := { t with hashNlog := t.hashNlog + 1 }
  let key := ipmMpiKey t.callMask e.region e.call e.rank e.bytes
  let (t, hkey) ← ipmHashHkey b (ipmHashCull b fuel) fuel t key
  .ok (t.setEnt hkey ((t.hash hkey).log e))

/-- A run of logged events. -/
def logRun (b : Build) (fuel : Nat) (t : HashState) (events : List MpiEvent) :
    Except Stop HashState :=
  Runs.run (wrapperLog b fuel) t events

/-- An event of a call, a size and a duration, in region 0 with partner 0. -/
def sizeEvent (call : Nat) (bytes : Int) (wall : Rat := 0) : MpiEvent where
  region := 0
  call := call
  rank := 0
  bytes := bytes
  wall := wall

end Ipm
