import Ipm.Env.Variables

/-!
# The scan of the environment

`ipm_get_env` (`src/ipm_env.c`): the name of the share file is put together and the file mapped,
then a loop goes over `environ`.  A name that begins with IPM_ and has more than MAXSIZE_ENVKEY
characters is left by a `continue` that passes over `cp ++`.

* `ipmGetEnvScan_eq_ok`: what comes before the loop.
* `scanEnviron_of_long`: at such a name the loop stays for ever.
* `scanEnviron_run`: a scan that ends has read each variable once, in order.
* `scansAll_iff`: the scan goes through the whole environment exactly when there is no such name
  and the values fit their arrays.
-/

namespace Ipm

open Scan

/-- `MAXSIZE_ENVKEY`. -/
def maxsizeEnvkey : Nat := 80

/-- A string of `environ`. -/
structure EnvEntry where
  name : Label
  value : Label
  noEqs : '=' ∉ name

/-- NAME=VALUE. -/
def EnvEntry.text (e : EnvEntry) : Label := e.name ++ '=' :: e.value

/-- `klen`: the characters before the first `=`. -/
def keyLength (text : Label) : Nat := (text.takeWhile (· ≠ '=')).length

/-- How the scan ends without coming to the end of `environ`. -/
inductive ScanStop
  | outOfFuel
  | stopped (stop : EnvStop)
  | mmapFileTooLong
  | outsideShareMap
deriving DecidableEq

/-- The loop, with what is left of `environ` and the strings it has passed. -/
def scanEnviron (env : EnvSetup) :
    Nat → List EnvEntry → List EnvEntry → EnvState → Except ScanStop (List EnvEntry × EnvState)
  | 0, _, _, _ => .error .outOfFuel
  | _ + 1, [], passed, s => .ok (passed, s)
  | fuel + 1, e :: cp, passed, s =>
      if isClause "IPM_" e.text then
        -- the `continue` does not advance `cp`
        if maxsizeEnvkey < keyLength e.text then scanEnviron env fuel (e :: cp) passed s
        else
          let key := e.text.take (keyLength e.text)
          let val := e.text.drop (keyLength e.text + 1)
          match envVariable env s key val with
          | .ok s => scanEnviron env fuel cp (passed ++ [e]) s
          | .error stop => .error (.stopped stop)
      else scanEnviron env fuel cp (passed ++ [e]) s

/-- The state before the loop: `getenv("IPM_DEBUG")` is looked up first. -/
def EnvState.start (env : EnvSetup) (environ : List EnvEntry) : EnvState :=
  let s := EnvState.init env
  if environ.any fun e => e.name == "IPM_DEBUG".toList then
    { s with flags := setFlag s.flags .debug }
  else s

def getenv (environ : List EnvEntry) (name : String) : Option Label :=
  (environ.find? fun e => e.name == name.toList).map EnvEntry.value

/-- `%s` of the result of `getenv`. -/
def shownVariable (environ : List EnvEntry) (name : String) : Label :=
  (getenv environ name).getD "(null)".toList

/-- `sprintf(IPM_MMAP_FILE, "%s/%s.%s", ...)`. -/
def ipmMmapFile (environ : List EnvEntry) : Label :=
  shownVariable environ "PBS_JOBFS" ++ '/' :: (shownVariable environ "IPM_MMAP_FILE" ++
    '.' :: shownVariable environ "OMPI_MCA_orte_ess_jobid")

/-- The size of IPM_MMAP_FILE. -/
def maxsizeMmapFile : Nat := 1024

/-- `sizeof(struct ipm_stats)`. -/
def sizeofStats : Nat := 16

/-- MPI_LOCAL_RANK or MPI_LOCAL_SIZE. -/
def localNumber (environ : List EnvEntry) (name : String) : Int :=
  ((getenv environ name).map atoi).getD 0

/-- What is mapped of the share file. -/
def shareMap (env : EnvSetup) (environ : List EnvEntry) : Option Nat :=
  env.mmap (ipmMmapFile environ)
    (toU64 (localNumber environ "OMPI_COMM_WORLD_LOCAL_SIZE" * sizeofStats))

/-- `share_map[MPI_LOCAL_RANK]` is inside what is mapped, if the file is. -/
def InShareMap (env : EnvSetup) (environ : List EnvEntry) : Prop :=
  ∀ bytes ∈ shareMap env environ,
    0 ≤ localNumber environ "OMPI_COMM_WORLD_LOCAL_RANK" ∧
      (localNumber environ "OMPI_COMM_WORLD_LOCAL_RANK" + 1) * sizeofStats ≤ bytes

instance (env : EnvSetup) (environ : List EnvEntry) : Decidable (InShareMap env environ) :=
  inferInstanceAs (Decidable (∀ bytes ∈ shareMap env environ, _))

/-- `ipm_get_env`, as `ipm_init` calls it. -/
def ipmGetEnvScan (env : EnvSetup) (fuel : Nat) (environ : List EnvEntry) :
    Except ScanStop (List EnvEntry × EnvState) :=
  if maxsizeMmapFile ≤ (ipmMmapFile environ).length then .error .mmapFileTooLong
  else if InShareMap env environ then scanEnviron env fuel environ [] (.start env environ)
  else .error .outsideShareMap

/-! ## One string -/

section

variable {env : EnvSetup} {e : EnvEntry} {s s' : EnvState} {cp passed environ : List EnvEntry}

/-- The name begins with IPM_. -/
def EnvEntry.isIpm (e : EnvEntry) : Bool := isClause "IPM_" e.name

theorem EnvEntry.keyLength_text (e : EnvEntry) : keyLength e.text = e.name.length := by
  have name : ∀ c ∈ e.name, decide (c ≠ '=') = true := by
    rintro c mem
    rw [decide_eq_true_iff]
    rintro rfl
    exact e.noEqs mem
  rw [keyLength, text, List.takeWhile_append_of_pos name]
  simp

/-- A string begins with IPM_ exactly when its name does. -/
theorem EnvEntry.isClause_text (e : EnvEntry) : isClause "IPM_" e.text = e.isIpm := by
  have letters : "IPM_".toList = ['I', 'P', 'M', '_'] := rfl
  unfold isIpm isClause text
  rw [letters]
  rcases e.name with _ | ⟨a, _ | ⟨b, _ | ⟨c, _ | ⟨d, rest⟩⟩⟩⟩ <;> simp [List.isPrefixOf]

/-- What the loop is to do with a string. -/
def readEntry (env : EnvSetup) (s : EnvState) (e : EnvEntry) : Except EnvStop EnvState :=
  if e.isIpm then envVariable env s e.name e.value else .ok s

/-- The loop at a string whose name fits. -/
theorem scanEnviron_cons (short : e.isIpm → e.name.length ≤ maxsizeEnvkey) (fuel : Nat)
    (cp passed : List EnvEntry) :
    scanEnviron env (fuel + 1) (e :: cp) passed s =
      match readEntry env s e with
      | .ok s => scanEnviron env fuel cp (passed ++ [e]) s
      | .error stop => .error (.stopped stop) := by
  have key : e.text.take e.name.length = e.name := List.take_left
  have val : e.text.drop (e.name.length + 1) = e.value := by
    rw [EnvEntry.text, List.drop_append, List.drop_of_length_le (by omega)]
    simp
  rw [scanEnviron, e.keyLength_text, e.isClause_text, key, val, readEntry]
  cases ipm : e.isIpm with
  | true => simp only [if_true, if_neg (Nat.not_lt.mpr (short ipm))]
  | false => simp only [Bool.false_eq_true, if_false]

/-- At a long name the loop stays. -/
theorem scanEnviron_of_long (ipm : e.isIpm) (long : maxsizeEnvkey < e.name.length) (fuel : Nat)
    (cp passed : List EnvEntry) :
    scanEnviron env fuel (e :: cp) passed s = .error .outOfFuel := by
  induction fuel with
  | zero => rfl
  | succ fuel ih => rw [scanEnviron, e.keyLength_text, e.isClause_text, if_pos ipm, if_pos long, ih]

/-! ## The whole environment -/

/-- No name that begins with IPM_ is longer than MAXSIZE_ENVKEY. -/
def NamesShort (environ : List EnvEntry) : Prop :=
  ∀ e ∈ environ, e.isIpm → e.name.length ≤ maxsizeEnvkey

/-- What the variables write fits the arrays. -/
structure EnvironFits (env : EnvSetup) (environ : List EnvEntry) : Prop where
  mmapFile : (ipmMmapFile environ).length < maxsizeMmapFile
  shareMap : InShareMap env environ
  values : ∀ e ∈ environ, VariableFits e.name e.value
  regions : (environ.map fun e => (varRegions e.name e.value).length).sum ≤ maxsizeRegion

/-- The scan ends, has passed each string of the environment once, in order, and leaves what
reading one after the other leaves. -/
def ScansAll (env : EnvSetup) (environ : List EnvEntry) : Prop :=
  ∃ fuel s, ipmGetEnvScan env fuel environ = .ok (environ, s) ∧
    Runs.run (readEntry env) (.start env environ) environ = .ok s

/-- A scan that ends has read each string once, in order, and has met no long name. -/
theorem scanEnviron_run {fuel : Nat} {l : List EnvEntry}
    (ok : scanEnviron env fuel cp passed s = .ok (l, s')) :
    l = passed ++ cp ∧ Runs.run (readEntry env) s cp = .ok s' ∧ NamesShort cp := by
  induction fuel generalizing cp passed s with
  | zero => cases ok
  | succ fuel ih =>
      cases cp with
      | nil =>
          cases ok
          refine ⟨(List.append_nil _).symm, rfl, fun e mem => ?_⟩
          cases mem
      | cons e cp =>
          have short : e.isIpm → e.name.length ≤ maxsizeEnvkey := by
            intro ipm
            by_contra long
            rw [scanEnviron_of_long ipm (Nat.not_le.mp long)] at ok
            cases ok
          rw [scanEnviron_cons short] at ok
          split at ok
          · rename_i read
            obtain ⟨all, ran, shorts⟩ := ih ok
            refine ⟨by rw [all, List.append_assoc, List.singleton_append], ?_, ?_⟩
            · rw [Runs.run_cons_ok read]
              exact ran
            · exact List.forall_mem_cons.mpr ⟨short, shorts⟩
          · cases ok

/-- The loop is come to when the name of the share file fits, and the task has its place in the
mapping. -/
theorem ipmGetEnvScan_eq (fits : (ipmMmapFile environ).length < maxsizeMmapFile)
    (inside : InShareMap env environ) (fuel : Nat) :
    ipmGetEnvScan env fuel environ = scanEnviron env fuel environ [] (.start env environ) := by
  rw [ipmGetEnvScan, if_neg (Nat.not_le.mpr fits), if_pos inside]

theorem ipmGetEnvScan_eq_ok {fuel : Nat} {l : List EnvEntry}
    (ok : ipmGetEnvScan env fuel environ = .ok (l, s')) :
    (ipmMmapFile environ).length < maxsizeMmapFile ∧ InShareMap env environ ∧
      scanEnviron env fuel environ [] (.start env environ) = .ok (l, s') := by
  unfold ipmGetEnvScan at ok
  split at ok
  · cases ok
  · rename_i fits
    split at ok
    · rename_i inside
      exact ⟨Nat.not_le.mp fits, inside, ok⟩
    · cases ok

/-- With short names the scan reads the whole environment. -/
theorem scanEnviron_of_run (short : NamesShort cp)
    (ran : Runs.run (readEntry env) s cp = .ok s') (passed : List EnvEntry) :
    scanEnviron env (cp.length + 1) cp passed s = .ok (passed ++ cp, s') := by
  induction cp generalizing passed s with
  | nil =>
      cases ran
      rw [List.append_nil]
      rfl
  | cons e cp ih =>
      obtain ⟨shortE, shorts⟩ := List.forall_mem_cons.mp short
      obtain ⟨u, read, rest⟩ := Runs.run_cons_eq_ok ran
      rw [List.length_cons, scanEnviron_cons shortE, read]
      dsimp only
      rw [ih shorts rest, List.append_assoc, List.singleton_append]

theorem readEntry_nregion (ok : readEntry env s e = .ok s') :
    s'.trc.nregion = s.trc.nregion + (varRegions e.name e.value).length := by
  unfold readEntry at ok
  split at ok
  · exact envVariable_nregion ok
  · rename_i other
    cases ok
    have notTrace : e.name ≠ "IPM_MPI_TRACE".toList := by
      intro named
      rw [EnvEntry.isIpm, named] at other
      exact other rfl
    rw [varRegions, if_neg notTrace]
    rfl

theorem readEntry_isOk (inside : s.trc.nregion ≤ maxsizeRegion) :
    (∃ s', readEntry env s e = .ok s') ↔ VariableFits e.name e.value ∧
      s.trc.nregion + (varRegions e.name e.value).length ≤ maxsizeRegion := by
  unfold readEntry
  cases ipm : e.isIpm with
  | true => exact envVariable_isOk_iff inside
  | false =>
      have notTrace : e.name ≠ "IPM_MPI_TRACE".toList := by
        intro named
        rw [EnvEntry.isIpm, named] at ipm
        cases ipm
      have notCodename : e.name ≠ "IPM_CODENAME".toList := by
        intro named
        rw [EnvEntry.isIpm, named] at ipm
        cases ipm
      have none : varRegions e.name e.value = [] := if_neg notTrace
      rw [VariableFits, none]
      refine iff_of_true ⟨s, rfl⟩ ⟨⟨fun named => absurd named notCodename, ?_⟩, inside⟩
      exact List.forall_mem_nil _

theorem EnvState.start_trc (env : EnvSetup) (environ : List EnvEntry) :
    (start env environ).trc = .init env.toTrcEnv := by
  unfold start
  dsimp only
  split <;> rfl

/-- The scan goes through the whole environment exactly when no name that begins with IPM_ is
too long, and the values fit their arrays. -/
theorem scansAll_iff (env : EnvSetup) (environ : List EnvEntry) :
    ScansAll env environ ↔ NamesShort environ ∧ EnvironFits env environ := by
  have none : (EnvState.start env environ).trc.nregion = 0 := by
    rw [EnvState.start_trc]
    rfl
  have room : (EnvState.start env environ).trc.nregion ≤ maxsizeRegion := by
    rw [none]
    exact Nat.zero_le _
  have fits : (∃ s, Runs.run (readEntry env) (.start env environ) environ = .ok s) ↔
      (∀ e ∈ environ, VariableFits e.name e.value) ∧
        (environ.map fun e => (varRegions e.name e.value).length).sum ≤ maxsizeRegion := by
    rw [Runs.run_isOk_iff_budget (readEntry env) (fun _ _ _ => readEntry_nregion)
      (fun _ _ => readEntry_isOk) room, none, Nat.zero_add]
  constructor
  · intro given
    rcases given with ⟨fuel, s, scanned, ran⟩
    obtain ⟨mmapFile, shareMap, scan⟩ := ipmGetEnvScan_eq_ok scanned
    obtain ⟨values, regions⟩ := fits.mp ⟨s, ran⟩
    exact ⟨(scanEnviron_run scan).2.2, mmapFile, shareMap, values, regions⟩
  · intro given
    rcases given with ⟨short, inside⟩
    obtain ⟨s, ran⟩ := fits.mpr ⟨inside.values, inside.regions⟩
    refine ⟨environ.length + 1, s, ?_, ran⟩
    rw [ipmGetEnvScan_eq inside.mmapFile inside.shareMap]
    exact scanEnviron_of_run short ran []

end

/-- The build with five slots, one event set and no name of the code. -/
def fiveSetup : EnvSetup where
  toTrcEnv := fiveEnv
  nEventsets := 1
  power4 := false
  ipmLogDir := "/tmp/ipm".toList
  codename := []
  mmap := fun _ _ => none

/-- A name of 81 characters. -/
def longEntry : EnvEntry where
  name := "IPM_".toList ++ List.replicate 77 'A'
  value := "1".toList
  noEqs := by decide

/-- The scan does not come to the variable behind it. -/
theorem scansAll_long :
    ¬ ScansAll fiveSetup [longEntry, ⟨"IPM_REPORT".toList, "none".toList, by decide⟩] := by
  intro given
  rcases given with ⟨fuel, s, scanned, -⟩
  obtain ⟨-, -, scan⟩ := ipmGetEnvScan_eq_ok scanned
  rw [scanEnviron_of_long (by decide) (by decide)] at scan
  cases scan

end Ipm
