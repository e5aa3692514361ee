import Ipm.Lib.Slices

/-!
# Writing the record of a task

`ipm_log_write` prints the record of a task, piece by piece, to a file or into a
buffer.  With a buffer of size zero it only counts.  The record opens the log if its
task is the first one, and closes it if its task is the last.

* `measure_eq`: the size `ipm_log_write` counts is the length of the record.
* `fill_eq`: a buffer one byte longer than that takes the record and the final NUL, and
  nothing is written behind it.
* `flatten_record`: the records in the order of the ranks are the log.
-/

namespace Ipm

open Stdio

/-- What `ipm_log` reads of `job`; `rest` is the data that is only printed. -/
structure LogJob (J : Type) where
  ntasks : Int
  logDir : Text
  logFname : Text
  username : Text
  cookie : Text
  rest : J

/-- What `ipm_log` reads of `task`: two of its flags, and its place in MPI_COMM_WORLD. -/
structure LogTask (T : Type) where
  mpiRank : Nat
  mpiSize : Nat
  wroteLog : Bool
  parallelIoLog : Bool
  rest : T

/-- The pieces `ipm_log_write` prints of a task: the line that opens its element, and
the lines between that and the line that closes it. -/
structure RecordText (J T : Type) where
  taskLine : LogJob J → LogTask T → Text
  inner : LogJob J → LogTask T → Text → List Text

def logHeader : Text :=
  "<?xml version=\"1.0\" encoding=\"iso-8859-1\"?>\n<ipm_job_profile>\n".toList
def logTrailer : Text := "</ipm_job_profile>\n".toList

section

variable {J T : Type} (text : RecordText J T)

/-- The element of a task. -/
def taskPieces (j : LogJob J) (t : LogTask T) (literal : Text) : List Text :=
  ("<task ipm_version=\"".toList ++ text.taskLine j t) ::
    (text.inner j t literal ++ ["</task>\n\n".toList])

/-- The outputs of the `ipmprintf` calls of `ipm_log_write`, in order. -/
def ipmLogWrite (j : LogJob J) (t : LogTask T) (literal : Text) : List Text :=
  (if t.mpiRank = 0 then [logHeader] else []) ++ taskPieces text j t literal ++
    (if t.mpiRank + 1 = t.mpiSize then [logTrailer] else [])

end

/-- The buffer and the file-scope counter `bsize`. -/
structure LogBuf where
  buffer : Text
  bsize : Nat

/-- `ipmprintf` into a buffer: `vsnprintf` cuts each output to `buffIn` bytes with its
NUL, and counts its full length. -/
def ipmprintf (buffIn : Nat) (s : LogBuf) (out : Text) : LogBuf where
  buffer :=
    if buffIn = 0 then s.buffer
    else overwrite s.buffer s.bsize (out.take (buffIn - 1) ++ [Char.ofNat 0])
  bsize := s.bsize + out.length

/-- `ipm_log_write` into a buffer of which it is told `buffIn` bytes. -/
def fill (buffIn : Nat) (buffer : Text) (pieces : List Text) : LogBuf :=
  pieces.foldl (ipmprintf buffIn) ⟨buffer, 0⟩

/-- `ipm_log_write` with no buffer returns the size of the record. -/
def measure (pieces : List Text) : Nat := (fill 0 [] pieces).bsize

theorem bsize_foldl (buffIn : Nat) (s : LogBuf) (pieces : List Text) :
    (pieces.foldl (ipmprintf buffIn) s).bsize = s.bsize + pieces.flatten.length := by
  induction pieces generalizing s with
  | nil => rfl
  | cons out pieces ih =>
      rw [List.foldl_cons, ih, List.flatten_cons, List.length_append, ← Nat.add_assoc]
      rfl

/-- The measured size is the length of the record. -/
theorem measure_eq (pieces : List Text) : measure pieces = pieces.flatten.length := by
  rw [measure, fill, bsize_foldl, Nat.zero_add]

/-- Every output finds room behind those before it. -/
theorem foldl_ipmprintf {buffIn : Nat} {pieces : List Text} (before rest : Text)
    (short : ∀ out ∈ pieces, out.length < buffIn) (room : pieces.flatten.length + 1 = rest.length) :
    (pieces.foldl (ipmprintf buffIn) ⟨before ++ rest, before.length⟩).buffer.take
        (before ++ pieces.flatten).length = before ++ pieces.flatten ∧
      (pieces.foldl (ipmprintf buffIn) ⟨before ++ rest, before.length⟩).buffer.length =
        before.length + rest.length := by
  induction pieces generalizing before rest with
  | nil => simp
  | cons out pieces ih =>
      have fits := short out List.mem_cons_self
      have uncut : out.take (buffIn - 1) = out := List.take_of_length_le (by omega)
      rw [List.flatten_cons, List.length_append] at room
      have step : ipmprintf buffIn ⟨before ++ rest, before.length⟩ out =
          ⟨(before ++ out) ++ (Char.ofNat 0 :: rest.drop (out.length + 1)),
            (before ++ out).length⟩ := by
        rw [ipmprintf, if_neg (by omega), uncut, overwrite_append, List.length_append,
          List.length_append]
        simp
      have next := ih (before ++ out) (Char.ofNat 0 :: rest.drop (out.length + 1))
        (fun x mem => short x (List.mem_cons_of_mem out mem))
        (by rw [List.length_cons, List.length_drop]; omega)
      rw [List.foldl_cons, step, List.flatten_cons, ← List.append_assoc]
      refine ⟨next.1, next.2.trans ?_⟩
      rw [List.length_cons, List.length_drop, List.length_append]
      omega

/-- The record fills a buffer that is one byte longer, whatever was in it. -/
theorem fill_eq {buffer : Text} {pieces : List Text}
    (short : ∀ out ∈ pieces, out.length < measure pieces)
    (room : buffer.length = measure pieces + 1) :
    (fill (measure pieces) buffer pieces).buffer.take (measure pieces) = pieces.flatten ∧
      (fill (measure pieces) buffer pieces).buffer.length = buffer.length := by
  rw [measure_eq] at short room ⊢
  obtain ⟨holds, length⟩ := foldl_ipmprintf [] buffer short room.symm
  rw [List.nil_append, List.nil_append] at holds
  rw [List.length_nil, Nat.zero_add, List.nil_append] at length
  exact ⟨holds, length⟩

theorem length_le_flatten {pieces : List Text} {out : Text} (mem : out ∈ pieces) :
    out.length ≤ pieces.flatten.length :=
  (List.sublist_flatten_of_mem mem).length_le

/-- Where two pieces are not empty, no piece is as long as the whole. -/
theorem length_lt_of_two {a b c : List Text} {x y : Text} (xSome : x ≠ []) (ySome : y ≠ []) :
    ∀ out ∈ a ++ x :: (b ++ y :: c), out.length < (a ++ x :: (b ++ y :: c)).flatten.length := by
  intro out mem
  have posX := List.length_pos_iff.mpr xSome
  have posY := List.length_pos_iff.mpr ySome
  simp only [List.flatten_append, List.flatten_cons, List.length_append]
  simp only [List.mem_append, List.mem_cons] at mem
  rcases mem with inA | rfl | inB | rfl | inC
  · have := length_le_flatten inA
    omega
  · omega
  · have := length_le_flatten inB
    omega
  · omega
  · have := length_le_flatten inC
    omega

variable {J T : Type} (text : RecordText J T)

/-- A record is printed in several pieces. -/
theorem ipmLogWrite_pieces (j : LogJob J) (t : LogTask T) (literal : Text) :
    ∀ out ∈ ipmLogWrite text j t literal, out.length < measure (ipmLogWrite text j t literal) := by
  have opened : "<task ipm_version=\"".toList ++ text.taskLine j t ≠ [] := by simp
  have closed : "</task>\n\n".toList ≠ [] := by simp
  rw [measure_eq]
  simp only [ipmLogWrite, taskPieces, List.append_assoc, List.cons_append, List.nil_append]
  exact length_lt_of_two opened closed

/-! ## The log -/

/-- The records of all tasks between the header and the trailer. -/
def logFile {n : Nat} (job : Fin n → LogJob J) (task : Fin n → LogTask T) : Text :=
  logHeader ++ (List.ofFn fun p => (taskPieces text (job p) (task p) []).flatten).flatten ++
    logTrailer

/-- What each task writes. -/
def record {n : Nat} (job : Fin n → LogJob J) (task : Fin n → LogTask T) (p : Fin n) : Text :=
  (ipmLogWrite text (job p) (task p) []).flatten

/-- A first part that only the first one has. -/
theorem flatten_ofFn_first {n : Nat} (head : Text) (g : Fin (n + 1) → Text) :
    (List.ofFn fun p => (if p.val = 0 then head else []) ++ g p).flatten =
      head ++ (List.ofFn g).flatten := by
  rw [List.ofFn_succ, List.ofFn_succ, List.flatten_cons, List.flatten_cons, List.append_assoc]
  rfl

/-- A last part that only the last one has. -/
theorem flatten_ofFn_last {n : Nat} (tail : Text) (g : Fin (n + 1) → Text) :
    (List.ofFn fun p => g p ++ (if p.val + 1 = n + 1 then tail else [])).flatten =
      (List.ofFn g).flatten ++ tail := by
  rw [List.ofFn_succ', List.ofFn_succ']
  have inner : ∀ p : Fin n, g p.castSucc ++
      (if (p.castSucc : Nat) + 1 = n + 1 then tail else []) = g p.castSucc := by
    intro p
    rw [if_neg, List.append_nil]
    rw [Fin.val_castSucc]
    omega
  simp only [inner, Fin.val_last, if_true, List.concat_eq_append, List.flatten_append,
    List.flatten_singleton, List.append_assoc]

/-- The records of the tasks, in the order of their ranks, are the log: one header,
the element of every task, one trailer. -/
theorem flatten_record {n : Nat} {job : Fin (n + 1) → LogJob J} {task : Fin (n + 1) → LogTask T}
    (rank : ∀ p, (task p).mpiRank = p) (size : ∀ p, (task p).mpiSize = n + 1) :
    (List.ofFn (record text job task)).flatten = logFile text job task := by
  have each : record text job task = fun p => (if p.val = 0 then logHeader else []) ++
      ((taskPieces text (job p) (task p) []).flatten ++
        if p.val + 1 = n + 1 then logTrailer else []) := by
    funext p
    rw [record, ipmLogWrite, rank, size]
    split <;> split <;> simp
  rw [each, flatten_ofFn_first, flatten_ofFn_last, logFile, List.append_assoc]

end Ipm
