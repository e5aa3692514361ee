import Mathlib.Tactic.NormNum.Prime

/-!
# Static sizes

The compile-time sizes of `include/ipm_sizes.h` that the models read.  The label,
host name and region sizes are the same in every build; the hash table sizes and
the number of wrapped calls vary, and `Build` bundles one admissible choice.
-/

namespace Ipm

/-- `MAXSIZE_LABEL`. -/
def maxsizeLabel : Nat := 21

/-- `MAXSIZE_REGION`. -/
def maxsizeRegion : Nat := 255

/-- `MAXSIZE_TXTLINE`. -/
def maxsizeTxtline : Nat := 80

/-- `MAXSIZE_FILENAME`. -/
def maxsizeFilename : Nat := 4096

/-- `MAXSIZE_PCMD`. -/
def maxsizePcmd : Nat := 80

/-- `MAXSIZE_CMDLINE`. -/
def maxsizeCmdline : Nat := 4096

/-- The sizes of one build: `MAXSIZE_HASH` ("_must_ be a prime number"),
`MAXSIZE_HASHLIMIT` and `MAXSIZE_CALLS`, which `make_wrappers` sets to the number
of wrapped calls; a key has eight bits for the call. -/
structure Build where
  maxsizeHash : Nat
  maxsizeHashlimit : Nat
  maxsizeCalls : Nat
  prime : maxsizeHash.Prime
  limit_lt : maxsizeHashlimit < maxsizeHash
  calls_le : maxsizeCalls ≤ 255

theorem Build.maxsizeHash_pos (b : Build) : 0 < b.maxsizeHash := b.prime.pos

/-- `IPM_ENABLE_HASHXTINY`, with the fifty calls of `ipm_key`. -/
def Build.xtiny : Build where
  maxsizeHash := 317
  maxsizeHashlimit := 280
  maxsizeCalls := 50
  prime := by norm_num
  limit_lt := by decide
  calls_le := by decide

/-- `IPM_ENABLE_HASHTINY`. -/
def Build.tiny : Build where
  maxsizeHash := 3257
  maxsizeHashlimit := 2800
  maxsizeCalls := 50
  prime := by norm_num
  limit_lt := by decide
  calls_le := by decide

/-- `IPM_ENABLE_HASHBIG`. -/
def Build.big : Build where
  maxsizeHash := 9101977
  maxsizeHashlimit := 2800000
  maxsizeCalls := 50
  prime := by norm_num
  limit_lt := by decide
  calls_le := by decide

/-- The default build. -/
def Build.default : Build where
  maxsizeHash := 32573
  maxsizeHashlimit := 28000
  maxsizeCalls := 50
  prime := by norm_num
  limit_lt := by decide
  calls_le := by decide

/-- Five slots and two calls, for runs that are followed by hand. -/
def Build.five : Build where
  maxsizeHash := 5
  maxsizeHashlimit := 2
  maxsizeCalls := 2
  prime := by norm_num
  limit_lt := by decide
  calls_le := by decide

end Ipm
