import Mathlib.Data.List.Count
import Mathlib.Data.List.DropRight
import Mathlib.Data.List.Infix

/-!
# Patterns with greedy captures

Regular expressions of literals with `(.*)` between them, as a backtracking engine runs
them: a match starts as far left as it can, and each capture takes as much of the line as
the rest of the pattern leaves it.  `split` cuts a text at a separator.

* `captures_printed`: a text printed with a format is taken apart into its fields.
* `leftmost_eq_none`: a pattern that is nowhere in a text does not match.
* `split_fields`: a text joined with a separator behind each field is split into them.
-/

namespace Patterns

universe u v

variable {A : Type u} {R : Type v}

/-! ## Matching -/

/-- What matches at the start of a text, with what it captures. -/
abbrev Matcher (A : Type u) (R : Type v) := List A → Option R

/-- The leftmost match. -/
def leftmost (k : Matcher A R) : Matcher A R
  | [] => k []
  | c :: t => (k (c :: t)).or (leftmost k t)

/-- Nothing matches in a text or behind its start. -/
def Fails (k : Matcher A R) (t : List A) : Prop := ∀ s, s <:+ t → k s = none

section Search

variable {k : Matcher A R} {t : List A}

theorem Fails.tail {c : A} (fails : Fails k (c :: t)) : Fails k t :=
  fun s suffix => fails s (suffix.trans (List.suffix_cons c t))

theorem fails_cons {c : A} (here : k (c :: t) = none) (behind : Fails k t) : Fails k (c :: t) := by
  intro s suffix
  rcases List.suffix_cons_iff.mp suffix with rfl | later
  · exact here
  · exact behind s later

/-- A pattern that is nowhere in a text does not match. -/
theorem leftmost_eq_none (fails : Fails k t) : leftmost k t = none := by
  induction t with
  | nil => exact fails [] List.suffix_rfl
  | cons c t ih =>
      rw [leftmost, fails _ List.suffix_rfl, ih fails.tail]
      rfl

/-- A match at the start is the leftmost one. -/
theorem leftmost_eq_some {r : R} (here : k t = some r) : leftmost k t = some r := by
  cases t with
  | nil => exact here
  | cons c t =>
      rw [leftmost, here]
      rfl

end Search

/-- Two texts differ before the end of both. -/
def Clash (s t : List A) : Prop := ¬ s <+: t ∧ ¬ t <+: s

theorem Clash.not_prefix {s t : List A} (clash : Clash s t) (u : List A) : ¬ s <+: t ++ u := by
  intro starts
  rcases List.prefix_or_prefix_of_prefix starts (List.prefix_append t u) with before | before
  · exact clash.1 before
  · exact clash.2 before

theorem Clash.append {s t : List A} (clash : Clash s t) (u : List A) : Clash (s ++ u) t := by
  refine ⟨fun starts => clash.1 ((List.prefix_append s u).trans starts), fun starts => ?_⟩
  rcases List.prefix_or_prefix_of_prefix starts (List.prefix_append s u) with before | before
  · exact clash.2 before
  · exact clash.1 before

/-- Each field that is joined adds a separator. -/
theorem length_le_joined {sep : List A} (some_ : sep ≠ []) (fs : List (List A)) (last : List A) :
    fs.length ≤ ((fs.flatMap fun f => f ++ sep) ++ last).length := by
  induction fs with
  | nil => exact Nat.zero_le _
  | cons f fs ih =>
      have more := List.length_pos_iff.mpr some_
      rw [List.flatMap_cons, List.append_assoc, List.length_append, List.length_append,
        List.length_cons]
      omega

variable [DecidableEq A]

instance (s t : List A) : Decidable (Clash s t) := inferInstanceAs (Decidable (_ ∧ _))

/-- A literal, and what is to match behind it. -/
def literal (lit : List A) (k : Matcher A R) : Matcher A R := fun t =>
  if lit <+: t then k (t.drop lit.length) else none

/-- `(.*)` before what is to match behind it; `nl` ends a line. -/
def greedy (nl : A) (k : Matcher A R) : Matcher A (List A × R)
  | [] => (k []).map (Prod.mk [])
  | c :: t =>
      if c = nl then (k (c :: t)).map (Prod.mk [])
      else
        match greedy nl k t with
        | some (cap, r) => some (c :: cap, r)
        | none => (k (c :: t)).map (Prod.mk [])

/-- The captures of `(.*)` before each of these literals. -/
def captures (nl : A) : List (List A) → Matcher A (List (List A))
  | [] => fun _ => some []
  | lit :: lits => fun t =>
      (greedy nl (literal lit (captures nl lits)) t).map fun x => x.1 :: x.2

section Rules

variable {k : Matcher A R} {nl : A} {t : List A}

theorem literal_append (lit : List A) (k : Matcher A R) (t : List A) :
    literal lit k (lit ++ t) = k t := by
  rw [literal, if_pos (List.prefix_append lit t), List.drop_left]

theorem literal_eq_some {lit : List A} {r : R} (matched : literal lit k t = some r) :
    ∃ s, t = lit ++ s ∧ k s = some r := by
  unfold literal at matched
  split at matched
  · rename_i starts
    rcases starts with ⟨s, rfl⟩
    rw [List.drop_left] at matched
    exact ⟨s, rfl, matched⟩
  · cases matched

theorem greedy_eq_none (fails : Fails k t) : greedy nl k t = none := by
  induction t with
  | nil =>
      rw [greedy, fails [] List.suffix_rfl]
      rfl
  | cons c t ih =>
      rw [greedy, fails _ List.suffix_rfl, ih fails.tail]
      exact ite_self _

/-- What is captured stands before what matches behind it. -/
theorem greedy_eq_some {cap : List A} {r : R} (matched : greedy nl k t = some (cap, r)) :
    ∃ s, t = cap ++ s ∧ k s = some r := by
  have empty : ∀ {t cap : List A}, (k t).map (Prod.mk []) = some (cap, r) →
      ∃ s, t = cap ++ s ∧ k s = some r := by
    intro t cap here
    rcases Option.map_eq_some_iff.mp here with ⟨r', found, same⟩
    cases same
    exact ⟨t, rfl, found⟩
  induction t generalizing cap with
  | nil => exact empty matched
  | cons c t ih =>
      rw [greedy] at matched
      split at matched
      · exact empty matched
      · split at matched
        · rename_i cap' r' found
          cases matched
          rcases ih found with ⟨s, rfl, behind⟩
          exact ⟨s, rfl, behind⟩
        · exact empty matched

/-- A capture takes the line up to the last place where the rest matches. -/
theorem greedy_append {cap : List A} {c : A} {r : R} (line : nl ∉ cap)
    (here : k (c :: t) = some r) (last : Fails k t) :
    greedy nl k (cap ++ c :: t) = some (cap, r) := by
  induction cap with
  | nil =>
      rw [List.nil_append, greedy, here, greedy_eq_none last]
      exact ite_self _
  | cons a cap ih =>
      rw [List.mem_cons, not_or] at line
      rw [List.cons_append, greedy, if_neg (Ne.symm line.1), ih line.2]

end Rules

/-! ## Literals that are nowhere -/

section Nowhere

variable {k : Matcher A R}

/-- A literal does not match where its first character does not stand. -/
theorem fails_append {a : A} {lit x y : List A} (none_ : a ∉ x)
    (behind : Fails (literal (a :: lit) k) y) : Fails (literal (a :: lit) k) (x ++ y) := by
  induction x with
  | nil => exact behind
  | cons c x ih =>
      rw [List.mem_cons, not_or] at none_
      refine fails_cons ?_ (ih none_.2)
      rw [literal, if_neg]
      intro starts
      exact none_.1 (List.cons_prefix_cons.mp starts).1

theorem fails_of_not_mem {a : A} {lit t : List A} (none_ : a ∉ t) :
    Fails (literal (a :: lit) k) t := by
  rw [← List.append_nil t]
  apply fails_append none_
  intro s suffix
  rw [List.suffix_nil.mp suffix]
  exact if_neg (List.cons_ne_nil a lit ∘ List.prefix_nil.mp)

/-- A literal is found only at the start when its first character stands nowhere else. -/
theorem leftmost_literal {a : A} {lit t : List A} (none_ : a ∉ lit ++ t) :
    leftmost (literal (a :: lit) k) ((a :: lit) ++ t) = k t := by
  rw [List.cons_append, leftmost, leftmost_eq_none (fails_of_not_mem none_), Option.or_none]
  exact literal_append (a :: lit) k t

/-- Elements of a text, each with a name behind the character that opens it. -/
def elements (a : A) (els : List (List A × List A)) : List A :=
  els.flatMap fun e => a :: (e.1 ++ e.2)

/-- A literal does not match in elements with other names. -/
theorem fails_elements {a : A} {lit : List A} {els : List (List A × List A)}
    (other : ∀ e ∈ els, a ∉ e.1 ++ e.2 ∧ Clash lit e.1) :
    Fails (literal (a :: lit) k) (elements a els) := by
  induction els with
  | nil => exact fails_of_not_mem List.not_mem_nil
  | cons e els ih =>
      rw [List.forall_mem_cons] at other
      rcases other with ⟨⟨none_, clash⟩, others⟩
      change Fails _ (a :: (e.1 ++ e.2) ++ elements a els)
      rw [List.cons_append]
      refine fails_cons ?_ (fails_append none_ (ih others))
      rw [literal, if_neg]
      intro starts
      have starts := (List.cons_prefix_cons.mp starts).2
      rw [List.append_assoc] at starts
      exact clash.not_prefix _ starts

end Nowhere

/-! ## Fields of a format -/

section Fields

variable {nl : A}

/-- The fields of a format, each with the literal behind it. -/
def printed : List (List A × List A) → List A → List A
  | [], rest => rest
  | f :: fs, rest => f.1 ++ (f.2 ++ printed fs rest)

/-- No field ends a line, and the first character of a literal is in no field behind it and not
in the rest of the text. -/
def Marked (nl : A) (rest : List A) : List (List A × List A) → Prop
  | [] => True
  | f :: fs =>
      nl ∉ f.1 ∧ (∃ a lit, f.2 = a :: lit ∧ a ∉ rest ∧ ∀ g ∈ fs, a ∉ g.1) ∧ Marked nl rest fs

/-- How often a character stands in the literals. -/
def needs (a : A) : List (List A) → Nat
  | [] => 0
  | lit :: lits => lit.count a + needs a lits

/-- The literals of a match are all there. -/
theorem needs_le_count (a : A) {lits : List (List A)} {t : List A} {caps : List (List A)}
    (matched : captures nl lits t = some caps) : needs a lits ≤ t.count a := by
  induction lits generalizing t caps with
  | nil => exact Nat.zero_le _
  | cons lit lits ih =>
      rcases Option.map_eq_some_iff.mp matched with ⟨⟨cap, caps'⟩, found, _⟩
      rcases greedy_eq_some found with ⟨s, rfl, behind⟩
      rcases literal_eq_some behind with ⟨s', rfl, rest⟩
      have later := ih rest
      rw [needs, List.count_append, List.count_append]
      omega

theorem count_printed (a : A) {rest : List A} {fs : List (List A × List A)} (restless : a ∉ rest)
    (none_ : ∀ f ∈ fs, a ∉ f.1) : (printed fs rest).count a = needs a (fs.map Prod.snd) := by
  induction fs with
  | nil => exact List.count_eq_zero.mpr restless
  | cons f fs ih =>
      rw [List.forall_mem_cons] at none_
      rw [printed, List.count_append, List.count_append, List.count_eq_zero.mpr none_.1,
        ih none_.2, Nat.zero_add]
      rfl

/-- A text printed with a format is taken apart into its fields. -/
theorem captures_printed {rest : List A} {fs : List (List A × List A)}
    (marked : Marked nl rest fs) :
    captures nl (fs.map Prod.snd) (printed fs rest) = some (fs.map Prod.fst) := by
  induction fs with
  | nil => rfl
  | cons f fs ih =>
      rcases marked with ⟨line, ⟨a, lit, begins, restless, none_⟩, marked⟩
      have here : literal f.2 (captures nl (fs.map Prod.snd)) (f.2 ++ printed fs rest) =
          some (fs.map Prod.fst) := by
        rw [literal_append]
        exact ih marked
      -- behind the first character of the literal there are too few of them
      have last : Fails (literal f.2 (captures nl (fs.map Prod.snd))) (lit ++ printed fs rest) := by
        intro s suffix
        rw [Option.eq_none_iff_forall_ne_some]
        intro r matched
        rcases literal_eq_some matched with ⟨s', rfl, behind⟩
        have needed := needs_le_count a behind
        have there := suffix.sublist.count_le a
        rw [List.count_append, List.count_append, count_printed a restless none_, begins,
          List.count_cons_self] at there
        omega
      rw [begins, List.cons_append] at here
      change (greedy nl (literal f.2 (captures nl (fs.map Prod.snd)))
        (f.1 ++ (f.2 ++ printed fs rest))).map _ = _
      rw [begins] at last ⊢
      rw [List.cons_append, greedy_append line here last]
      rfl

end Fields

/-! ## Splitting -/

/-- The text before the first separator, and the text behind it. -/
def breakOn (sep : List A) : List A → List A × Option (List A)
  | [] => ([], none)
  | c :: t =>
      if sep <+: c :: t then ([], some ((c :: t).drop sep.length))
      else (c :: (breakOn sep t).1, (breakOn sep t).2)

/-- The first `n` fields of a text and what is left. -/
def fields (sep : List A) : Nat → List A → List (List A)
  | 0, t => [t]
  | n + 1, t =>
      match breakOn sep t with
      | (f, none) => [f]
      | (f, some rest) => f :: fields sep n rest

/-- `split`: all fields, without the empty ones at the end. -/
def split (sep t : List A) : List (List A) := (fields sep t.length t).rdropWhile List.isEmpty

/-- `($k, $v) = split(...)`. -/
def splitPair (sep t : List A) : List A × List A :=
  match breakOn sep t with
  | (k, none) => (k, [])
  | (k, some rest) => (k, (breakOn sep rest).1)

section Split

variable {sep : List A}

/-- The separator does not begin in a field. -/
def Whole (sep f : List A) : Prop := ∀ s, s <:+ f → s ≠ [] → ∀ t, ¬ sep <+: s ++ (sep ++ t)

theorem breakOn_append {f : List A} (some_ : sep ≠ []) (whole : Whole sep f) (t : List A) :
    breakOn sep (f ++ (sep ++ t)) = (f, some t) := by
  induction f with
  | nil =>
      rcases List.exists_cons_of_ne_nil some_ with ⟨a, sep', rfl⟩
      have starts : a :: sep' <+: a :: (sep' ++ t) := List.prefix_append (a :: sep') t
      rw [List.nil_append, List.cons_append, breakOn, if_pos starts]
      change ([], some ((a :: sep' ++ t).drop (a :: sep').length)) = _
      rw [List.drop_left]
  | cons c f ih =>
      have behind : Whole sep f := fun s suffix => whole s (suffix.trans (List.suffix_cons c f))
      rw [List.cons_append, breakOn, if_neg, ih behind]
      rw [← List.cons_append]
      exact whole _ List.suffix_rfl (List.cons_ne_nil c f) t

theorem breakOn_last {f : List A} (none_ : ¬ sep <:+: f) : breakOn sep f = (f, none) := by
  induction f with
  | nil => rfl
  | cons c f ih =>
      rw [breakOn, if_neg fun starts => none_ starts.isInfix,
        ih fun inside => none_ (inside.trans (List.suffix_cons c f).isInfix)]

/-- A text with a separator behind each field but the last. -/
theorem fields_append (some_ : sep ≠ []) {fs : List (List A)} {last : List A}
    (whole : ∀ f ∈ fs, Whole sep f) (end_ : ¬ sep <:+: last) {n : Nat} (room : fs.length ≤ n) :
    fields sep n ((fs.flatMap fun f => f ++ sep) ++ last) = fs ++ [last] := by
  induction fs generalizing n with
  | nil =>
      cases n with
      | zero => rfl
      | succ n =>
          rw [List.flatMap_nil, List.nil_append, fields, breakOn_last end_]
          rfl
  | cons f fs ih =>
      rw [List.forall_mem_cons] at whole
      cases n with
      | zero => cases room
      | succ n =>
          rw [List.flatMap_cons, List.append_assoc, List.append_assoc, fields,
            breakOn_append some_ whole.1]
          dsimp only
          rw [ih whole.2 (Nat.le_of_succ_le_succ room), List.cons_append]

/-- A text with a separator behind each field but the last is split into its fields. -/
theorem split_fields (some_ : sep ≠ []) {fs : List (List A)} {last : List A}
    (whole : ∀ f ∈ fs, Whole sep f) (end_ : ¬ sep <:+: last) (filled : last ≠ []) :
    split sep ((fs.flatMap fun f => f ++ sep) ++ last) = fs ++ [last] := by
  rw [split, fields_append some_ whole end_ (length_le_joined some_ fs last),
    List.rdropWhile_concat_neg]
  rwa [List.isEmpty_iff]

/-- The same with a separator behind the last field too. -/
theorem split_joined (some_ : sep ≠ []) {fs : List (List A)}
    (whole : ∀ f ∈ fs, Whole sep f) (filled : ∀ f ∈ fs, f ≠ []) :
    split sep (fs.flatMap fun f => f ++ sep) = fs := by
  have end_ : ¬ sep <:+: [] := some_ ∘ List.eq_nil_of_infix_nil
  have all := fields_append some_ whole end_ (length_le_joined some_ fs [])
  rw [List.append_nil] at all
  rw [split, all, List.rdropWhile_concat_pos _ _ _ List.isEmpty_nil]
  rw [List.rdropWhile_eq_self_iff]
  intro some_ empty
  exact filled _ (List.getLast_mem some_) (List.isEmpty_iff.mp empty)

end Split

end Patterns
