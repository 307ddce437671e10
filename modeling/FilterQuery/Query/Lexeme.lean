import FilterQuery.Query.Scanner
import FilterQuery.Rule.Basic

/-!
A query as a sequence of lexemes: connectives, parentheses, negations, and units, which are a column
with the operator and the value after it. Blanks between lexemes are skipped. Every character of the
query belongs to one lexeme or to the blanks, and each lexeme consumes at least one.
-/

namespace FilterQuery

inductive Lexeme where
  | conj
  | disj
  | groupOpen
  | groupClose
  | negation
  /-- A unit without a column names no condition. -/
  | unit (condition : Option Condition)
  deriving DecidableEq, Repr

/-- A lexeme where it occurs in a query. -/
structure Occurrence where
  lexeme : Lexeme
  /-- The character it begins with. -/
  first : Char
  /-- The position of that character. -/
  start : Nat
  deriving DecidableEq, Repr

namespace Scanner

/-- The comparison that is spelled next. Of two symbols that fit, the longer one counts. -/
def readComparison? (s : Scanner) : Option (Comparison × Scanner) :=
  [Comparison.ne, .ge, .le, .eq, .gt, .lt].findSome? fun op =>
    (s.eatAll? op.spelling).map (op, ·)

/-- The items of a list after its `(`. A `|` continues the list; it ends behind a `)`, or in front
of anything else. -/
def readItems (s : Scanner) : List String × Scanner :=
  let (item, t) := s.readRun delimiters
  if (s.readRun delimiters).2.peek = some '|' then
    let (items, u) := readItems (s.readRun delimiters).2.advance
    (item.decoded :: items, u)
  else if t.peek = some ')' then ([item.decoded], t.advance)
  else ([item.decoded], t)
termination_by s.rest.length
decreasing_by
  have := readRun_rest_length delimiters s
  have := advance_lt ‹_›
  omega

/-- The value after an operator, and where it begins. An empty one begins nowhere. -/
def readValue (s : Scanner) : Value × Option Nat × Scanner :=
  let s := s.skipBlanks
  match s.eat? '(' with
  | some t =>
    let (items, u) := t.readItems
    (.list items, some s.position, u)
  | none =>
    let (run, t) := s.readRun delimiters
    if run.isEmpty then (.text "", none, t) else (.text run.decoded, some run.offset, t)

/-- A column with its operator and value. -/
def readUnit (s : Scanner) : Option Condition × Scanner :=
  let (column, t) := s.readRun delimiters
  match t.readComparison? with
  | none =>
    let c : Condition := ⟨column.decoded, .eq, .flag true, { column := column.offset }⟩
    (if column.isEmpty then none else some c, t)
  | some (op, u) =>
    let (value, offset, v) := u.readValue
    let c : Condition :=
      ⟨column.decoded, op, value,
        { column := column.offset, operator := t.position, value := offset }⟩
    (if column.isEmpty then none else some c, v)

/-- The lexeme at the next character that is not blank, and the scanner behind it. -/
def readLexeme? (s : Scanner) : Option (Occurrence × Scanner) :=
  let s := s.skipBlanks
  match s.peek with
  | none => none
  | some c =>
    let (lexeme, t) :=
      match c with
      | '&' => (Lexeme.conj, s.advance)
      | '|' => (.disj, s.advance)
      | '(' => (.groupOpen, s.advance)
      | ')' => (.groupClose, s.advance)
      | '!' => (.negation, s.advance)
      | _ =>
        let (condition, t) := s.readUnit
        (.unit condition, t)
    some (⟨lexeme, c, s.position⟩, t)

theorem readComparison?_rest_length {s t : Scanner} {op : Comparison}
    (H : s.readComparison? = some (op, t)) : t.rest.length < s.rest.length := by
  obtain ⟨op', -, H⟩ := List.exists_of_findSome?_eq_some H
  obtain ⟨u, hu, hp⟩ := Option.map_eq_some_iff.1 H
  obtain ⟨rfl, rfl⟩ := Prod.mk.inj hp
  have h : 0 < op'.spelling.length := by cases op' <;> decide
  have := eatAll?_rest_length hu
  omega

theorem peek_of_readComparison?_eq_none {s : Scanner} {c : Char} (H : s.readComparison? = none)
    (Hc : s.peek = some c) : c ≠ '=' ∧ c ≠ '>' ∧ c ≠ '<' := by
  obtain ⟨n, _ | ⟨d, cs⟩⟩ := s
  · simp at Hc
  · obtain rfl : d = c := by simpa using Hc
    simp only [readComparison?, List.findSome?_eq_none_iff] at H
    have h (op : Comparison) (hop : op ∈ [Comparison.ne, .ge, .le, .eq, .gt, .lt]) :
        ¬ op.spelling <+: d :: cs := by
      simpa [eatAll?] using H op hop
    have h₁ := h .eq (by decide)
    have h₂ := h .gt (by decide)
    have h₃ := h .lt (by decide)
    simp only [Comparison.spelling, List.cons_prefix_cons, List.nil_prefix, and_true] at h₁ h₂ h₃
    exact ⟨Ne.symm h₁, Ne.symm h₂, Ne.symm h₃⟩

theorem readItems_rest_length (s : Scanner) : s.readItems.2.rest.length ≤ s.rest.length := by
  induction h : s.rest.length using Nat.strongRecOn generalizing s with
  | ind n ih =>
    have hr := readRun_rest_length delimiters s
    have ha := advance_rest_length (s.readRun delimiters).2
    rw [readItems]
    dsimp only
    split
    · rename_i hp
      have hl := advance_lt hp
      have hi := ih _ (by omega) (s.readRun delimiters).2.advance rfl
      simp only
      omega
    · split <;> simp only <;> omega

theorem readValue_rest_length (s : Scanner) : s.readValue.2.2.rest.length ≤ s.rest.length := by
  have h := skipBlanks_rest_length s
  unfold readValue
  dsimp only
  split
  · rename_i t H
    have h₁ := readItems_rest_length t
    have h₂ := eat?_rest_length H
    simp only
    omega
  · have h₁ := readRun_rest_length delimiters s.skipBlanks
    split <;> simp only <;> omega

/-- A unit that does not begin with a connective, a parenthesis or a negation consumes something. -/
theorem readUnit_rest_length {s : Scanner} {c : Char} (H : s.peek = some c)
    (Hc : c ∉ ['&', '|', '(', ')', '!']) : s.readUnit.2.rest.length < s.rest.length := by
  have h : (s.readRun delimiters).2.rest.length < s.rest.length ∨
      ((s.readRun delimiters).2 = s ∧ c ∈ ['=', '>', '<']) := by
    obtain ⟨n, _ | ⟨d, cs⟩⟩ := s
    · simp at H
    · obtain rfl : d = c := by simpa using H
      by_cases hd : d ∈ delimiters
      · right
        refine ⟨by simp [readRun, skipWhile, hd], ?_⟩
        simp only [delimiters, List.mem_cons] at hd Hc ⊢
        simp only [List.not_mem_nil, or_false] at hd Hc ⊢
        grind
      · left
        let inRun := fun c => !delimiters.contains c
        have hp : inRun d = true := by simp [inRun, hd]
        change ((d :: cs).dropWhile inRun).length < (d :: cs).length
        rw [List.dropWhile_cons_of_pos hp]
        exact Nat.lt_succ_of_le (List.dropWhile_sublist _).length_le
  unfold readUnit
  dsimp only
  have hr := readRun_rest_length delimiters s
  split
  · rename_i hop
    rcases h with h | ⟨h, hc⟩
    · simpa using h
    · have hn := peek_of_readComparison?_eq_none (c := c) hop (by rw [h]; exact H)
      simp [hn] at hc
  · rename_i op u hop
    have h₁ := readComparison?_rest_length hop
    have h₂ := readValue_rest_length u
    change u.readValue.2.2.rest.length < s.rest.length
    omega

theorem readLexeme?_rest_length {s t : Scanner} {o : Occurrence}
    (H : s.readLexeme? = some (o, t)) : t.rest.length < s.rest.length := by
  refine Nat.lt_of_lt_of_le ?_ (skipBlanks_rest_length s)
  unfold readLexeme? at H
  dsimp only at H
  generalize s.skipBlanks = s at H ⊢
  have adv {c : Char} (h : s.peek = some c) : s.advance.rest.length < s.rest.length :=
    eat?_rest_length (c := c) (by simp [eat?, h])
  split at H
  · simp at H
  · rename_i c hc
    simp only [Option.some.injEq, Prod.mk.injEq] at H
    obtain ⟨-, rfl⟩ := H
    split
    iterate 5 exact adv hc
    refine readUnit_rest_length hc ?_
    simp only [List.mem_cons, List.not_mem_nil, or_false]
    grind

/-- All lexemes from the scanner on. -/
def lexemes (s : Scanner) : List Occurrence :=
  match _H : s.readLexeme? with
  | none => []
  | some (o, t) => o :: t.lexemes
termination_by s.rest.length
decreasing_by exact readLexeme?_rest_length _H

end Scanner

/-- The lexemes of a query. -/
def lexemes (query : String) : List Occurrence :=
  (Scanner.ofString query).lexemes

end FilterQuery
