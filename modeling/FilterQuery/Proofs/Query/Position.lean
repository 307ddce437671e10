import FilterQuery.Proofs.Query.Lookahead

/-!
Positions in a query. Where a text begins has no part in how it is read: further behind, the same
lexemes are read, and all their positions are as much further behind.
-/

namespace FilterQuery

open Text

/-! ### Moved positions -/

def Annotation.shift (d : Nat) (a : Annotation) : Annotation :=
  { a with
    column := a.column.map (· + d)
    operator := a.operator.map (· + d)
    value := a.value.map (· + d) }

def Condition.shift (d : Nat) (c : Condition) : Condition := { c with note := c.note.shift d }

def Lexeme.shift (d : Nat) : Lexeme → Lexeme
  | unit c => unit (c.map (·.shift d))
  | l => l

def Occurrence.shift (d : Nat) (o : Occurrence) : Occurrence :=
  { o with lexeme := o.lexeme.shift d, start := o.start + d }

def Run.shift (d : Nat) (r : Run) : Run := { r with offset := r.offset + d }

def Scanner.shift (d : Nat) (s : Scanner) : Scanner := { s with position := s.position + d }

@[simp] theorem Lexeme.bare_shift (d : Nat) (l : Lexeme) : (l.shift d).bare = l.bare := by
  cases l with
  | unit c => cases c <;> rfl
  | _ => rfl

/-- Lexemes of one character have no positions. -/
theorem Lexeme.shift_of_ofChar? {c : Char} {l : Lexeme} (h : ofChar? c = some l) (d : Nat) :
    l.shift d = l := by
  rw [ofChar?.eq_def] at h
  split at h <;> cases h <;> rfl

namespace Scanner

variable (d : Nat) (s : Scanner)

@[simp] theorem shift_peek : (s.shift d).peek = s.peek := rfl

/-! ### Parts of a unit -/

theorem shift_skipWhile (p : Char → Bool) : (s.shift d).skipWhile p = (s.skipWhile p).shift d := by
  rw [skipWhile, shift, Nat.add_right_comm]
  rfl

theorem shift_advance : (s.shift d).advance = s.advance.shift d := by
  obtain ⟨n, _ | ⟨c, cs⟩⟩ := s
  · rfl
  · simp [shift, Nat.add_right_comm]

theorem shift_eat? (c : Char) : (s.shift d).eat? c = (s.eat? c).map (shift d) := by
  rw [eat?, eat?, shift_peek, shift_advance]
  split <;> rfl

theorem shift_eatAll? (cs : List Char) : (s.shift d).eatAll? cs = (s.eatAll? cs).map (shift d) := by
  rw [eatAll?, eatAll?, shift, Nat.add_right_comm]
  split <;> rfl

theorem shift_readRun (stops : List Char) : (s.shift d).readRun stops =
    ((s.readRun stops).1.shift d, (s.readRun stops).2.shift d) := by
  refine Prod.ext ?_ (shift_skipWhile d s _)
  simp only [readRun, Run.shift, shift, Nat.add_right_comm]
  rfl

theorem shift_readComparison? : (s.shift d).readComparison? =
    s.readComparison?.map fun (op, t) => (op, t.shift d) := by
  rw [readComparison?, readComparison?]
  generalize [Comparison.ne, .ge, .le, .eq, .gt, .lt] = ops
  induction ops with
  | nil => rfl
  | cons op ops ih =>
    rw [List.findSome?_cons, List.findSome?_cons, shift_eatAll?]
    cases s.eatAll? op.spelling with
    | none => exact ih
    | some t => rfl

theorem shift_readItems : (s.shift d).readItems = (s.readItems.1, s.readItems.2.shift d) := by
  induction h : s.rest.length using Nat.strongRecOn generalizing s with
  | ind n ih =>
    have hr := readRun_rest_length delimiters s
    rw [readItems, readItems.eq_def s, shift_readRun, shift_peek]
    dsimp only
    split
    · rename_i hp
      have hl := advance_lt hp
      rw [shift_advance, ih _ (by omega) _ rfl]
      rfl
    · rw [shift_advance, shift_peek]
      split <;> rfl

theorem shift_readValue : (s.shift d).readValue =
    (s.readValue.1, s.readValue.2.1.map (· + d), s.readValue.2.2.shift d) := by
  have hskip : (s.shift d).skipBlanks = s.skipBlanks.shift d := shift_skipWhile d s isBlank
  rw [readValue, readValue.eq_def s, hskip]
  simp only [shift_eat?, shift_readRun]
  cases s.skipBlanks.eat? '(' with
  | some t => simp only [Option.map_some, shift_readItems]; rfl
  | none =>
    have hempty : ((s.skipBlanks.readRun delimiters).1.shift d).isEmpty =
        (s.skipBlanks.readRun delimiters).1.isEmpty := rfl
    dsimp only [Option.map_none]
    rw [hempty]
    split <;> rfl

theorem shift_readUnit : (s.shift d).readUnit =
    (s.readUnit.1.map (·.shift d), s.readUnit.2.shift d) := by
  have hempty : ((s.readRun delimiters).1.shift d).isEmpty = (s.readRun delimiters).1.isEmpty := rfl
  rw [readUnit, readUnit.eq_def s]
  simp only [shift_readRun, shift_readComparison?, hempty]
  cases (s.readRun delimiters).2.readComparison? with
  | none =>
    dsimp only [Option.map_none]
    split <;> rfl
  | some r =>
    obtain ⟨op, t⟩ := r
    simp only [Option.map_some, shift_readValue]
    split <;> rfl

/-! ### Lexemes -/

theorem shift_readLexeme? : (s.shift d).readLexeme? =
    s.readLexeme?.map fun (o, t) => (o.shift d, t.shift d) := by
  obtain ⟨n, cs⟩ := s
  obtain ⟨u, rest, rfl, hu, hr⟩ := exists_span isBlank cs
  cases rest with
  | nil =>
    rw [List.append_nil, shift, readLexeme?_blanks hu, readLexeme?_blanks hu]
    rfl
  | cons c rest =>
    have hunit : (⟨n + byteSize u + d, c :: rest⟩ : Scanner).readUnit = _ :=
      shift_readUnit d ⟨n + byteSize u, c :: rest⟩
    rw [shift, readLexeme?_eq hu (hr c rfl), readLexeme?_eq hu (hr c rfl), Nat.add_right_comm]
    cases hl : Lexeme.ofChar? c with
    | some l =>
      simp only [Option.map_some, Occurrence.shift, Lexeme.shift_of_ofChar? hl, shift,
        Nat.add_right_comm]
    | none =>
      rw [hunit]
      rfl

/-- **Lexemes further behind** in a query are the same, with all positions moved. -/
theorem shift_lexemes : (s.shift d).lexemes = s.lexemes.map (·.shift d) := by
  fun_induction lexemes s with
  | case1 s h =>
    rw [lexemes_eq_nil]
    · rfl
    · rw [shift_readLexeme?, h]; rfl
  | case2 s o t h ih =>
    rw [lexemes_eq_cons (t := t.shift d) (o := o.shift d), ih]
    · rfl
    · rw [shift_readLexeme?, h]; rfl

end Scanner
end FilterQuery
