import FilterQuery.Messages
import FilterQuery.Query.Lexeme

/-!
From lexemes to a rule. `!` binds its operand, `&` binds tighter than `|`, parentheses group. Almost
every malformed query is mended: connectives without an operand before them are skipped, as are
closing parentheses that nothing opened; open groups are closed at the end and negations of nothing
are dropped. Two things are errors: two operands without a connective between them, and groups and
negations that nest too deep.
-/

namespace FilterQuery

/-- How many groups and negations may be open at once. -/
def maxNesting : Nat := 64

inductive SyntaxError.Reason where
  | expectedConnective
  | nestingTooDeep
  deriving DecidableEq, Repr

def SyntaxError.Reason.message (m : Messages) : Reason → String
  | expectedConnective => m.expectedConnective
  | nestingTooDeep => m.nestingTooDeep maxNesting

/-- Why a query names no rule. -/
structure SyntaxError where
  filter : String
  /-- The character at which reading stopped. -/
  character : Char
  /-- The position behind that character. -/
  position : Nat
  reason : SyntaxError.Reason
  deriving DecidableEq, Repr

namespace SyntaxError

/-- The position of the character itself. -/
def offset (e : SyntaxError) : Nat := e.position - e.character.utf8Size

def message (m : Messages) (e : SyntaxError) : String :=
  s!"Invalid filter \"{e.filter}\", unexpected {e.character} at pos {e.position}: " ++
    e.reason.message m

end SyntaxError

namespace Parse

/-- A group that is still open, and the operands read in it. -/
structure Group where
  /-- Finished alternatives. -/
  terms : List Rule := []
  /-- Operands of the alternative that is being read. -/
  operands : List Rule := []
  /-- Negations in front of the next operand. -/
  negations : Nat := 0
  deriving Repr

namespace Group

/-- The operand with the pending negations applied, added to the alternative. -/
def add (g : Group) (r : Option Rule) : Group :=
  { g with
    operands := g.operands ++ (r.map (Nat.repeat Rule.negate g.negations)).toList
    negations := 0 }

/-- The alternative is finished. -/
def next (g : Group) : Group :=
  { g with terms := g.terms ++ (Rule.join? .all g.operands).toList, operands := [] }

/-- What the group stands for. -/
def result (g : Group) : Option Rule :=
  Rule.join? .any g.next.terms

end Group

/-- What has been read of a query. -/
structure State where
  /-- The innermost open group, at first the query itself. -/
  group : Group := {}
  /-- The groups around it, the innermost first. -/
  outer : List Group := []
  /-- Whether an operand has been read since the last connective or opening parenthesis. -/
  filled : Bool := false
  deriving Repr

namespace State

/-- Groups and negations that are open. -/
def nesting (s : State) : Nat :=
  s.outer.foldl (fun n g => n + (g.negations + 1)) s.group.negations

/-- An operand has been read; `none` is one that names nothing. -/
def operand (s : State) (r : Option Rule) : State :=
  { s with group := s.group.add r, filled := true }

/-- Negations that no operand follows are dropped. They count as an operand that names nothing. -/
def settle (s : State) : State :=
  if !s.filled && s.group.negations != 0 then s.operand none else s

/-- The innermost group ends, and is an operand of the one around it. -/
def close (s : State) : State :=
  match s.outer with
  | [] => s
  | g :: outer => { group := g.add s.group.result, outer, filled := true }

/-- Adds a lexeme that can only begin an operand. -/
def open? (s : State) (l : Lexeme) : Except SyntaxError.Reason State :=
  if s.filled then throw .expectedConnective
  else match l with
    | .unit c => pure (s.operand (c.map .condition))
    | .negation =>
      if maxNesting ≤ s.nesting then throw .nestingTooDeep
      else pure { s with group := { s.group with negations := s.group.negations + 1 } }
    | _ =>
      if maxNesting ≤ s.nesting then throw .nestingTooDeep
      else pure { group := {}, outer := s.group :: s.outer, filled := false }

def step (s : State) (l : Lexeme) : Except SyntaxError.Reason State :=
  match l with
  | .conj => pure { s.settle with filled := false }
  | .disj =>
    let s := s.settle
    pure (if s.filled then { s with group := s.group.next, filled := false } else s)
  | .groupClose => pure s.settle.close
  | .unit _ | .negation | .groupOpen => s.open? l

/-- All groups are closed at the end of the query. -/
def finish (s : State) : Option Rule :=
  s.outer.foldl (fun r g => (g.add r).result) s.settle.group.result

/-- Adds lexemes until one does not fit. -/
def run (s : State) : List Occurrence → Except (Occurrence × SyntaxError.Reason) State
  | [] => pure s
  | o :: os =>
    match s.step o.lexeme with
    | .ok t => t.run os
    | .error reason => .error (o, reason)

end State
end Parse

namespace Rule

/-- The rule that a query stands for. A query without any condition is the empty rule. -/
def parse (query : String) : Except SyntaxError Rule :=
  match Parse.State.run {} (lexemes query) with
  | .ok s => .ok (s.finish.getD empty)
  | .error (o, reason) => .error ⟨query, o.first, o.start + o.first.utf8Size, reason⟩

/-- The characters that lie before a byte position. -/
def charsBefore (position : Nat) : List Char → List Char
  | [] => []
  | c :: cs =>
    if c.utf8Size ≤ position then c :: charsBefore (position - c.utf8Size) cs else []

/-- The rule of the query, or of the part in front of the error. -/
def parseLenient (query : String) : Rule × Option SyntaxError :=
  match parse query with
  | .ok r => (r, none)
  | .error e =>
    let valid := String.ofList (charsBefore e.offset query.toList)
    ((parse valid).toOption.getD empty, some e)

end Rule
end FilterQuery
