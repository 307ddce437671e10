import FilterQuery.Term.Token

/-!
What may follow a sequence of terms. It goes round from column to operator to value to connective,
and depends on the last term and on the number of open groups alone.
-/

namespace FilterQuery

/-- A fixed symbol, and the kind of term that it makes. -/
abbrev TermSymbol := String × TokenKind

inductive Expect where
  | column
  | operator
  | value
  | connective
  deriving DecidableEq, Repr

namespace Expect

def afterKind : Option TokenKind → Expect
  | none | some .logical | some .groupOpen => column
  | some .column => operator
  | some .operator => value
  | some .value | some .groupClose => connective

def after (tokens : List Token) : Expect :=
  afterKind (tokens.getLast?.map (·.kind))

/-- The kind of free text that may be typed. -/
def freeText? : Expect → Option TokenKind
  | column => some .column
  | value => some .value
  | operator | connective => none

/-- The kind of term that suggestions are asked for. -/
def kind : Expect → TokenKind
  | column => .column
  | operator => .operator
  | value => .value
  | connective => .logical

/-- The symbols that may follow. A column can be a bare test and a value can be empty, so
connectives may follow an operator as well as a column. -/
def symbols (e : Expect) (openGroups : Nat) : List TermSymbol :=
  let joining : List TermSymbol :=
    [("&", .logical), ("|", .logical)] ++ if 0 < openGroups then [(")", .groupClose)] else []
  match e with
  | column => [("(", .groupOpen), ("!", .logical)]
  | operator => Comparison.all.map (fun op => (op.symbol, .operator)) ++ joining
  | value | connective => joining

end Expect

/-- The depth behind a term; a closing parenthesis that nothing opened does not count. -/
def depthAfter (depth : Nat) : TokenKind → Nat
  | .groupOpen => depth + 1
  | .groupClose => depth - 1
  | _ => depth

/-- The groups that are open behind the terms. -/
def openGroups (tokens : List Token) : Nat :=
  tokens.foldl (fun depth t => depthAfter depth t.kind) 0

inductive SymbolMatch where
  /-- The text spells the only symbol that begins with it. -/
  | exact (s : TermSymbol)
  /-- A symbol begins with the text. -/
  | partially
  | none
  deriving DecidableEq, Repr

def matchSymbol (text : String) (symbols : List TermSymbol) : SymbolMatch :=
  match symbols.filter fun s => text.toList <+: s.1.toList with
  | [] => .none
  | [s] => if s.1 = text then .exact s else .partially
  | _ => .partially

/-- The symbol that the text spells, even if others begin with it. -/
def exactSymbol? (text : String) (symbols : List TermSymbol) : Option TermSymbol :=
  symbols.find? (·.1 == text)

end FilterQuery
