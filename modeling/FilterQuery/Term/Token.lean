import FilterQuery.Rule.Fragment
import FilterQuery.Rule.Structured

/-!
Terms: the tokens of a query in a line, as an editor shows them. Columns and values hold any text,
all other terms are fixed symbols.
-/

namespace FilterQuery

inductive TokenKind where
  | column
  | operator
  | value
  /-- One of `&`, `|` and the negation `!`. -/
  | logical
  | groupOpen
  | groupClose
  deriving DecidableEq, Repr

namespace TokenKind

def all : List TokenKind := [column, operator, value, logical, groupOpen, groupClose]

def name : TokenKind → String
  | column => "column"
  | operator => "operator"
  | value => "value"
  | logical => "logical_operator"
  | groupOpen => "grouping_operator_open"
  | groupClose => "grouping_operator_close"

def ofName? (s : String) : Option TokenKind := all.find? (·.name == s)

@[simp] theorem ofName?_name (k : TokenKind) : ofName? k.name = some k := by
  cases k <;> decide

def isFreeText : TokenKind → Bool
  | column | value => true
  | _ => false

def isGrouping : TokenKind → Bool
  | groupOpen | groupClose => true
  | _ => false

end TokenKind

/-- The part of a condition that a term spells. -/
inductive ConditionPart where
  | column | operator | value
  deriving DecidableEq, Repr

namespace ConditionPart

def name : ConditionPart → String
  | column => "column"
  | operator => "operator"
  | value => "value"

def ofName? (s : String) : Option ConditionPart := [column, operator, value].find? (·.name == s)

end ConditionPart

/-- The node of a rule, and the part of it, that a term spells. -/
structure TermPath where
  rule : Path
  part : Option ConditionPart := none
  deriving DecidableEq, Repr

def TermPath.toText (p : TermPath) : String :=
  (if p.rule.isEmpty then "root" else p.rule.toText) ++
    match p.part with
    | some part => ":" ++ part.name
    | none => ""

structure Token where
  kind : TokenKind
  /-- The text in the query. -/
  raw : String
  label : String
  /-- What the term spells; absent if it belongs to no node. -/
  path : Option TermPath := none
  /-- Where the term began in the query. -/
  sourceOffset : Option Nat := none
  /-- The index of the parenthesis that goes with this one. -/
  counterpart : Option Nat := none
  deriving DecidableEq, Repr

namespace Token

/-- A term whose label is its text. -/
def symbol (kind : TokenKind) (s : String) : Token := { kind, raw := s, label := s }

/-- A column or value term for plain text. -/
def freeText (kind : TokenKind) (s : String) : Token :=
  { kind, raw := Text.Percent.encode s, label := s }

/-- The text that is typed for the term. -/
def text (t : Token) : String :=
  if t.kind.isFreeText then Text.Percent.decode t.raw else t.raw

/-- The term without a node. -/
def detach (t : Token) : Token := { t with path := none, sourceOffset := none }

end Token

def Value.label : Value → String
  | flag _ => ""
  | text s => s
  | list items => "(" ++ "|".intercalate items ++ ")"

/-- The term that a piece of the canonical text of a rule becomes. -/
def Fragment.token (path : Path) (f : Fragment) : Token :=
  match f with
  | column c =>
    { kind := .column, raw := f.raw, label := c.displayColumn, path := some ⟨path, some .column⟩,
      sourceOffset := c.note.column }
  | operator c =>
    { kind := .operator, raw := f.raw, label := f.raw, path := some ⟨path, some .operator⟩,
      sourceOffset := c.note.operator }
  | value c =>
    { kind := .value, raw := f.raw, label := c.value.label, path := some ⟨path, some .value⟩,
      sourceOffset := c.note.value }
  | negation | separator .. =>
    { kind := .logical, raw := f.raw, label := f.raw, path := some ⟨path, none⟩ }
  | groupOpen => { kind := .groupOpen, raw := f.raw, label := f.raw, path := some ⟨path, none⟩ }
  | groupClose => { kind := .groupClose, raw := f.raw, label := f.raw, path := some ⟨path, none⟩ }

/-- The terms of the canonical text of a rule, with parentheses not yet paired. -/
def Rule.terms (r : Rule) : List Token :=
  r.fragments.map fun (path, f) => f.token path

namespace TermPath

def toJson (p : TermPath) : Json :=
  .object <| ("rule", .ofNats p.rule) ::
    presentFields [("part", p.part.map fun part => .text part.name)]

def ofJson? (j : Json) : Option TermPath := do
  let rule ← (← (← j.get? "rule").asList?).mapM Json.asNat?
  let part ←
    match j.find? "part" with
    | none => some none
    | some v => (v.asText?.bind ConditionPart.ofName?).map some
  some { rule, part }

end TermPath

namespace Token

def toJson (t : Token) : Json :=
  .object <| [("kind", .text t.kind.name), ("raw", .text t.raw), ("label", .text t.label)] ++
    presentFields
      [("path", t.path.map TermPath.toJson), ("source_offset", t.sourceOffset.map .ofNat),
        ("counterpart", t.counterpart.map .ofNat)]

end Token
end FilterQuery
