import FilterQuery.Decimal.Literal
import FilterQuery.Rule.Basic
import FilterQuery.Rule.Wildcard
import FilterQuery.Text.Blank

/-!
Which records a rule matches. A record without a column satisfies no comparison with it. An `any`
chain without children is no constraint.
-/

namespace FilterQuery

open Text

/-- The text of each column of a record that has it. -/
abbrev Record := String → Option String

/-- Numbers are ordered as doubles, and texts of which one is not a number by code points. -/
def orderOf (a b : String) : Ordering :=
  match Decimal.Double.parse? (trim a.toList), Decimal.Double.parse? (trim b.toList) with
  | some x, some y => x.compare y
  | _, _ => Ord.compare a b

/-- Whether a column is set: it is present and none of the texts that stand for no. -/
def isSet : Option String → Bool
  | none => false
  | some s => s != "" && s != "0" && s != "false"

namespace Comparison

/-- Whether a field compares with the text in this way. -/
def holds (op : Comparison) (field text : String) : Bool :=
  match op with
  | eq => Wildcard.accepts text field
  | ne => !Wildcard.accepts text field
  | gt => orderOf field text == .gt
  | lt => orderOf field text == .lt
  | ge => orderOf field text != .lt
  | le => orderOf field text != .gt

/-- Whether a field compares with a list in this way: it does so with one of the items, but differs
from a list only if it differs from all. -/
def holdsAny (op : Comparison) (field : String) (items : List String) : Bool :=
  match op with
  | ne => !items.any (eq.holds field)
  | op => items.any (op.holds field)

end Comparison

namespace Condition

def accepts (c : Condition) (record : Record) : Bool :=
  match c.value, record c.column with
  | .flag set, field => isSet field == set
  | _, none => false
  | .text s, some field => c.comparison.holds field s
  | .list items, some field => c.comparison.holdsAny field items

end Condition

namespace Rule

mutual

def accepts (record : Record) : Rule → Bool
  | condition c => c.accepts record
  | chain .all children => allMatch record children
  | chain .any children => children.isEmpty || anyMatches record children
  | chain .none children => !anyMatches record children

def allMatch (record : Record) : List Rule → Bool
  | [] => true
  | r :: rs => r.accepts record && allMatch record rs

def anyMatches (record : Record) : List Rule → Bool
  | [] => false
  | r :: rs => r.accepts record || anyMatches record rs

end

theorem allMatch_eq (record : Record) (rs : List Rule) :
    allMatch record rs = rs.all (·.accepts record) := by
  induction rs with
  | nil => rfl
  | cons r rs ih => simp [allMatch, ih]

theorem anyMatches_eq (record : Record) (rs : List Rule) :
    anyMatches record rs = rs.any (·.accepts record) := by
  induction rs with
  | nil => rfl
  | cons r rs ih => simp [anyMatches, ih]

end Rule
end FilterQuery
