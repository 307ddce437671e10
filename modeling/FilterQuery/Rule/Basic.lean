/-!
Rules: trees of conditions. A leaf compares a column with a value or tests that the column is set;
an inner node joins its children by a connective. Children are ordered.
-/

namespace FilterQuery

inductive Comparison where
  | eq | ne | gt | lt | ge | le
  deriving DecidableEq, Repr

namespace Comparison

/-- All comparisons, in the order in which they are offered. -/
def all : List Comparison := [eq, ne, gt, lt, ge, le]

def spelling : Comparison → List Char
  | eq => ['=']
  | ne => ['!', '=']
  | gt => ['>']
  | lt => ['<']
  | ge => ['>', '=']
  | le => ['<', '=']

/-- The operator's text in a query. -/
def symbol (c : Comparison) : String := String.ofList c.spelling

def ofSymbol? (s : String) : Option Comparison :=
  all.find? (·.symbol == s)

/-- The name in the structured form of a rule. -/
def name : Comparison → String
  | eq => "eq"
  | ne => "neq"
  | gt => "gt"
  | lt => "lt"
  | ge => "gte"
  | le => "lte"

def ofName? (s : String) : Option Comparison :=
  all.find? (·.name == s)

@[simp] theorem ofSymbol?_symbol (c : Comparison) : ofSymbol? c.symbol = some c := by
  cases c <;> decide

@[simp] theorem ofName?_name (c : Comparison) : ofName? c.name = some c := by
  cases c <;> decide

end Comparison

/-- How a chain joins its children: every one of them matches, at least one does, none does. -/
inductive Connective where
  | all | any | none
  deriving DecidableEq, Repr

namespace Connective

/-- The character between two children. The children of a `none` chain are alternatives. -/
def separator : Connective → Char
  | all => '&'
  | any | none => '|'

def name : Connective → String
  | all => "all"
  | any => "any"
  | none => "none"

def ofName? (s : String) : Option Connective :=
  [all, any, none].find? (·.name == s)

@[simp] theorem ofName?_name (c : Connective) : ofName? c.name = some c := by
  cases c <;> decide

end Connective

/-- What a column is compared with. -/
inductive Value where
  /-- The bare test that a column is set, or is not. -/
  | flag (set : Bool)
  | text (s : String)
  | list (items : List String)
  deriving DecidableEq, Repr

/-- A number is compared as its decimal text. -/
def Value.ofInt (n : Int) : Value := .text (toString n)

def Value.ofInts (ns : List Int) : Value := .list (ns.map toString)

/-- Where the parts of a condition stood in a query, and the name shown for its column. -/
structure Annotation where
  column : Option Nat := none
  operator : Option Nat := none
  value : Option Nat := none
  label : Option String := none
  deriving DecidableEq, Repr

/-- The positions that are known, in document order. -/
def Annotation.offsets (a : Annotation) : List Nat :=
  a.column.toList ++ a.operator.toList ++ a.value.toList

structure Condition where
  column : String
  comparison : Comparison
  value : Value
  note : Annotation := {}
  deriving DecidableEq, Repr

namespace Condition

/-- The column's name as it is shown. -/
def displayColumn (c : Condition) : String := c.note.label.getD c.column

/-- The condition without its annotation. -/
def bare (c : Condition) : Condition := { c with note := {} }

end Condition

inductive Rule where
  | condition (c : Condition)
  | chain (op : Connective) (children : List Rule)
  deriving Repr

namespace Rule

/-- The rule that filters nothing. -/
def empty : Rule := chain .all []

/-- A comparison of a column. -/
def compare (op : Comparison) (column : String) (value : Value) : Rule :=
  condition { column, comparison := op, value }

/-- The bare test that a column is set, or is not. -/
def test (column : String) (set : Bool) : Rule :=
  compare .eq column (.flag set)

/-- A condition with another name shown for its column; a chain has no such name. -/
def labelled (label : String) : Rule → Rule
  | condition c => condition { c with note := { c.note with label := some label } }
  | r => r

def isEmpty : Rule → Bool
  | condition _ => false
  | chain _ children => children.isEmpty

mutual

/-- The conditions in document order. -/
def conditions : Rule → List Condition
  | condition c => [c]
  | chain _ children => conditionsOf children

def conditionsOf : List Rule → List Condition
  | [] => []
  | r :: rs => r.conditions ++ conditionsOf rs

end

theorem conditionsOf_eq (rs : List Rule) : conditionsOf rs = rs.flatMap conditions := by
  induction rs with
  | nil => rfl
  | cons r rs ih => simp [conditionsOf, ih]

@[simp] theorem conditions_condition (c : Condition) : (condition c).conditions = [c] := rfl

@[simp] theorem conditions_chain (op : Connective) (rs : List Rule) :
    (chain op rs).conditions = rs.flatMap conditions := conditionsOf_eq rs

mutual

/-- The rule with every annotation removed. -/
def bare : Rule → Rule
  | condition c => condition c.bare
  | chain op children => chain op (bareAll children)

def bareAll : List Rule → List Rule
  | [] => []
  | r :: rs => r.bare :: bareAll rs

end

theorem bareAll_eq (rs : List Rule) : bareAll rs = rs.map bare := by
  induction rs with
  | nil => rfl
  | cons r rs ih => simp [bareAll, ih]

@[simp] theorem bare_condition (c : Condition) : (condition c).bare = condition c.bare := rfl

@[simp] theorem bare_chain (op : Connective) (rs : List Rule) :
    (chain op rs).bare = chain op (rs.map bare) := by
  simp [bare, bareAll_eq]

/-- Two rules are the same when they differ in annotations alone. -/
def Same (r s : Rule) : Prop := r.bare = s.bare

mutual

/-- Whether two rules differ in annotations at most. -/
def same : Rule → Rule → Bool
  | condition c, condition d => c.bare == d.bare
  | chain op rs, chain op' ss => op == op' && sameAll rs ss
  | _, _ => false

def sameAll : List Rule → List Rule → Bool
  | [], [] => true
  | r :: rs, s :: ss => r.same s && sameAll rs ss
  | _, _ => false

end

mutual

theorem same_iff : ∀ r s : Rule, r.same s = true ↔ r.Same s
  | condition c, condition d => by simp [same, Same]
  | chain op rs, chain op' ss => by
    have H := sameAll_iff rs ss
    simp only [same, Bool.and_eq_true, beq_iff_eq, H, Same, bare_chain, chain.injEq]
  | condition _, chain _ _ => by simp [same, Same]
  | chain _ _, condition _ => by simp [same, Same]

theorem sameAll_iff : ∀ rs ss : List Rule, sameAll rs ss = true ↔ rs.map bare = ss.map bare
  | [], [] => by simp [sameAll]
  | r :: rs, s :: ss => by simp [sameAll, same_iff r s, sameAll_iff rs ss, Same]
  | [], _ :: _ => by simp [sameAll]
  | _ :: _, [] => by simp [sameAll]

end

instance (r s : Rule) : Decidable (r.Same s) := decidable_of_iff _ (same_iff r s)

/-- The rule that matches what this one does not. The bare test of a column is turned over, all
else becomes the child of a `none` chain. -/
def negate : Rule → Rule
  | condition { column, comparison, value := .flag set, note } =>
    condition { column, comparison, value := .flag !set, note }
  | r => chain .none [r]

/-- Several rules joined by `op`: nothing for no rule, an only rule as it is. -/
def join? (op : Connective) : List Rule → Option Rule
  | [] => none
  | [r] => some r
  | rs => some (chain op rs)

end Rule
end FilterQuery
