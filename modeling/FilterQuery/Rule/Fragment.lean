import FilterQuery.Rule.Path
import FilterQuery.Text.Percent

/-!
The canonical text of a rule, piece by piece. Every piece carries the path of the node it spells.
Parentheses stand only where precedence needs them: around an inner `all` or `any` chain of several
children, and behind the `!` of a `none` chain that has several children or whose only child is
itself written with a `!`. A chain without any condition below it is not written at all.
-/

namespace FilterQuery

open Text

inductive Fragment where
  | column (c : Condition)
  | operator (c : Condition)
  | value (c : Condition)
  | negation
  /-- The separator in front of the child at index `before`. -/
  | separator (op : Connective) (before : Nat)
  | groupOpen
  | groupClose
  deriving DecidableEq, Repr

def Value.render : Value → String
  | flag _ => ""
  | text s => Percent.encode s
  | list items => "(" ++ "|".intercalate (items.map Percent.encode) ++ ")"

def Fragment.raw : Fragment → String
  | column c => Percent.encode c.column
  | operator c => c.comparison.symbol
  | value c => c.value.render
  | negation => "!"
  | separator op _ => op.separator.toString
  | groupOpen => "("
  | groupClose => ")"

/-- The pieces of a condition. A bare test has no operator and no value. -/
def Condition.fragments (c : Condition) : List Fragment :=
  match c.value with
  | .flag true => [.column c]
  | .flag false => [.negation, .column c]
  | _ => [.column c, .operator c, .value c]

namespace Rule

mutual

/-- Whether there is no condition in the rule, so that nothing is written for it. -/
def isVacant : Rule → Bool
  | condition _ => false
  | chain _ children => allVacant children

def allVacant : List Rule → Bool
  | [] => true
  | r :: rs => r.isVacant && allVacant rs

end

theorem allVacant_eq (rs : List Rule) : allVacant rs = rs.all isVacant := by
  induction rs with
  | nil => rfl
  | cons r rs ih => simp [allVacant, ih]

/-- How many of the rules are written. -/
def visible (rs : List Rule) : Nat :=
  rs.countP (!·.isVacant)

mutual

/-- Whether the text of the rule begins with a `!` of its own. A chain with one visible child is
written as that child. -/
def opensNegated : Rule → Bool
  | condition _ => false
  | chain .none _ => true
  | chain _ children => visible children == 1 && anyOpensNegated children

/-- Whether one of the visible rules does. -/
def anyOpensNegated : List Rule → Bool
  | [] => false
  | r :: rs => (!r.isVacant && r.opensNegated) || anyOpensNegated rs

end

/-- Whether the children of a `none` chain stand in parentheses. -/
def needsGroup (children : List Rule) : Bool :=
  2 ≤ visible children || (visible children == 1 && anyOpensNegated children)

/-- Pieces written for a node, seen from its parent. -/
def beneath (i : Nat) (fs : List (Path × Fragment)) : List (Path × Fragment) :=
  fs.map fun (path, f) => (i :: path, f)

def enclose (group : Bool) (fs : List (Path × Fragment)) : List (Path × Fragment) :=
  if group then ([], .groupOpen) :: fs ++ [([], .groupClose)] else fs

mutual

/-- The pieces of a rule. As an operand it is put into parentheses where that is needed for it to
stand beside others. -/
def write (operand : Bool) : Rule → List (Path × Fragment)
  | condition c => c.fragments.map ([], ·)
  | chain .none children =>
    ([], .negation) ::
      enclose (needsGroup children) (writeChildren true .any false 0 children)
  | chain op children =>
    let several : Bool := 2 ≤ visible children
    enclose (operand && several) (writeChildren (operand || several) op false 0 children)

/-- The pieces of children from index `i` on, with separators; `follows` tells whether one has been
written before. -/
def writeChildren (operand : Bool) (op : Connective) (follows : Bool) (i : Nat) :
    List Rule → List (Path × Fragment)
  | [] => []
  | r :: rs =>
    if r.isVacant then writeChildren operand op follows (i + 1) rs
    else
      (if follows then [([], .separator op i)] else []) ++ beneath i (r.write operand) ++
        writeChildren operand op true (i + 1) rs

end

/-- The pieces of the canonical text in order, each with the path of the node it spells. -/
def fragments (r : Rule) : List (Path × Fragment) :=
  if r.isVacant then [] else r.write false

/-- The canonical text. -/
def render (r : Rule) : String :=
  String.join (r.fragments.map (·.2.raw))

end Rule
end FilterQuery
