import FilterQuery.Rule.Path

/-!
The outline of a rule: a line for each node, indented by its depth, with its path in front.
-/

namespace FilterQuery

def Connective.title : Connective → String
  | all => "ALL"
  | any => "ANY"
  | none => "NONE"

def Condition.describe (c : Condition) : String :=
  match c.value with
  | .flag true => c.displayColumn
  | .flag false => "!" ++ c.displayColumn
  | .text s => s!"{c.displayColumn} {c.comparison.symbol} {s}"
  | .list items => s!"{c.displayColumn} {c.comparison.symbol} (" ++ " | ".intercalate items ++ ")"

namespace Rule

/-- A line for the node at `path`. -/
def outlineLine (path : Path) (text : String) : String :=
  String.join (path.map fun _ => "  ") ++
    "[" ++ (if path.isEmpty then "root" else path.toText) ++ "] " ++ text

mutual

def outlineLines (path : Path) : Rule → List String
  | condition c => [outlineLine path c.describe]
  | chain op children => outlineLine path op.title :: childLines path 0 children

def childLines (path : Path) (i : Nat) : List Rule → List String
  | [] => []
  | r :: rs => r.outlineLines (path ++ [i]) ++ childLines path (i + 1) rs

end

def outline (r : Rule) : String :=
  "\n".intercalate (r.outlineLines [])

end Rule
end FilterQuery
