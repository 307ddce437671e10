import FilterQuery.Rule.Basic
import FilterQuery.Text.Digit
import FilterQuery.Text.Split

/-!
Paths name the nodes of a rule by child indices from the root. They are written with a `-` between
the indices; the root's path is written as the empty text.
-/

namespace FilterQuery

open Text

abbrev Path := List Nat

namespace Rule

/-- The node that a path names. -/
def get? : Rule → Path → Option Rule
  | r, [] => some r
  | condition _, _ :: _ => none
  | chain _ children, i :: path =>
    match children[i]? with
    | some r => r.get? path
    | none => none

/-- The rule with the node at a path replaced by what `f` makes of it; `none` if there is no such
node or `f` refuses it. -/
def modify? (f : Rule → Option Rule) : Rule → Path → Option Rule
  | r, [] => f r
  | condition _, _ :: _ => none
  | chain op children, i :: path =>
    match children[i]? with
    | some r => (modify? f r path).map fun r' => chain op (children.set i r')
    | none => none

@[simp] theorem get?_nil (r : Rule) : r.get? [] = some r := by
  cases r <;> rfl

end Rule

namespace Path

def toText (p : Path) : String :=
  "-".intercalate (p.map toString)

/-- The path that the text spells. An index is a number of 64 bits. -/
def ofChars? (cs : List Char) : Option Path :=
  if cs.isEmpty then some [] else (splitAll '-' cs).mapM readWord?

/-- Where a node is found once the node at `removed` is gone: the later siblings of that node move
up by one. -/
def afterRemoval : (removed target : Path) → Path
  | [i], j :: target => if i < j then (j - 1) :: target else j :: target
  | i :: removed, j :: target => if i = j then j :: afterRemoval removed target else j :: target
  | _, target => target

end Path
end FilterQuery
