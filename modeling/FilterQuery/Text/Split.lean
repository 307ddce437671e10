import FilterQuery.Text.Blank

/-!
Cutting text at a character, and into lines. A line ends at a line feed, and a carriage return in
front of that belongs to the end. The end of the text ends a line only if there is something on it.
-/

namespace FilterQuery.Text

/-- The stretches between the occurrences of a character; one more than there are occurrences. -/
def splitAll (sep : Char) : List Char → List (List Char)
  | [] => [[]]
  | c :: cs =>
    if c = sep then [] :: splitAll sep cs
    else
      match splitAll sep cs with
      | part :: parts => (c :: part) :: parts
      | [] => [[c]]

/-- The text before and after the first occurrence. -/
def splitFirst? (sep : Char) : List Char → Option (List Char × List Char)
  | [] => none
  | c :: cs =>
    if c = sep then some ([], cs)
    else (splitFirst? sep cs).map fun (before, after) => (c :: before, after)

/-- The text before and after the last occurrence. -/
def splitLast? (sep : Char) : List Char → Option (List Char × List Char)
  | [] => none
  | c :: cs =>
    match splitLast? sep cs with
    | some (before, after) => some (c :: before, after)
    | none => if c = sep then some ([], cs) else none

theorem splitAll_ne_nil (sep : Char) (cs : List Char) : splitAll sep cs ≠ [] := by
  induction cs with
  | nil => simp [splitAll]
  | cons c cs ih =>
    rw [splitAll]
    split
    · simp
    · split <;> simp

/-- The line without a carriage return at its end. -/
def dropReturn (cs : List Char) : List Char :=
  if cs.getLast? = some '\r' then cs.dropLast else cs

/-- Lines from the stretches between line feeds, of which the last one did not end with one. -/
def linesOf : List (List Char) → List (List Char)
  | [] => []
  | [last] => if last.isEmpty then [] else [last]
  | line :: rest => dropReturn line :: linesOf rest

def lines (s : String) : List String :=
  (linesOf (splitAll '\n' s.toList)).map String.ofList

/-- The parts between commas, without the blanks around them and without blank ones. -/
def splitList (s : String) : List String :=
  (((splitAll ',' s.toList).map trim).filter (!·.isEmpty)).map String.ofList

end FilterQuery.Text
