import FilterQuery.Text.Split

/-!
Patterns in which `*` stands for any text, possibly empty, and every other character for itself.
-/

namespace FilterQuery.Wildcard

open Text

/-- What follows the first occurrence of `part`. -/
def afterFirst? (part : List Char) : List Char → Option (List Char)
  | [] => if part.isEmpty then some [] else none
  | c :: cs =>
    if part <+: c :: cs then some ((c :: cs).drop part.length) else afterFirst? part cs

/-- Whether the parts occur in this order, the last one at the very end. Taking the first occurrence
of each leaves the most text for those after it. -/
def matchesParts : List (List Char) → List Char → Bool
  | [], _ => true
  | [last], cs => last <:+ cs
  | part :: parts, cs =>
    match afterFirst? part cs with
    | some rest => matchesParts parts rest
    | none => false

/-- Whether the text is an instance of the pattern. -/
def matchesChars (pattern text : List Char) : Bool :=
  match splitAll '*' pattern with
  | [] => false
  | [whole] => whole == text
  | first :: parts => first <+: text && matchesParts parts (text.drop first.length)

def accepts (pattern text : String) : Bool :=
  matchesChars pattern.toList text.toList

end FilterQuery.Wildcard
