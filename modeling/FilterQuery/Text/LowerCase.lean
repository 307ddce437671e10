import FilterQuery.Text.LetterCase.Cased
import FilterQuery.Text.LetterCase.Ignorable
import FilterQuery.Text.LetterCase.Lower

/-!
The lower case of text by the full Unicode rules. One character has two in lower case, and a capital
sigma at the end of a word has a form of its own.
-/

namespace FilterQuery.Text

namespace LetterCase

def inRanges (ranges : List (Nat × Nat)) (n : Nat) : Bool :=
  ranges.any fun (first, last) => first ≤ n && n ≤ last

/-- Characters that are passed over in looking for the next letter with a case. -/
def isIgnorable (c : Char) : Bool :=
  if c.toNat < 0x80 then c == '\x27' || c == '.' || c == ':' || c == '^' || c == '\x60'
  else inRanges ignorableRanges c.toNat

def isCased (c : Char) : Bool :=
  if c.toNat < 0x80 then c.isAlpha else inRanges casedRanges c.toNat

/-- Whether the next character that is not passed over has a case. -/
def casedNext (cs : List Char) : Bool :=
  match cs.dropWhile isIgnorable with
  | c :: _ => isCased c
  | [] => false

/-- The lower case of a character without regard to those around it. -/
def lowerChar (c : Char) : List Char :=
  if c.toNat < 0x80 then [c.toLower]
  else if c = 'İ' then ['i', '\u0307']
  else
    match lowered.find? (·.contains c.toNat) with
    | some r => [Char.ofNat (c.toNat + r.shift).toNat]
    | none => [c]

/-- The lower case of text behind the characters `before`, of which the last one comes first. -/
def lowerFrom (before : List Char) : List Char → List Char
  | [] => []
  | c :: cs =>
    (if c = 'Σ' then if casedNext before && !casedNext cs then ['ς'] else ['σ']
      else lowerChar c) ++
      lowerFrom (c :: before) cs

end LetterCase

def lowerCase (s : String) : String :=
  String.ofList (LetterCase.lowerFrom [] s.toList)

end FilterQuery.Text
