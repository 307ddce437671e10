import FilterQuery.Decimal.Shortest
import FilterQuery.Json.Basic

/-!
The text of a JSON value, on one line without blanks, or laid out with two blanks for each level.
-/

namespace FilterQuery.Json

def escapeChar (c : Char) : List Char :=
  if c = '"' then ['\\', '"']
  else if c = '\\' then ['\\', '\\']
  else if c = '\x08' then ['\\', 'b']
  else if c = '\x0c' then ['\\', 'f']
  else if c = '\n' then ['\\', 'n']
  else if c = '\r' then ['\\', 'r']
  else if c = '\t' then ['\\', 't']
  else if c < ' ' then
    ['\\', 'u', '0', '0', Nat.digitChar (c.toNat / 16), Nat.digitChar (c.toNat % 16)]
  else [c]

def quote (s : String) : String :=
  String.ofList ('"' :: s.toList.flatMap escapeChar ++ ['"'])

mutual

/-- The text on one line. -/
def compact : Json → String
  | null => "null"
  | bool b => if b then "true" else "false"
  | int n => toString n
  | real x => Decimal.format x
  | text s => quote s
  | list items => "[" ++ ",".intercalate (compactItems items) ++ "]"
  | object fields => "\x7b" ++ ",".intercalate (compactFields fields) ++ "\x7d"

def compactItems : List Json → List String
  | [] => []
  | j :: js => j.compact :: compactItems js

def compactFields : List (String × Json) → List String
  | [] => []
  | (name, j) :: fields => (quote name ++ ":" ++ j.compact) :: compactFields fields

end

/-- Parts on lines of their own, indented by one level more than the brackets around them. -/
def layOut (indent opening closing : String) (parts : List String) : String :=
  if parts.isEmpty then opening ++ closing
  else
    let inner := indent ++ "  "
    opening ++ "\n" ++ inner ++ (",\n" ++ inner).intercalate parts ++ "\n" ++ indent ++ closing

mutual

/-- The text over several lines; the first one is not indented. -/
def prettyAt (indent : String) : Json → String
  | list items => layOut indent "[" "]" (prettyItems (indent ++ "  ") items)
  | object fields => layOut indent "\x7b" "\x7d" (prettyFields (indent ++ "  ") fields)
  | j => j.compact

def prettyItems (indent : String) : List Json → List String
  | [] => []
  | j :: js => j.prettyAt indent :: prettyItems indent js

def prettyFields (indent : String) : List (String × Json) → List String
  | [] => []
  | (name, j) :: fields => (quote name ++ ": " ++ j.prettyAt indent) :: prettyFields indent fields

end

def pretty (j : Json) : String := j.prettyAt ""

end FilterQuery.Json
