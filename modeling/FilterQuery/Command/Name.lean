import FilterQuery.Text.LowerCase

/-!
Names of commands, which may be shortened as long as they are unambiguous.
-/

namespace FilterQuery.Command

open Text

/-- The commands, in the order in which they are listed. -/
def names : List String :=
  ["render", "parse", "check", "terms", "edit", "match", "replay", "suggest", "help"]

/-- The commands that begin with a text, in upper or lower case. -/
def matching (start : String) (commands : List String) : List String :=
  commands.filter fun c => (lowerCase start).toList <+: (lowerCase c).toList

/-- The command that a text stands for, or else the ones that it could stand for. -/
def unique (start : String) (commands : List String) : Except (List String) String :=
  match commands.find? fun c => lowerCase c == lowerCase start with
  | some c => .ok c
  | none =>
    match matching start commands with
    | [c] => .ok c
    | cs => .error cs

/-- The arguments with the command at their beginning spelled out; an error if it is ambiguous. What
is no command at all is left as it is. -/
def expand : List String → Except String (List String)
  | [] => .ok []
  | first :: rest =>
    if first.toList.head? = some '-' then .ok (first :: rest)
    else
      match unique first names with
      | .ok c => .ok (c :: rest)
      | .error [] => .ok (first :: rest)
      | .error cs =>
        .error <|
          s!"Ambiguous command '{first}'. Did you mean one of: " ++ ", ".intercalate cs ++ "?"

end FilterQuery.Command
