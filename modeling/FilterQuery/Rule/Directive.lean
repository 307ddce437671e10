import FilterQuery.Rule.Edit
import FilterQuery.Text.LowerCase

/-!
The textual form of edits:

    drop-rule:<path>
    condition-before:<path>   condition-after:<path>
    chain-before:<path>       chain-after:<path>
    move-rule:<path> <placement>:<path>
    negate-rule:<path>
    chain-operator:<path>:<connective>

A directive may be joined to the next one, and `move-rule` to its target, by a `+`.
-/

namespace FilterQuery

open Text

inductive DirectiveError where
  | unknownDirective (text : String)
  | invalidPath (text : String)
  | unknownPlacement (text : String)
  | missingPlacement (path : String)
  | unknownConnective (text : String)
  deriving DecidableEq, Repr

def DirectiveError.message : DirectiveError → String
  | unknownDirective s => s!"Unknown edit directive '{s}'"
  | invalidPath s =>
    s!"Invalid rule path '{s}'. Paths are child indices joined by '-', e.g. 0-2-1"
  | unknownPlacement s => s!"Unknown placement '{s}'. Expected one of: before, after, into"
  | missingPlacement s => s!"move-rule:{s} requires a target such as after:<path>"
  | unknownConnective s => s!"Unknown chain operator '{s}'. Expected one of: and, or, not"

namespace Placement

def name : Placement → String
  | before => "before"
  | after => "after"
  | into => "into"

def ofName (s : String) : Except DirectiveError Placement :=
  match [before, after, into].find? (·.name == s) with
  | some p => pure p
  | none => throw (.unknownPlacement s)

end Placement

namespace Connective

/-- The word for the connective in a directive. -/
def word : Connective → String
  | all => "and"
  | any => "or"
  | none => "not"

/-- The connective that a word stands for, in upper or lower case. -/
def ofWord? (s : String) : Option Connective :=
  match lowerCase s with
  | "and" | "all" | "&" => some all
  | "or" | "any" | "|" => some any
  | "not" | "none" | "!" => some none
  | _ => Option.none

end Connective

def Path.parse (cs : List Char) : Except DirectiveError Path :=
  match Path.ofChars? cs with
  | some p => pure p
  | none => throw (.invalidPath (String.ofList cs))

/-- What is inserted if no rule is given. -/
def Rule.placeholder : Rule := .compare .eq "column" (.text "")

/-- The rule as a chain. -/
def Rule.asChain : Rule → Rule
  | .condition c => .chain .all [.condition c]
  | r => r

def Rule.isChain : Rule → Bool
  | .condition _ => false
  | .chain .. => true

namespace Edit

def toText : Edit → String
  | drop path => s!"drop-rule:{path.toText}"
  | insert path placement rule =>
    (if rule.isChain then "chain" else "condition") ++ s!"-{placement.name}:{path.toText}"
  | move source placement target =>
    s!"move-rule:{source.toText} {placement.name}:{target.toText}"
  | negate path => s!"negate-rule:{path.toText}"
  | setConnective path op => s!"chain-operator:{path.toText}:{op.word}"

/-- A directive other than `move-rule`, from its name and what follows the colon. -/
def ofName (payload : Rule) (name : String) (rest : List Char) :
    Except DirectiveError (Option Edit) :=
  match name with
  | "drop-rule" => do pure (drop (← Path.parse rest))
  | "condition-before" => do pure (insert (← Path.parse rest) .before payload)
  | "condition-after" => do pure (insert (← Path.parse rest) .after payload)
  | "chain-before" => do pure (insert (← Path.parse rest) .before payload.asChain)
  | "chain-after" => do pure (insert (← Path.parse rest) .after payload.asChain)
  | "negate-rule" => do pure (negate (← Path.parse rest))
  | "chain-operator" =>
    match splitLast? ':' rest with
    | none => throw (.unknownConnective (String.ofList rest))
    | some (path, word) =>
      match Connective.ofWord? (String.ofList word) with
      | none => throw (.unknownConnective (String.ofList word))
      | some op => do pure (setConnective (← Path.parse path) op)
  | _ => pure none

/-- The target of a move, and the move from `source` to it. -/
def moveTo (source : List Char) (path : Path) (target : List Char) :
    Except DirectiveError Edit :=
  match splitFirst? ':' target with
  | none => throw (.missingPlacement (String.ofList source))
  | some (placement, place) => do
    let placement ← Placement.ofName (String.ofList placement)
    pure (move path placement (← Path.parse place))

/-- The edits that a list of directives spells; a move takes the directive after it as its target.
-/
def ofParts (payload : Rule) : List (List Char) → Except DirectiveError (List Edit)
  | [] => pure []
  | part :: parts =>
    match splitFirst? ':' part with
    | none => throw (.unknownDirective (String.ofList part))
    | some (name, rest) =>
      if String.ofList name = "move-rule" then do
        let path ← Path.parse rest
        match parts with
        | [] => throw (.missingPlacement (String.ofList rest))
        | target :: parts =>
          let e ← moveTo rest path target
          pure (e :: (← ofParts payload parts))
      else do
        match ← ofName payload (String.ofList name) rest with
        | none => throw (.unknownDirective (String.ofList part))
        | some e => pure (e :: (← ofParts payload parts))

/-- The edits that command line arguments spell; `payload` is what they insert. -/
def ofArguments (args : List String) (payload : Option Rule) : Except DirectiveError (List Edit) :=
  ofParts (payload.getD Rule.placeholder) (args.flatMap fun arg => splitAll '+' arg.toList)

end Edit
end FilterQuery
