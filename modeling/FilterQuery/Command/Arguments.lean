import FilterQuery.Command.Name
import FilterQuery.Text.Split

/-!
The arguments of the command line. Options may stand before, between and behind the other arguments,
up to a `--`. The first argument of a command is a query, which may begin with a `-` itself: a word
is taken for it that is not a known option.
-/

namespace FilterQuery

open Text

inductive Command where
  | render (query : String)
  | parse (query : String) (json : Bool)
  | check (query : String)
  | terms (query : String) (json : Bool)
  | edit (query : String) (directives : List String) (rule : Option String)
  | select (query : String) (file : Option String)
  | replay (keystrokes : String) (json : Bool)
  | suggest (query : String) (columns : List String) (json : Bool)
  deriving DecidableEq, Repr

/-- What is answered in place of running a command. -/
inductive Usage where
  /-- Help was asked for. -/
  | help
  /-- The version was asked for, among other things. -/
  | version
  /-- The arguments are not understood. -/
  | rejected
  deriving DecidableEq, Repr

namespace Command

/-- What arguments a command takes. -/
structure Shape where
  least : Nat := 1
  /-- No limit if absent. -/
  most : Option Nat := some 1
  /-- Whether what follows the query names a file, which an empty argument cannot. -/
  file : Bool := false
  json : Bool := false
  rule : Bool := false
  columns : Bool := false

/-- The arguments of a command that have been read. -/
structure Reading where
  values : List String := []
  json : Bool := false
  rule : Option String := none
  /-- All lists of columns, in order. -/
  columns : List String := []

/-- What a word is taken for. -/
inductive Role where
  | value
  /-- All words after this one are values. -/
  | separator
  | json
  | rule (attached : Option String)
  | columns (attached : Option String)
  | help
  | unknown
  deriving DecidableEq

/-- The role of an option that begins with two hyphens, from its name and what follows its `=`. -/
def Shape.option? (shape : Shape) (name : String) (attached : Option String) : Option Role :=
  let plain (role : Role) : Role := if attached.isNone then role else .unknown
  match name with
  | "help" => some (plain .help)
  | "json" => if shape.json then some (plain .json) else none
  | "rule" => if shape.rule then some (.rule attached) else none
  | "columns" => if shape.columns then some (.columns attached) else none
  | _ => none

/-- The role of a word; `first` tells whether the query is still to come. -/
def Shape.role (shape : Shape) (first : Bool) (word : String) : Role :=
  let other : Role := if first then .value else .unknown
  match word.toList with
  | ['-', '-'] => .separator
  | '-' :: '-' :: rest =>
    match splitFirst? '=' rest with
    | some (name, attached) =>
      (shape.option? (String.ofList name) (some (String.ofList attached))).getD other
    | none => (shape.option? (String.ofList rest) none).getD other
  | '-' :: c :: rest =>
    if first && (c :: rest).any (· != 'h') then .value
    else if c = 'h' then .help
    else .unknown
  | _ => .value

/-- Whether the command takes these values, even if some are still to come. -/
def Shape.admits (shape : Shape) (values : List String) : Bool :=
  shape.most.all (values.length ≤ ·) && !(shape.file && values.tail.contains "")

/-- Adds values, if the command takes them. -/
def Shape.add (shape : Shape) (r : Reading) (values : List String) : Except Usage Reading :=
  let all := r.values ++ values
  if shape.admits all then .ok { r with values := all } else .error .rejected

def Reading.setRule (r : Reading) (rule : String) : Except Usage Reading :=
  if r.rule.isSome then .error .rejected else .ok { r with rule := some rule }

/-- Reads words one after the other. What an option takes as its value is the word after it: for
`--rule` whatever that is, for `--columns` only if it could be a value by itself. -/
def Shape.read (shape : Shape) (r : Reading) : List String → Except Usage Reading
  | [] => .ok r
  | word :: words =>
    match shape.role r.values.isEmpty word with
    | .value => do shape.read (← shape.add r [word]) words
    | .separator => shape.add r words
    | .json => if r.json then .error .rejected else shape.read { r with json := true } words
    | .rule (some rule) => do shape.read (← r.setRule rule) words
    | .rule none =>
      match words with
      | [] => .error .rejected
      | rule :: words => do shape.read (← r.setRule rule) words
    | .columns (some columns) => shape.read { r with columns := r.columns ++ [columns] } words
    | .columns none =>
      match words with
      | [] => .error .rejected
      | columns :: words =>
        if shape.role r.values.isEmpty columns = .value then
          shape.read { r with columns := r.columns ++ [columns] } words
        else .error .rejected
    | .help => .error .help
    | .unknown => .error .rejected

def shape? : String → Option Shape
  | "render" | "check" => some {}
  | "parse" | "terms" | "replay" => some { json := true }
  | "edit" => some { least := 2, most := none, rule := true }
  | "match" => some { most := some 2, file := true }
  | "suggest" => some { json := true, columns := true }
  | _ => none

/-- The command of this name with the arguments that were read. -/
def ofReading (name : String) (r : Reading) : Except Usage Command :=
  match name, r.values with
  | "render", [query] => .ok (render query)
  | "parse", [query] => .ok (parse query r.json)
  | "check", [query] => .ok (check query)
  | "terms", [query] => .ok (terms query r.json)
  | "edit", query :: directives => .ok (edit query directives r.rule)
  | "match", [query] => .ok (select query none)
  | "match", [query, file] => .ok (select query (some file))
  | "replay", [keystrokes] => .ok (replay keystrokes r.json)
  | "suggest", [query] => .ok (suggest query r.columns r.json)
  | _, _ => .error .rejected

/-- The answer to a word that is no command. Of several letters behind a hyphen the first counts. -/
def withoutCommand (word : String) : Usage :=
  match word.toList with
  | '-' :: 'h' :: _ => .help
  | '-' :: 'V' :: _ => .version
  | _ => if word = "--help" then .help else if word = "--version" then .version else .rejected

/-- The command that the arguments give. -/
def ofArguments : List String → Except Usage Command
  | [] => .error .rejected
  | "help" :: [] => .error .help
  | "help" :: [name] => .error (if names.contains name then .help else .rejected)
  | "help" :: _ => .error .rejected
  | name :: words =>
    match shape? name with
    | none => .error (withoutCommand name)
    | some shape => do
      let r ← shape.read {} words
      if r.values.length < shape.least then .error .rejected else ofReading name r

/-- Whether help is among what the arguments ask for, even if they are not understood. -/
def asksForHelp (args : List String) : Bool :=
  args.isEmpty || args.contains "--help" || args.contains "-h" || args.head? == some "help"

end Command
end FilterQuery
