import FilterQuery.Text.Digit
import FilterQuery.Text.LowerCase
import FilterQuery.Text.Split

/-!
The user's configuration: lines of a key, a `=` and a value, in which `#` begins a comment. A line
that sets nothing is passed over with a warning. Of several lines for one key the last valid one
counts.
-/

namespace FilterQuery

open Text

structure Config where
  /-- The quiet period before suggestions are asked for, in milliseconds. -/
  debounce : Nat := 250
  suggestLimit : Nat := 10
  /-- The columns that are suggested. -/
  columns : List String := []
  /-- Whether output is JSON by default. -/
  json : Bool := false
  deriving DecidableEq, Repr

/-- What one line sets. -/
inductive Setting where
  | debounce (ms : Nat)
  | suggestLimit (n : Nat)
  | columns (names : List String)
  | json (b : Bool)
  deriving DecidableEq, Repr

def Setting.apply (config : Config) : Setting → Config
  | debounce ms => { config with debounce := ms }
  | suggestLimit n => { config with suggestLimit := n }
  | columns names => { config with columns := names }
  | json b => { config with json := b }

inductive ConfigLine where
  /-- A blank line or a comment. -/
  | skipped
  | setting (s : Setting)
  | withoutEquals
  | unknownKey (key : String)
  | invalidValue (key value : String)
  deriving DecidableEq, Repr

namespace ConfigLine

def readBool? (s : String) : Option Bool :=
  match lowerCase s with
  | "true" | "yes" | "on" | "1" => some true
  | "false" | "no" | "off" | "0" => some false
  | _ => none

def ofKey (key value : String) : ConfigLine :=
  let valid (s : Option Setting) : ConfigLine :=
    match s with
    | some s => setting s
    | none => invalidValue key value
  match key with
  | "editor.debounce_ms" => valid ((readWord? value.toList).map .debounce)
  | "suggest.limit" => valid ((readWord? value.toList).map .suggestLimit)
  | "suggest.columns" => setting (.columns (splitList value))
  | "output.json" => valid ((readBool? value).map .json)
  | _ => unknownKey key

def ofString (line : String) : ConfigLine :=
  match trim line.toList with
  | [] => skipped
  | '#' :: _ => skipped
  | cs =>
    match splitFirst? '=' cs with
    | none => withoutEquals
    | some (key, value) => ofKey (String.ofList (trim key)) (String.ofList (trim value))

def setting? : ConfigLine → Option Setting
  | setting s => some s
  | _ => none

/-- What is wrong with the line. -/
def problem? : ConfigLine → Option String
  | skipped | setting _ => none
  | withoutEquals => some "ignoring line without '='"
  | unknownKey key => some s!"unknown key '{key}'"
  | invalidValue key value => some s!"invalid value '{value}' for {key}"

/-- The warning for the line with this number in the file `origin`. -/
def warning? (origin : String) (number : Nat) (line : ConfigLine) : Option String :=
  line.problem?.map fun problem => s!"{origin}:{number}: {problem}"

end ConfigLine

namespace Config

def readLines (content : String) : List ConfigLine :=
  (lines content).map ConfigLine.ofString

/-- The configuration that a file has. -/
def parse (content : String) : Config :=
  ((readLines content).filterMap ConfigLine.setting?).foldl Setting.apply {}

/-- The warnings about a file, in the order of its lines. -/
def warnings (origin content : String) : List String :=
  ((readLines content).mapIdx fun i line => line.warning? origin (i + 1)).filterMap id

end Config
end FilterQuery
