import FilterQuery.Command.Arguments
import FilterQuery.Config
import FilterQuery.Editor.Terms
import FilterQuery.Editor.Typing
import FilterQuery.Json.Printer
import FilterQuery.Json.Reader
import FilterQuery.Rule.Directive
import FilterQuery.Rule.Match
import FilterQuery.Rule.Outline
import FilterQuery.Suggestion.Local
import FilterQuery.Term.Table

/-!
What a command prints, as a function of its arguments and of what it finds around it.
-/

namespace FilterQuery

open Text

inductive FileState where
  | absent
  | unreadable
  | text (content : String)
  deriving DecidableEq

/-- What a command can see besides its arguments. -/
structure Surroundings where
  /-- Environment variables. -/
  environment : String → Option String
  file : String → FileState
  /-- Standard input. -/
  input : FileState

/-- Why a command stops. -/
inductive Failure where
  /-- The arguments are to blame. -/
  | user (message : String)
  /-- Something around the command is. -/
  | internal (message : String)
  /-- The output cannot be laid out. -/
  | layout (message : String)
  deriving DecidableEq, Repr

/-- What a command has printed, and why it stopped before its end, if it did. -/
structure Report where
  output : String := ""
  failure : Option Failure := none
  /-- About the configuration. -/
  warnings : List String := []
  deriving DecidableEq, Repr

inductive Answer where
  | report (r : Report)
  /-- Nothing was run; `status` is the exit status. -/
  | usage (u : Usage) (status : Nat)
  deriving DecidableEq, Repr

/-- The text of a field: a string as it is, and no text for `null`. Every other value is written as
JSON. -/
def Json.fieldText? : Json → Option String
  | null => none
  | text s => some s
  | j => some j.compact

/-- The fields of an object. -/
def Json.record (j : Json) : Record := fun column => (j.get? column).bind fieldText?

namespace Report

def status (r : Report) : Nat :=
  match r.failure with
  | none => 0
  | some (.user _) => 1
  | some (.internal _) => 2
  | some (.layout _) => 101

/-- The text for standard error, warnings apart. -/
def errors (r : Report) : String :=
  match r.failure with
  | none => ""
  | some (.user message) => s!"Error: {message}\n"
  | some (.internal message) => s!"Internal error: {message}\n"
  | some (.layout message) => s!"{message}\n"

end Report

namespace Surroundings

def configPath? (s : Surroundings) : Option String :=
  match s.environment "FILTERQ_RC" with
  | some path => some path
  | none => (s.environment "HOME").map (· ++ "/.filterq/rc")

/-- The configuration and the warnings about it. Without a file there are defaults. -/
def config (s : Surroundings) : Except Failure (Config × List String) :=
  match s.configPath? with
  | none => .ok ({}, [])
  | some path =>
    match s.file path with
    | .absent => .ok ({}, [])
    | .unreadable => .error (.internal s!"Failed to read config file: {path}")
    | .text content => .ok (Config.parse content, Config.warnings path content)

/-- The width of the display. -/
def width (s : Surroundings) : Nat :=
  match (s.environment "COLUMNS").bind fun columns => readWord? columns.toList with
  | some n => if 0 < n && n < 10000 then n else 120
  | none => 120

end Surroundings

namespace Command

/-- A query from the command line. -/
def parseQuery (query : String) : Except Failure Rule :=
  (Rule.parse query).mapError fun e => .user (e.message .standard)

/-- Output with its last line ended. -/
def printed (text : Except Failure String) : Report :=
  match text with
  | .ok s => { output := s ++ "\n" }
  | .error failure => { failure := some failure }

def printedAs (json : Bool) (value : α) (structured : α → Json) (plain : α → String) : String :=
  if json then (structured value).pretty else plain value

/-- Prints the records among the lines, of which the first one has this number, that the rule
accepts; up to the first line that is no record. -/
def selectLines (rule : Rule) (number : Nat) : List String → Report
  | [] => {}
  | line :: lines =>
    if (trim line.toList).isEmpty then selectLines rule (number + 1) lines
    else
      match Json.parse? line with
      | some (.object fields) =>
        let rest := selectLines rule (number + 1) lines
        if rule.accepts (Json.object fields).record then
          { rest with output := line ++ "\n" ++ rest.output }
        else rest
      | _ =>
        { failure := some (.internal s!"Failed to parse JSON record on line {number}") }

def runSelect (s : Surroundings) (query : String) (file : Option String) : Report :=
  match parseQuery query with
  | .error failure => { failure := some failure }
  | .ok rule =>
    match (file.map s.file).getD s.input with
    | .absent =>
      { failure := some (.internal ("Failed to open input file: " ++ file.getD "")) }
    | .unreadable => { failure := some (.internal "Failed to read input") }
    | .text content => selectLines rule 1 (lines content)

/-- The editor after typing; a comma and a line feed commit what has been typed. -/
def replayed (config : Config) (keystrokes : String) : Editor :=
  keystrokes.toList.foldl
    (fun ed c => if c = ',' ∨ c = '\n' then ed.commit.2 else ed.typeChar c 0)
    (({} : Editor).withDebounce config.debounce)

def editorJson (ed : Editor) : Json :=
  .object <|
    [("terms", .list (ed.terms.tokens.map Token.toJson)), ("fragment", .text ed.fragment),
      ("expect", .text ed.expect.kind.name), ("valid", .bool ed.syntaxError.isNone)] ++
    presentFields [("error", ed.syntaxError.map .text)] ++ [("query", .text ed.query)]

/-- Suggestions for what is being typed at the end of the query. Columns that occur in it are not
suggested again. -/
def suggestions (config : Config) (query : String) (columns : List String) :
    Except Failure SuggestionResponse :=
  let ed := replayed config query
  match ed.syntaxError with
  | some message => .error (.user message)
  | none =>
    let used := (ed.terms.tokens.filter (·.kind == .column)).map (·.label)
    let columns := if columns.isEmpty then config.columns else columns.flatMap splitList
    .ok (({ columns, limit := config.suggestLimit } : LocalSuggestions).answer
      { ed.suggestionRequest with exclude := used })

def runEdit (query : String) (directives : List String) (rule : Option String) :
    Except Failure String := do
  let root ← parseQuery query
  let payload ← rule.mapM parseQuery
  let edits ← (Edit.ofArguments directives payload).mapError fun e => .user e.message
  pure (Edit.applyAll edits root).render

/-- The terms of a query in a table as wide as the display. -/
def termTable (s : Surroundings) (x : TermIndex) : Except Failure String :=
  match x.table? s.width with
  | some text => .ok text
  | none => .error (.layout "Formatting argument out of range")

def run (s : Surroundings) (config : Config) : Command → Report
  | render query => printed ((parseQuery query).map Rule.render)
  | parse query json =>
    printed ((parseQuery query).map fun r =>
      printedAs (json || config.json) r Rule.toJson Rule.outline)
  | check query => printed ((parseQuery query).map fun _ => "OK")
  | terms query json =>
    printed ((parseQuery query).bind fun r =>
      let x := TermIndex.ofRule r
      if json || config.json then .ok (Json.list (x.tokens.map Token.toJson)).pretty
      else termTable s x)
  | edit query directives rule => printed (runEdit query directives rule)
  | select query file => runSelect s query file
  | replay keystrokes json =>
    printed (.ok (printedAs (json || config.json) (replayed config keystrokes) editorJson
      Editor.describe))
  | suggest query columns json =>
    printed ((suggestions config query columns).map fun r =>
      printedAs (json || config.json) r SuggestionResponse.toJson SuggestionResponse.toText)

end Command

def version : String := "filterq 0.4.1"

/-- The answer to a command line. -/
def answer (s : Surroundings) (args : List String) : Answer :=
  if args.head? = some "--version" ∨ args.head? = some "-V" then
    .report (Command.printed (.ok version))
  else
    match Command.expand args with
    | .error message => .report { failure := some (.user message) }
    | .ok args =>
      match Command.ofArguments args with
      | .error usage => .usage usage (if Command.asksForHelp args then 0 else 1)
      | .ok command =>
        match s.config with
        | .error failure => .report { failure := some failure }
        | .ok (config, warnings) => .report { command.run s config with warnings }

end FilterQuery
