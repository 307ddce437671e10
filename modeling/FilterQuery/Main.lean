import FilterQuery.Command.Run

/-!
The command line program.
-/

namespace FilterQuery

def usageText : String :=
  "Filter query toolkit - parse, render, edit and evaluate boolean filter expressions

Usage: filterq <COMMAND>

Commands:
  render <QUERY>                              Print the canonical form of a filter
  parse <QUERY> [--json]                      Print the rule tree of a filter
  check <QUERY>                               Check a filter for syntax errors
  terms <QUERY> [--json]                      List the terms of a filter's canonical form
  edit <QUERY> <DIRECTIVES>... [--rule RULE]  Apply edit directives and print the result
  match <QUERY> [FILE]                        Print the JSON-lines records that match a filter
  replay <KEYSTROKES> [--json]                Feed keystrokes into a term editor
  suggest <PARTIAL> [--columns NAMES] [--json]
                                              Suggest completions for a partial query
  help                                        Print this message

Options:
  -h, --help     Print help
  -V, --version  Print version
"

def readState (path : String) : IO FileState := do
  try return .text (← IO.FS.readFile path)
  catch
    | .noFileOrDirectory .. => return .absent
    | _ => return .unreadable

/-- The names of the files that a command line may look at. -/
def filesFor (config : Option String) (args : List String) : List String :=
  config.toList ++
    match (Command.expand args).toOption.map Command.ofArguments with
    | some (.ok (.select _ (some file))) => [file]
    | _ => []

/-- Whether the command reads standard input. -/
def readsInput (args : List String) : Bool :=
  match (Command.expand args).toOption.map Command.ofArguments with
  | some (.ok (.select _ none)) => true
  | _ => false

def surroundings (args : List String) : IO Surroundings := do
  let env ← ["FILTERQ_RC", "HOME", "COLUMNS"].filterMapM fun name => do
    return (← IO.getEnv name).map (name, ·)
  let bare : Surroundings :=
    { environment := fun name => env.lookup name, file := fun _ => .absent, input := .absent }
  let files ← (filesFor bare.configPath? args).mapM fun path => return (path, ← readState path)
  let input ←
    if readsInput args then
      try pure (FileState.text (← (← IO.getStdin).readToEnd))
      catch _ => pure .unreadable
    else pure (.text "")
  return { bare with file := fun path => (files.lookup path).getD .absent, input }

/-- Runs one command line. -/
def runCommandLine (args : List String) : IO UInt32 := do
  match answer (← surroundings args) args with
  | .usage .help status =>
    IO.print usageText
    return status.toUInt32
  | .usage .version status =>
    IO.println version
    return status.toUInt32
  | .usage .rejected status =>
    IO.eprint usageText
    return status.toUInt32
  | .report r =>
    for warning in r.warnings do IO.eprintln warning
    IO.print r.output
    IO.eprint r.errors
    return r.status.toUInt32

end FilterQuery

def main (args : List String) : IO UInt32 := FilterQuery.runCommandLine args
