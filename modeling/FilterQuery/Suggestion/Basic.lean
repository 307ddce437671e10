import FilterQuery.Term.Token

/-!
What an editor asks a source of suggestions, and what it gets.
-/

namespace FilterQuery

structure SuggestionRequest where
  /-- The text that is being typed. -/
  search : String
  label : String
  kind : TokenKind
  /-- The column that a value is compared with. -/
  column : Option String := none
  /-- Terms to be left out. -/
  exclude : List String := []
  deriving DecidableEq, Repr

structure Suggestion where
  search : String
  label : String
  /-- Further fields, which are handed through. -/
  extra : List (String × Json) := []

structure SuggestionResponse where
  items : List Suggestion
  /-- Offered when nothing matches exactly. -/
  fallback : Option Suggestion := none

namespace SuggestionRequest

def toJson (r : SuggestionRequest) : Json :=
  .object <|
    ("term", .object
      [("search", .text r.search), ("label", .text r.label), ("type", .text r.kind.name)]) ::
    presentFields
      [("column", r.column.map .text),
        ("exclude", if r.exclude.isEmpty then none else some (.ofTexts r.exclude))]

end SuggestionRequest

namespace Suggestion

def ofText (s : String) : Suggestion := { search := s, label := s }

def toJson (s : Suggestion) : Json :=
  .object ([("search", .text s.search), ("label", .text s.label)] ++ s.extra)

def ofJson? : Json → Option Suggestion
  | .object fields => do
    let search ← (← fields.lookup "search").asText?
    let label ← (← fields.lookup "label").asText?
    let extra := fields.filter fun (name, _) => name != "search" && name != "label"
    some { search, label, extra }
  | _ => none

/-- The text to be typed, with the label behind it if that is different. -/
def toText (s : Suggestion) : String :=
  if s.label = s.search then s.search else s.search ++ "\t" ++ s.label

end Suggestion

namespace SuggestionResponse

def toJson (r : SuggestionResponse) : Json :=
  .object <| ("items", .list (r.items.map Suggestion.toJson)) ::
    presentFields [("default", r.fallback.map Suggestion.toJson)]

/-- A line for each suggestion. -/
def toText (r : SuggestionResponse) : String :=
  let lines := r.items.map Suggestion.toText ++
    (r.fallback.map fun s => s.search ++ " (default)").toList
  if lines.isEmpty then "No suggestions." else "\n".intercalate lines

end SuggestionResponse
end FilterQuery
