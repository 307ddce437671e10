import FilterQuery.Suggestion.Basic
import FilterQuery.Suggestion.Near

/-!
Suggestions from a fixed list of columns and from the symbols of the language.
-/

namespace FilterQuery

structure LocalSuggestions where
  columns : List String
  /-- How many columns are suggested at most. -/
  limit : Nat

namespace LocalSuggestions

/-- Columns that are further from the typed text than this do not match. -/
def maxDistance : Nat := 2

/-- The symbols that begin with the typed text. -/
def symbolsFor (search : String) (symbols : List String) : List String :=
  symbols.filter fun s => search.toList <+: s.toList

def textsFor (s : LocalSuggestions) (r : SuggestionRequest) : List String :=
  match r.kind with
  | .column =>
    let columns := s.columns.filter fun c => !r.exclude.contains c
    nearMatches r.search columns maxDistance s.limit
  | .operator => symbolsFor r.search (Comparison.all.map (·.symbol))
  | .logical => symbolsFor r.search ["&", "|"]
  | _ => []

/-- The answer to a request. Free text that nothing matches exactly is offered itself. -/
def answer (s : LocalSuggestions) (r : SuggestionRequest) : SuggestionResponse :=
  let texts := s.textsFor r
  { items := texts.map Suggestion.ofText
    fallback :=
      if r.kind.isFreeText && r.search != "" && !texts.contains r.search then
        some (Suggestion.ofText r.search)
      else none }

end LocalSuggestions
end FilterQuery
