/-!
The wording shown to users, apart from the rules that choose it.
-/

namespace FilterQuery

structure Messages where
  /-- Two operands stand side by side. -/
  expectedConnective : String
  /-- Groups and negations nest deeper than this limit. -/
  nestingTooDeep (limit : Nat) : String
  /-- The terms that would be legal next. -/
  typeOneOf (candidates : List String) : String
  /-- A term that may not be empty. -/
  expectedTerm (kind : String) : String
  /-- The source of suggestions failed. -/
  noSuggestions : String

namespace Messages

def standard : Messages where
  expectedConnective := "Expected logical operator"
  nestingTooDeep limit := s!"Groups and negations nest at most {limit} deep"
  typeOneOf candidates := "please type one of: " ++ ", ".intercalate candidates
  expectedTerm kind := s!"please type a {kind}"
  noSuggestions := "No suggestions available"

/-- Wording for narrow displays. -/
def terse : Messages where
  expectedConnective := "need & or |"
  nestingTooDeep limit := s!"max {limit}"
  typeOneOf candidates := "one of " ++ " ".intercalate candidates
  expectedTerm kind := s!"need {kind}"
  noSuggestions := "nothing"

end Messages
end FilterQuery
