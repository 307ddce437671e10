import FilterQuery.Text.Distance
import FilterQuery.Text.LowerCase

/-!
Candidates that match typed text without regard to case, the best ones first.
-/

namespace FilterQuery

open Text

/-- How well a candidate matches. -/
inductive Rank where
  | exact
  /-- It begins with the typed text. -/
  | start
  /-- It contains the typed text. -/
  | inner
  /-- It is within some edit distance of the typed text. -/
  | near (distance : Nat)
  deriving DecidableEq, Repr

namespace Rank

/-- Better matches have a smaller weight. -/
def weight : Rank → Nat
  | exact => 0
  | start => 1
  | inner => 2
  | near d => d + 3

/-- Whether `part` occurs in the text. -/
def occursIn (part : List Char) : List Char → Bool
  | [] => part.isEmpty
  | c :: cs => part <+: c :: cs || occursIn part cs

/-- The rank of a text in lower case. Nothing typed matches everything. -/
def ofLower? (query candidate : List Char) (maxDistance : Nat) : Option Rank :=
  if query.isEmpty || candidate == query then some exact
  else if query <+: candidate then some start
  else if occursIn query candidate then some inner
  else
    let d := distance query candidate
    if d ≤ maxDistance then some (near d) else none

def of? (query candidate : String) (maxDistance : Nat) : Option Rank :=
  ofLower? (lowerCase query).toList (lowerCase candidate).toList maxDistance

end Rank

/-- At most `limit` of the candidates that match, by rank; those of one rank stay in order. -/
def nearMatches (query : String) (candidates : List String) (maxDistance limit : Nat) :
    List String :=
  let ranked := candidates.filterMap fun c =>
    (Rank.of? query c maxDistance).map fun r => (r.weight, c)
  ((ranked.mergeSort fun a b => a.1 ≤ b.1).map (·.2)).take limit

end FilterQuery
