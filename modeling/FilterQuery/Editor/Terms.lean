import FilterQuery.Editor.Basic

/-!
Changes of committed terms, and suggestions. Each change is recorded as one, however many terms it
moves.
-/

namespace FilterQuery.Editor

open Text

def insert (ed : Editor) (i : Nat) (t : Token) : Change × Editor :=
  let (change, terms) := ed.terms.insert i t
  (change, ed.record change terms)

def remove? (ed : Editor) (i : Nat) : Option (Token × Editor) :=
  (ed.terms.remove? i).map fun (t, change, terms) => (t, ed.record change terms)

def removeRange (ed : Editor) (start stop : Nat) : List Token × Editor :=
  let (removed, change, terms) := ed.terms.removeRange start stop
  (removed, ed.record change terms)

/-- Replaces the term at an index by one of the same kind, if that is legal there. Otherwise the
error is raised. -/
def replaceTerm (ed : Editor) (i : Nat) (text : String) : Except String Change × Editor :=
  match ed.terms.tokens[i]? with
  | none => (.error (ed.messages.expectedTerm "term"), ed)
  | some t =>
    match ed.validateTerm i t.kind text with
    | some error => (.error error, { ed with syntaxError := some error })
    | none =>
      let added :=
        if t.kind.isFreeText then Token.freeText t.kind (trimmed text) else .symbol t.kind text
      let (_, change, terms) := ed.terms.splice i (i + 1) [added]
      (.ok change, ed.record change terms)

/-- Puts the terms of a range into a group. -/
def wrapInGroup? (ed : Editor) (start stop : Nat) : Option (Change × Editor) :=
  if stop ≤ start || ed.terms.size < stop then none
  else
    let inner := (ed.terms.tokens.drop start).take (stop - start)
    let added := Token.symbol .groupOpen "(" :: inner ++ [.symbol .groupClose ")"]
    let (_, change, terms) := ed.terms.splice start stop added
    some (change, ed.record change terms)

def isNegation (t : Token) : Bool := t.kind == .logical && t.raw == "!"

/-- Whether there is a negation in front of an index. -/
def negatedBefore (tokens : List Token) : Nat → Bool
  | 0 => false
  | i + 1 => tokens[i]?.any isNegation

/-- Puts a negation in front of the group that opens at an index, or takes it away. -/
def negateGroup? (ed : Editor) (i : Nat) : Option (Change × Editor) :=
  match ed.terms.tokens[i]? with
  | some { kind := .groupOpen, .. } =>
    let (change, terms) :=
      if negatedBefore ed.terms.tokens i then (ed.terms.splice (i - 1) i []).2
      else ed.terms.insert i (.symbol .logical "!")
    some (change, ed.record change terms)
  | _ => none

/-- Sends the request for suggestions that waits, if its quiet period is over. -/
def poll? (ed : Editor) (now : Nat) : Option (Nat × SuggestionRequest × Editor) :=
  (ed.session.poll? now).map fun (version, request, session) =>
    (version, request, { ed with session })

/-- How a request for suggestions ended. -/
inductive Outcome where
  | response (r : SuggestionResponse)
  /-- The editor itself gave up the request. -/
  | aborted
  | failed (reason : String)

/-- Takes in the outcome of the request that was sent under a version; the result tells whether it
is shown. -/
def receive (ed : Editor) (version : Nat) (outcome : Outcome) : Bool × Editor :=
  match ed.session.complete? version with
  | none => (false, ed)
  | some session =>
    let ed := { ed with session }
    match outcome with
    | .response r =>
      (true, { ed with notice := none, suggestions := r.items, fallback := r.fallback })
    | .aborted => (false, ed)
    | .failed _ =>
      (true, { ed.clearSuggestions with notice := some ed.messages.noSuggestions })

/-- Sends the request that waits to a source that answers at once. -/
def fetch (ed : Editor) (source : SuggestionRequest → SuggestionResponse) (now : Nat) :
    Bool × Editor :=
  match ed.poll? now with
  | some (version, request, ed) => ed.receive version (.response (source request))
  | none => (false, ed)

/-- A summary over several lines. -/
def describe (ed : Editor) : String :=
  let terms := ed.terms.tokens.map fun t => t.kind.name ++ ":" ++ t.raw
  let status :=
    match ed.syntaxError with
    | some message => s!"invalid ({message})"
    | none => "valid"
  "\n".intercalate
    ["terms: " ++ " ".intercalate terms, "fragment: " ++ ed.fragment,
      "expect: " ++ ed.expect.kind.name, "status: " ++ status, "query: " ++ ed.query]

end FilterQuery.Editor
