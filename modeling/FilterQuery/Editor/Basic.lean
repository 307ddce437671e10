import FilterQuery.Suggestion.Session
import FilterQuery.Term.Expect
import FilterQuery.Term.Index

/-!
An editor builds a query term by term. It holds the terms that are committed, the fragment that is
being typed, and a session that asks for suggestions. Text that cannot be the next term is kept and
raises an error, which stands in the way of submitting and of nothing else.
-/

namespace FilterQuery

structure Editor where
  terms : TermIndex := {}
  fragment : String := ""
  /-- The error that is raised at present. -/
  syntaxError : Option String := none
  session : Session := {}
  suggestions : List Suggestion := []
  fallback : Option Suggestion := none
  /-- Shown in place of suggestions. -/
  notice : Option String := none
  /-- What was done to the terms, the oldest change first. -/
  changes : List Change := []
  messages : Messages := .standard
  /-- The groups that the terms leave open. -/
  openGroups : Nat := 0
  /-- The first error among the terms. -/
  termsError : Option String := none

/-- What typed text has to be here. -/
def Expect.hint (m : Messages) (e : Expect) (openGroups : Nat) : String :=
  let symbols := m.typeOneOf ((e.symbols openGroups).map (·.1))
  match e.freeText? with
  | some kind => s!"{m.expectedTerm kind.name} / {symbols}"
  | none => symbols

/-- Why `text` is no term of this kind here, if it is none. A value may be empty, a column may not.
-/
def Expect.check (m : Messages) (e : Expect) (openGroups : Nat) (kind : TokenKind)
    (text : String) : Option String :=
  if kind.isFreeText then
    match e.freeText? with
    | some expected =>
      if expected = kind && !(kind = .column && (Text.trimmed text).isEmpty) then none
      else some (m.expectedTerm expected.name)
    | none => some (e.hint m openGroups)
  else
    match exactSymbol? text (e.symbols openGroups) with
    | some (_, found) => if found = kind then none else some (e.hint m openGroups)
    | none => some (e.hint m openGroups)

/-- The first error among terms that stand where `e` is expected in so many open groups. -/
def Expect.firstError (m : Messages) (e : Expect) (depth : Nat) : List Token → Option String
  | [] => none
  | t :: ts =>
    match e.check m depth t.kind t.text with
    | some error => some error
    | none => (Expect.afterKind (some t.kind)).firstError m (depthAfter depth t.kind) ts

namespace Editor

/-- What the next term has to be. -/
def expect (ed : Editor) : Expect := .after ed.terms.tokens

/-- The committed terms as a query. -/
def query (ed : Editor) : String := ed.terms.raw

/-- The first error among the committed terms. -/
def validate (ed : Editor) : Option String :=
  Expect.column.firstError ed.messages 0 ed.terms.tokens

/-- Why `text` is no term of this kind at an index. -/
def validateTerm (ed : Editor) (i : Nat) (kind : TokenKind) (text : String) : Option String :=
  let before := ed.terms.tokens.take i
  (Expect.after before).check ed.messages (FilterQuery.openGroups before) kind text

/-- The error in the fragment. Free text begins with a delimiter only if that is no symbol here. -/
def fragmentError (ed : Editor) : Option String :=
  match ed.fragment.toList with
  | [] => none
  | c :: _ =>
    if ed.expect.freeText?.isSome then
      if delimiters.contains c then some (ed.expect.hint ed.messages ed.openGroups) else none
    else
      match matchSymbol ed.fragment (ed.expect.symbols ed.openGroups) with
      | .none => some (ed.expect.hint ed.messages ed.openGroups)
      | _ => none

/-- Brings up to date what depends on the terms alone. -/
def termsChanged (ed : Editor) : Editor :=
  { ed with
    openGroups := FilterQuery.openGroups ed.terms.tokens
    termsError := ed.validate }

def refresh (ed : Editor) : Editor :=
  { ed with syntaxError := ed.termsError.or ed.fragmentError }

/-- Takes over the terms after a change. -/
def record (ed : Editor) (change : Change) (terms : TermIndex) : Editor :=
  ({ ed with terms, changes := ed.changes ++ [change] } : Editor).termsChanged.refresh

/-- An editor of the terms of a rule. -/
def ofRule (r : Rule) : Editor :=
  ({ terms := (TermIndex.ofRule r).reindex } : Editor).termsChanged.refresh

def ofQuery (query : String) : Except SyntaxError Editor :=
  ofRule <$> Rule.parse query

def withDebounce (ed : Editor) (debounce : Nat) : Editor :=
  { ed with session := { debounce } }

def withMessages (ed : Editor) (messages : Messages) : Editor :=
  ({ ed with messages } : Editor).termsChanged.refresh

/-- The changes since the last call. -/
def takeChanges (ed : Editor) : List Change × Editor :=
  (ed.changes, { ed with changes := [] })

/-- The rule of the committed terms, as far as they make one. -/
def rule (ed : Editor) : Rule × Option SyntaxError := Rule.parseLenient ed.query

/-- The terms of the canonical text. -/
def reindexed (ed : Editor) : TermIndex := .ofRule ed.rule.1

/-- What suggestions are asked for at present. -/
def suggestionRequest (ed : Editor) : SuggestionRequest :=
  let search := Text.trimmed ed.fragment
  let column :=
    match ed.expect with
    | .value => (ed.terms.tokens.findRev? (·.kind == .column)).map Token.text
    | _ => none
  { search, label := search, kind := ed.expect.kind, column }

def schedule (ed : Editor) (now : Nat) : Editor :=
  { ed with session := ed.session.schedule ed.suggestionRequest now }

def cancel (ed : Editor) : Editor :=
  { ed with session := ed.session.cancel }

def clearSuggestions (ed : Editor) : Editor :=
  { ed with suggestions := [], fallback := none }

end Editor
end FilterQuery
