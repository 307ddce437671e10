import FilterQuery.Editor.Basic

/-!
Typing. Symbols are committed as soon as they can be nothing else. A column or a value is committed
by the delimiter after it, and everything by an explicit commit.
-/

namespace FilterQuery.Editor

open Text

/-- Commits a term in place of the fragment. -/
def pushTerm (ed : Editor) (t : Token) : Editor :=
  let ed := { ed with fragment := "" }
  let (change, terms) := ed.terms.push t
  (ed.record change terms).cancel.clearSuggestions

/-- Commits the fragment as a column or value. -/
def commitFreeText? (ed : Editor) : Option Editor :=
  match ed.expect.freeText? with
  | some kind =>
    if ed.fragmentError.isSome then none
    else some (ed.pushTerm (.freeText kind (trimmed ed.fragment)))
  | none => none

/-- Finishes the fragment; the result tells whether it is a term, which an empty one need not be. -/
def commit (ed : Editor) : Bool × Editor :=
  if (trim ed.fragment.toList).isEmpty then (true, ({ ed with fragment := "" } : Editor).refresh)
  else if ed.expect.freeText?.isSome then
    match ed.commitFreeText? with
    | some ed => (true, ed)
    | none => (false, ed.refresh)
  else
    match exactSymbol? (trimmed ed.fragment) (ed.expect.symbols ed.openGroups) with
    | some (symbol, kind) => (true, ed.pushTerm (.symbol kind symbol))
    | none => (false, ed.refresh)

/-- The fragment becomes text that is, or begins, no symbol. -/
def refuse (ed : Editor) (fragment : String) : Editor :=
  ({ ed with fragment } : Editor).cancel.refresh

/-- The fragment becomes text that can become a term. -/
def extend (ed : Editor) (fragment : String) (now : Nat) : Editor :=
  (({ ed with fragment } : Editor).refresh).schedule now

/-- A symbol begins with `c`. -/
def beginSymbol (ed : Editor) (c : Char) (now : Nat) : Editor :=
  let text := c.toString
  match matchSymbol text (ed.expect.symbols ed.openGroups) with
  | .exact (symbol, kind) => ed.pushTerm (.symbol kind symbol)
  | .partially => ed.extend text now
  | .none => ed.refuse text

/-- A term begins with `c`, unless it is blank. -/
def beginTerm (ed : Editor) (c : Char) (now : Nat) : Editor :=
  if isBlank c then ed
  else if ed.expect.freeText?.isSome && !delimiters.contains c then ed.extend c.toString now
  else ed.beginSymbol c now

/-- Adds `c` to a symbol. If it cannot be part of it, the symbol without it is meant, and `c` begins
the next term. -/
def continueSymbol (ed : Editor) (c : Char) (now : Nat) : Editor :=
  let symbols := ed.expect.symbols ed.openGroups
  let text := ed.fragment.push c
  match matchSymbol text symbols with
  | .exact (symbol, kind) => ed.pushTerm (.symbol kind symbol)
  | .partially => ed.extend text now
  | .none =>
    match exactSymbol? ed.fragment symbols with
    | some (symbol, kind) => (ed.pushTerm (.symbol kind symbol)).beginTerm c now
    | none => ed.refuse text

/-- A delimiter after a column or value commits it and begins the next term. -/
def endFreeText (ed : Editor) (c : Char) (now : Nat) : Editor :=
  match ed.commitFreeText? with
  | some ed => ed.beginTerm c now
  | none => ({ ed with fragment := ed.fragment.push c } : Editor).refresh

def typeChar (ed : Editor) (c : Char) (now : Nat) : Editor :=
  if ed.fragment.isEmpty then ed.beginTerm c now
  else if ed.expect.freeText?.isNone then ed.continueSymbol c now
  else if delimiters.contains c then
    if (trim ed.fragment.toList).isEmpty then
      ({ ed with fragment := "" } : Editor).beginSymbol c now
    else ed.endFreeText c now
  else ed.extend (ed.fragment.push c) now

def typeText (ed : Editor) (text : String) (now : Nat) : Editor :=
  text.toList.foldl (fun ed c => ed.typeChar c now) ed

/-- Deletes the last character of the fragment, or of the last term if the fragment is empty; the
rest of that term becomes the fragment. -/
def backspace (ed : Editor) (now : Nat) : Editor :=
  let settle (ed : Editor) : Editor :=
    let ed := ed.refresh
    if ed.fragment.isEmpty then ed.cancel else ed.schedule now
  if !ed.fragment.isEmpty then
    settle { ed with fragment := String.ofList ed.fragment.toList.dropLast }
  else
    match ed.terms.remove? (ed.terms.size - 1) with
    | some (t, change, terms) =>
      let ed := ({ ed with terms, changes := ed.changes ++ [change] } : Editor).termsChanged
      settle { ed with fragment := String.ofList t.text.toList.dropLast }
    | none => ed

/-- Takes over a suggestion for the fragment. -/
def complete (ed : Editor) (s : Suggestion) : Bool × Editor :=
  ({ ed with fragment := s.search } : Editor).commit

/-- The editor loses the focus. -/
def blur (ed : Editor) : Editor :=
  ed.commit.2.cancel.clearSuggestions

inductive SubmitError where
  /-- An error is raised, or the fragment is no term here. -/
  | invalid (message : String)
  | parse (e : SyntaxError)
  deriving DecidableEq, Repr

/-- The canonical text of the query, once the fragment is committed. -/
def submit (ed : Editor) : Except SubmitError String × Editor :=
  let (done, ed) := ed.commit
  match done, ed.syntaxError with
  | false, message => (.error (.invalid (message.getD "")), ed)
  | true, some message => (.error (.invalid message), ed)
  | true, none =>
    match Rule.parse ed.query with
    | .ok r => (.ok r.render, ed)
    | .error e => (.error (.parse e), ed)

end FilterQuery.Editor
