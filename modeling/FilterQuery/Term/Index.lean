import FilterQuery.Query.Parse
import FilterQuery.Term.Token

/-!
The index of the terms of a query. It is made from a rule or from terms, and edited term by term;
all edits are replacements of a range. The terms of an edited index are linked to each other and to
the rule that their text stands for just as if the index had been made from them.
-/

namespace FilterQuery

/-- What one edit did to a sequence of terms. -/
structure Change where
  start : Nat
  removed : Nat
  inserted : Nat
  deriving DecidableEq, Repr

structure TermIndex where
  tokens : List Token := []
  deriving DecidableEq, Repr

namespace TermIndex

/-- Pairs the parentheses of terms that start at index `i`. `opened` are the indices of the open
ones before, the innermost first; the second result has the index of the closing one for each of
them. -/
def pairFrom (i : Nat) (opened : List Nat) : List Token → List Token × List (Option Nat)
  | [] => ([], opened.map fun _ => none)
  | t :: ts =>
    match t.kind with
    | .groupOpen =>
      let (ts', closes) := pairFrom (i + 1) (i :: opened) ts
      ({ t with counterpart := closes.head?.join } :: ts', closes.tail)
    | .groupClose =>
      match opened with
      | j :: outer =>
        let (ts', closes) := pairFrom (i + 1) outer ts
        ({ t with counterpart := some j } :: ts', some i :: closes)
      | [] =>
        let (ts', closes) := pairFrom (i + 1) [] ts
        ({ t with counterpart := none } :: ts', closes)
    | _ =>
      let (ts', closes) := pairFrom (i + 1) opened ts
      ({ t with counterpart := none } :: ts', closes)

/-- Every parenthesis linked to the one that goes with it. -/
def pair (tokens : List Token) : List Token :=
  (pairFrom 0 [] tokens).1

/-- The text of the terms. -/
def rawOf (tokens : List Token) : String :=
  String.join (tokens.map (·.raw))

/-- Whether two terms have the same text and kind. -/
def sameTerm (t u : Token) : Bool :=
  t.kind == u.kind && t.raw == u.raw

/-- The terms with the nodes and positions of `candidates`, which they are matched with in order.
Candidates without text may be passed over. From the first term without a match on, terms belong to
no node. -/
def align : List Token → (candidates : List Token) → List Token
  | [], _ => []
  | t :: ts, candidates =>
    match candidates.dropWhile fun c => c.raw.isEmpty && !sameTerm c t with
    | [] => (t :: ts).map Token.detach
    | c :: rest =>
      if sameTerm c t then
        { t with path := c.path, sourceOffset := c.sourceOffset } :: align ts rest
      else (t :: ts).map Token.detach

/-- The nodes and positions of the terms, found anew from their text. -/
def locate (tokens : List Token) : List Token :=
  align tokens (Rule.parseLenient (rawOf tokens)).1.terms

def empty : TermIndex := {}

/-- The terms of the canonical text of a rule. -/
def ofRule (r : Rule) : TermIndex := ⟨pair r.terms⟩

/-- The terms, linked to each other and to the rule that they stand for. -/
def ofTokens (tokens : List Token) : TermIndex := ⟨locate (pair tokens)⟩

def reindex (x : TermIndex) : TermIndex := ⟨locate x.tokens⟩

def size (x : TermIndex) : Nat := x.tokens.length

def raw (x : TermIndex) : String := rawOf x.tokens

/-- The rule that the terms stand for. -/
def toRule (x : TermIndex) : Except SyntaxError Rule := Rule.parse x.raw

/-- Opening parentheses without a closing one. -/
def openGroups (x : TermIndex) : Nat :=
  x.tokens.countP fun t => t.kind == .groupOpen && t.counterpart.isNone

/-- The path of the node that the term at an index spells. -/
def rulePathAt? (x : TermIndex) (i : Nat) : Option Path :=
  (x.tokens[i]?.bind (·.path)).map (·.rule)

/-- Moves a link that points to `stop` or behind it when `removed` terms in front of that make room
for `inserted` ones. -/
def shiftLink (stop removed inserted : Nat) (t : Token) : Token :=
  let moved (i : Nat) : Nat := if stop ≤ i then i + inserted - removed else i
  { t with counterpart := t.counterpart.map moved }

/-- Replaces the terms from `start` up to `stop`, as far as there are any. Links are found anew only
if a parenthesis comes or goes. -/
def splice (x : TermIndex) (start stop : Nat) (added : List Token) :
    List Token × Change × TermIndex :=
  let stop := min stop x.tokens.length
  let start := min start stop
  let removed := (x.tokens.drop start).take (stop - start)
  let tokens := x.tokens.take start ++ added ++ x.tokens.drop stop
  let linked :=
    if (added ++ removed).any (·.kind.isGrouping) then pair tokens
    else if added.length != removed.length then
      tokens.map (shiftLink stop removed.length added.length)
    else tokens
  (removed, ⟨start, removed.length, added.length⟩, ⟨locate linked⟩)

def insert (x : TermIndex) (i : Nat) (t : Token) : Change × TermIndex :=
  (x.splice i i [t]).2

def push (x : TermIndex) (t : Token) : Change × TermIndex :=
  x.insert x.size t

def remove? (x : TermIndex) (i : Nat) : Option (Token × Change × TermIndex) :=
  match x.tokens[i]? with
  | some t => some (t, (x.splice i (i + 1) []).2)
  | none => none

def pop? (x : TermIndex) : Option (Token × TermIndex) :=
  (x.remove? (x.size - 1)).map fun (t, _, y) => (t, y)

def removeRange (x : TermIndex) (start stop : Nat) : List Token × Change × TermIndex :=
  x.splice start stop []

end TermIndex
end FilterQuery
