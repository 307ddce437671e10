import FilterQuery.Proofs.Query.Connectives
import FilterQuery.Proofs.Query.Derivation

/-!
Reading a query by descent. A part of a query is read by reading the parts that it is made of, and
a counter is kept of the groups and negations that are open: it goes up at a `!` and at a `(`, and
down where the operand that begins there ends or turns out to be wrong. So the counter is the same
behind a part as in front of it, and it is never above the limit.
-/

namespace FilterQuery
namespace Parse

/-! ### Cursors -/

/-- What is left of a query, and how many groups and negations are open there. -/
structure Cursor where
  rest : List Occurrence
  nesting : Nat := 0
  /-- The most that have been open at once so far. -/
  deepest : Nat := 0
  deriving Repr

namespace Cursor

/-- Further on in the query. -/
def goOn (c : Cursor) (rest : List Occurrence) : Cursor := { c with rest }

/-- Behind a `!` or a `(`. -/
def enter (c : Cursor) (rest : List Occurrence) : Cursor :=
  ⟨rest, c.nesting + 1, max c.deepest (c.nesting + 1)⟩

/-- The innermost group or negation ends. -/
def leave (c : Cursor) : Cursor := { c with nesting := c.nesting - 1 }

/-- Connectives in front of an operand are skipped, and so is a `)` outside of all groups. -/
def skipMarks (depth : Nat) (c : Cursor) : Cursor :=
  c.goOn (c.rest.dropWhile fun o => o.lexeme.connects || (depth == 0 && o.lexeme == .groupClose))

/-- Behind an operand, a `)` outside of all groups is skipped. -/
def skipClosing (depth : Nat) (c : Cursor) : Cursor :=
  c.goOn (c.rest.dropWhile fun o => depth == 0 && o.lexeme == .groupClose)

/-- The `)` of a group is skipped. It may be missing at the end of the query. -/
def skipGroupClose (c : Cursor) : Cursor :=
  match c.rest with
  | ⟨.groupClose, _, _⟩ :: rest => c.goOn rest
  | _ => c

/-- The group ends here, or the query. -/
def atEnd (c : Cursor) : Bool := c.rest.head?.all (·.lexeme == .groupClose)

theorem rest_skipMarks_le (depth : Nat) (c : Cursor) :
    (c.skipMarks depth).rest.length ≤ c.rest.length :=
  (List.dropWhile_sublist _).length_le

theorem rest_skipClosing_le (depth : Nat) (c : Cursor) :
    (c.skipClosing depth).rest.length ≤ c.rest.length :=
  (List.dropWhile_sublist _).length_le

theorem rest_skipGroupClose_le (c : Cursor) : c.skipGroupClose.rest.length ≤ c.rest.length := by
  rw [skipGroupClose]
  split
  · rename_i hr
    simp [goOn, hr]
  · exact Nat.le_refl _

end Cursor

/-! ### The descent -/

/-- What a part stands for, or the lexeme that does not fit. -/
abbrev Answer := Except (Occurrence × SyntaxError.Reason) (Option Rule)

/-- What has been read from a cursor on, and where reading stopped. -/
structure Reading (c : Cursor) where
  answer : Answer
  stop : Cursor
  le : stop.rest.length ≤ c.rest.length

/-- The same from a cursor that is further back. -/
def Reading.of {c d : Cursor} (h : d.rest.length ≤ c.rest.length) (r : Reading d) : Reading c :=
  ⟨r.answer, r.stop, Nat.le_trans r.le h⟩

/-- Reads a part of a query that has `depth` groups around it. The part may have begun before the
cursor, and then `done` is what it is made of up to there. -/
def descend (depth : Nat) : Part → List Rule → (c : Cursor) → Reading c
  | .operand, _, c =>
    match h : c.rest with
    | [] => ⟨.ok none, c, Nat.le_refl _⟩
    | o :: rest =>
      have hr : rest.length < c.rest.length := by simp [h]
      if o.lexeme.deepens && maxNesting ≤ c.nesting then
        ⟨.error (o, .nestingTooDeep), c, Nat.le_refl _⟩
      else match o.lexeme with
        | .negation =>
          match descend depth .operand [] (c.enter rest) with
          | ⟨answer, stop, le⟩ =>
            ⟨answer.map (·.map Rule.negate), stop.leave, Nat.le_trans le (Nat.le_of_lt hr)⟩
        | .groupOpen =>
          match descend (depth + 1) .content [] (c.enter rest) with
          | ⟨.error e, stop, le⟩ => ⟨.error e, stop.leave, Nat.le_trans le (Nat.le_of_lt hr)⟩
          | ⟨.ok r, stop, le⟩ =>
            ⟨.ok r, stop.skipGroupClose.leave,
              Nat.le_trans stop.rest_skipGroupClose_le (Nat.le_trans le (Nat.le_of_lt hr))⟩
        | .unit condition => ⟨.ok (condition.map .condition), c.goOn rest, Nat.le_of_lt hr⟩
        | .conj | .disj | .groupClose => ⟨.ok none, c, Nat.le_refl _⟩
  | .alternative, operands, c =>
    have hc := c.rest_skipMarks_le depth
    if (c.skipMarks depth).atEnd then
      ⟨.ok (Rule.join? .all operands), c.skipMarks depth, hc⟩
    else
      match descend depth .operand [] (c.skipMarks depth) with
      | ⟨.error e, stop, le⟩ => ⟨.error e, stop, Nat.le_trans le hc⟩
      | ⟨.ok r, stop, le⟩ =>
        have hs := Nat.le_trans (Nat.le_trans (stop.rest_skipClosing_le depth) le) hc
        match h : (stop.skipClosing depth).rest with
        | ⟨.conj, _, _⟩ :: rest =>
          have hr : rest.length < c.rest.length := by rw [h] at hs; exact hs
          (descend depth .alternative (operands ++ r.toList)
            ((stop.skipClosing depth).goOn rest)).of (Nat.le_of_lt hr)
        | _ => ⟨.ok (Rule.join? .all (operands ++ r.toList)), stop.skipClosing depth, hs⟩
  | .content, terms, c =>
    have hc := c.rest_skipMarks_le depth
    if (c.skipMarks depth).atEnd then
      ⟨.ok (Rule.join? .any terms), c.skipMarks depth, hc⟩
    else
      match descend depth .alternative [] (c.skipMarks depth) with
      | ⟨.error e, stop, le⟩ => ⟨.error e, stop, Nat.le_trans le hc⟩
      | ⟨.ok r, stop, le⟩ =>
        have hs := Nat.le_trans (Nat.le_trans (stop.rest_skipClosing_le depth) le) hc
        match h : (stop.skipClosing depth).rest with
        | [] | ⟨.groupClose, _, _⟩ :: _ =>
          ⟨.ok (Rule.join? .any (terms ++ r.toList)), stop.skipClosing depth, hs⟩
        | ⟨.disj, _, _⟩ :: rest =>
          have hr : rest.length < c.rest.length := by rw [h] at hs; exact hs
          (descend depth .content (terms ++ r.toList)
            ((stop.skipClosing depth).goOn rest)).of (Nat.le_of_lt hr)
        | o :: _ => ⟨.error (o, .expectedConnective), stop.skipClosing depth, hs⟩
-- A part that nothing has been taken of yet is read before the part that it belongs to goes on.
termination_by part _ c =>
  3 * c.rest.length + match part with | .operand => 0 | .alternative => 1 | .content => 2
decreasing_by
  · simp only [Cursor.enter]; omega
  · simp only [Cursor.enter]; omega
  · omega
  · simp only [Cursor.goOn]; omega
  · omega
  · simp only [Cursor.goOn]; omega

/-- Reads a whole query. -/
def descendQuery (query : String) : Reading { rest := lexemes query } :=
  descend 0 .content [] { rest := lexemes query }

end Parse

/-- The rule that a query stands for, read by descent. -/
def Rule.parseByDescent (query : String) : Except SyntaxError Rule :=
  match (Parse.descendQuery query).answer with
  | .ok r => .ok (r.getD empty)
  | .error (o, reason) => .error ⟨query, o.first, o.start + o.first.utf8Size, reason⟩

namespace Parse

/-! ### The counter -/

namespace Cursor

/-- As much is open at the one cursor as at the other, and no more than the limit in between. -/
structure Balanced (c d : Cursor) : Prop where
  nesting : d.nesting = c.nesting
  deepest : d.deepest ≤ max c.deepest maxNesting

variable {c d e : Cursor}

theorem balanced_goOn (c : Cursor) (rest : List Occurrence) : Balanced c (c.goOn rest) :=
  ⟨rfl, Nat.le_max_left _ _⟩

theorem balanced_skipGroupClose (c : Cursor) : Balanced c c.skipGroupClose := by
  rw [skipGroupClose]
  split
  · exact balanced_goOn _ _
  · exact balanced_goOn c c.rest

theorem Balanced.trans (H : Balanced c d) (H' : Balanced d e) : Balanced c e where
  nesting := H'.nesting.trans H.nesting
  deepest := Nat.le_trans H'.deepest (Nat.max_le.2 ⟨H.deepest, Nat.le_max_right _ _⟩)

/-- What was opened is closed again. -/
theorem Balanced.leave {rest : List Occurrence} (hn : c.nesting < maxNesting)
    (H : Balanced (c.enter rest) d) : Balanced c d.leave where
  nesting := by rw [Cursor.leave, H.nesting, enter, Nat.add_sub_cancel]
  deepest := by
    have h := H.deepest
    simp only [enter] at h
    simp only [Cursor.leave]
    omega

end Cursor

open Cursor

theorem lt_of_deepens {c : Cursor} {l : Lexeme} (hl : l.deepens = true)
    (hn : ¬(l.deepens && maxNesting ≤ c.nesting) = true) : c.nesting < maxNesting := by
  simpa [hl] using hn

/-- **A part leaves as much open as it finds**, also where it does not fit. -/
theorem balanced_descend (depth : Nat) (part : Part) (done : List Rule) (c : Cursor) :
    Balanced c (descend depth part done c).stop := by
  -- Only a `!` and a `(` move the counter, and what stands behind them is read while it is up.
  fun_induction descend depth part done c with
  | case1 | case2 | case6 | case7 | case8 | case9 | case10 | case14 => exact balanced_goOn _ _
  | case3 _ _ c _ rest _ _ hn ho _ stop _ h ih | case4 _ _ c _ rest _ _ hn ho _ stop _ h ih =>
    rw [h] at ih
    exact ih.leave (lt_of_deepens (ho ▸ rfl) hn)
  | case5 _ _ c _ rest _ _ hn ho _ stop _ h ih =>
    rw [h] at ih
    exact (ih.trans (balanced_skipGroupClose _)).leave (lt_of_deepens (ho ▸ rfl) hn)
  | case11 _ _ c _ _ _ stop _ h ih | case15 _ _ c _ _ _ stop _ h ih =>
    rw [h] at ih
    exact (balanced_goOn _ _).trans ih
  | case12 _ _ c _ _ _ stop _ h _ _ _ rest _ _ ih ih'
  | case18 _ _ c _ _ _ stop _ h _ _ _ rest _ _ ih ih' =>
    rw [h] at ih
    exact (((balanced_goOn _ _).trans ih).trans (balanced_goOn _ _)).trans ih'
  | case13 _ _ c _ _ _ stop _ h _ _ ih | case16 _ _ c _ _ _ stop _ h _ _ ih
  | case17 _ _ c _ _ _ stop _ h _ _ _ _ _ ih | case19 _ _ c _ _ _ stop _ h _ _ _ _ _ _ ih =>
    rw [h] at ih
    exact ((balanced_goOn _ _).trans ih).trans (balanced_goOn _ _)

theorem deepest_descendQuery (query : String) : (descendQuery query).stop.deepest ≤ maxNesting := by
  have h := (balanced_descend 0 .content [] { rest := lexemes query }).deepest
  rwa [Nat.zero_max] at h

end Parse
end FilterQuery
