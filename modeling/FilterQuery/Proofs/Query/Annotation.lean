import FilterQuery.Proofs.Query.Reading

/-!
Annotations play no part in reading: without them the same lexemes fit and lead to the same rule.
So a query that is written lexeme by lexeme can be read without a thought of its positions.
-/

namespace FilterQuery

namespace Rule

@[simp] theorem bare_negate (r : Rule) : r.negate.bare = r.bare.negate := by
  cases r with
  | chain op rs => simp [negate]
  | condition c =>
    obtain ⟨column, op, value, note⟩ := c
    cases value <;> simp [negate, Condition.bare]

theorem bare_repeat_negate (n : Nat) (r : Rule) :
    (Nat.repeat negate n r).bare = Nat.repeat negate n r.bare := by
  induction n with
  | zero => rfl
  | succ n ih => simp [Nat.repeat, ih]

@[simp] theorem join?_map_bare (op : Connective) (rs : List Rule) :
    join? op (rs.map bare) = (join? op rs).map bare := by
  match rs with
  | [] => rfl
  | [r] => rfl
  | r :: s :: rs => simp [join?]

end Rule

namespace Parse

namespace Group

def bare (g : Group) : Group :=
  { g with terms := g.terms.map Rule.bare, operands := g.operands.map Rule.bare }

theorem bare_add (g : Group) (r : Option Rule) : (g.add r).bare = g.bare.add (r.map Rule.bare) := by
  cases r <;> simp [bare, add, Rule.bare_repeat_negate]

theorem bare_next (g : Group) : g.next.bare = g.bare.next := by
  simp only [bare, next, Rule.join?_map_bare, List.map_append, List.map_nil]
  cases Rule.join? .all g.operands <;> rfl

theorem result_bare (g : Group) : g.bare.result = g.result.map Rule.bare := by
  rw [result, ← bare_next, result]
  exact Rule.join?_map_bare ..

end Group

namespace State

def bare (s : State) : State :=
  { s with group := s.group.bare, outer := s.outer.map Group.bare }

theorem bare_operand (s : State) (r : Option Rule) :
    (s.operand r).bare = s.bare.operand (r.map Rule.bare) := by
  simp [bare, operand, Group.bare_add]

@[simp] theorem filled_bare (s : State) : s.bare.filled = s.filled := rfl

theorem bare_settle (s : State) : s.settle.bare = s.bare.settle := by
  have hn : s.bare.group.negations = s.group.negations := rfl
  rw [settle, settle, filled_bare, hn]
  split
  · exact bare_operand s none
  · rfl

theorem bare_close (s : State) : s.close.bare = s.bare.close := by
  cases ho : s.outer <;> simp [bare, close, ho, Group.bare_add, Group.result_bare]

theorem bare_advance (s : State) (l : Lexeme) : (s.advance l).bare = s.bare.advance l.bare := by
  cases l with
  | conj =>
    change _ = { s.bare.settle with filled := false }
    rw [← bare_settle]
    rfl
  | disj =>
    have hd : Lexeme.bare .disj = .disj := rfl
    rw [advance, hd, advance, ← bare_settle, filled_bare]
    split
    · simp only [bare, Group.bare_next]
    · rfl
  | groupClose => rw [advance, bare_close, bare_settle]; rfl
  | unit c =>
    rw [advance, bare_operand]
    cases c <;> rfl
  | groupOpen | negation => rfl

theorem finish_bare (s : State) : s.bare.finish = s.finish.map Rule.bare := by
  have H (outer : List Group) (r : Option Rule) :
      (outer.map Group.bare).foldl (fun r g => (g.add r).result) (r.map Rule.bare) =
        (outer.foldl (fun r g => (g.add r).result) r).map Rule.bare := by
    induction outer generalizing r with
    | nil => rfl
    | cons g outer ih =>
      rw [List.map_cons, List.foldl_cons, ← Group.bare_add, Group.result_bare, ih, List.foldl_cons]
  have hr : s.settle.bare.group.result = s.settle.group.result.map Rule.bare :=
    Group.result_bare _
  rw [finish, ← bare_settle, finish, hr, ← H]
  rfl

/-- What is read without annotations is read with them. -/
theorem Reads.of_bare {s u : State} {ls : List Lexeme}
    (H : Reads s.bare (ls.map Lexeme.bare) u) : ∃ t, Reads s ls t ∧ t.bare = u := by
  induction ls generalizing s with
  | nil =>
    cases H
    exact ⟨s, .nil, rfl⟩
  | cons l ls ih =>
    obtain @⟨⟩ | ⟨hb, H⟩ := H
    rw [← bare_advance] at H
    obtain ⟨t, H, ht⟩ := ih H
    refine ⟨t, .cons (fun hl => hb ?_) H, ht⟩
    cases l <;> exact hl

end State
end Parse

/-- What a unit says does not matter for what is open. -/
theorem Opening.peak_map {f : Lexeme → Lexeme} (h : ∀ os l, behind os (f l) = behind os l)
    (os : List Opening) (ls : List Lexeme) : peak os (ls.map f) = peak os ls := by
  induction ls generalizing os with
  | nil => rfl
  | cons l ls ih => rw [List.map_cons, peak, h, ih, peak]

/-! ### Queries that are written lexeme by lexeme -/

/-- Lexemes that can be written, and lexemes that fit keep apart what is written. -/
theorem Lexeme.Legible.of_reads {s t : Parse.State} {ls : List Lexeme}
    (H : Parse.State.Reads s ls t) (hw : ∀ l ∈ ls, l.WellFormed) : Legible ls := by
  induction H with
  | nil => exact .nil
  | @cons s t l ls hb H ih =>
    have ih := ih fun l hl => hw l (List.mem_cons_of_mem _ hl)
    cases l with
    | unit c =>
      obtain ⟨d, rfl, hd⟩ := hw _ List.mem_cons_self
      refine .unit hd ?_ ih
      -- Behind a unit no operand can begin, as the unit has filled the place.
      intro m hm
      cases H with
      | nil => cases hm
      | @cons _ _ m' _ hb' _ =>
        obtain rfl := Option.some.inj hm
        cases hf : m'.beginsOperand with
        | false => rfl
        | true => cases hb' hf
    | _ => exact .mark (by simp) ih

section
variable {ls : List Lexeme} {t : Parse.State}

theorem map_lexeme_lexemes (h : Lexeme.Legible ls) :
    (lexemes (String.ofList (Lexeme.spell ls))).map (·.lexeme) = Lexeme.place 0 ls := by
  rw [lexemes, Scanner.ofString, String.toList_ofList]
  exact Scanner.lexemes_spell h 0

theorem maxOpen_spell (h : Lexeme.Legible ls) :
    maxOpen (String.ofList (Lexeme.spell ls)) = Opening.peak [] ls := by
  have bare : ∀ os l, Opening.behind os (Lexeme.bare l) = Opening.behind os l := by
    rintro - ⟨⟩ <;> rfl
  have positive : ∀ os l, Opening.behind os (Lexeme.positive l) = Opening.behind os l := by
    rintro - ⟨⟩ <;> rfl
  rw [maxOpen, map_lexeme_lexemes h, ← Opening.peak_map bare, Lexeme.map_bare_place,
    Opening.peak_map positive]

variable (hw : ∀ l ∈ ls, l.WellFormed) (hp : ls.map Lexeme.positive = ls)
  (H : Parse.State.Reads {} ls t)
include hw hp H

theorem reads_spell : ∃ u, Parse.State.Reads {}
    ((lexemes (String.ofList (Lexeme.spell ls))).map (·.lexeme)) u ∧ u.bare = t := by
  rw [map_lexeme_lexemes (.of_reads H hw)]
  refine Parse.State.Reads.of_bare ?_
  rw [Lexeme.map_bare_place, hp]
  exact H

/-- A query that is written with lexemes that fit is read as these lexemes. Annotations apart, its
rule is the one that they lead to. -/
theorem Rule.parse_spell (hm : Opening.peak [] ls ≤ maxNesting) :
    ∃ r, parse (String.ofList (Lexeme.spell ls)) = .ok r ∧ r.bare = t.finish.getD empty := by
  obtain ⟨u, hu, rfl⟩ := reads_spell hw hp H
  rw [← maxOpen_spell (.of_reads H hw)] at hm
  refine ⟨_, parse_eq_ok_iff.2 ⟨u, hu, hm, rfl⟩, ?_⟩
  rw [Parse.State.finish_bare]
  cases u.finish <;> rfl

/-- Such a query is refused only for nesting too deep. -/
theorem Rule.parse_spell_error (hm : maxNesting < Opening.peak [] ls) :
    ∃ e, parse (String.ofList (Lexeme.spell ls)) = .error e ∧ e.reason = .nestingTooDeep := by
  obtain ⟨u, hu, -⟩ := reads_spell hw hp H
  rw [← maxOpen_spell (.of_reads H hw)] at hm
  exact parse_eq_error hu hm

end

end FilterQuery
