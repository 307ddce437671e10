import FilterQuery.Proofs.Query.Annotation
import FilterQuery.Proofs.Rule.Normal

/-!
No condition is lost in reading. Whatever the groups and connectives around them, the conditions of
a rule are those of the units it was read from, in the same order; negations only turn tests over.
-/

namespace FilterQuery

/-- The condition as its unit gives it: a test is a positive one. -/
def Condition.upright (c : Condition) : Condition :=
  match c.value with
  | .flag _ => { c with value := .flag true }
  | _ => c

/-- Only the comparison of a test and the annotation are left to forget. -/
theorem Condition.positive_upright (c : Condition) : c.upright.positive = c.positive := by
  obtain ⟨column, op, value, note⟩ := c
  cases value <;> rfl

/-- What the lexeme names. -/
def Lexeme.named : Lexeme → List Condition
  | unit c => (c.map Condition.positive).toList
  | _ => []

/-- The condition of the lexeme, with its annotation. -/
def Lexeme.units : Lexeme → List Condition
  | unit c => (c.map Condition.upright).toList
  | _ => []

theorem Lexeme.named_eq (l : Lexeme) : l.named = l.units.map Condition.positive := by
  cases l with
  | unit c => cases c <;> simp [named, units, Condition.positive_upright]
  | _ => rfl

namespace Rule

/-- The conditions in document order, each as its text says it. -/
def named (r : Rule) : List Condition := r.conditions.map Condition.positive

/-- The conditions in document order, each as its unit gives it. -/
def units (r : Rule) : List Condition := r.conditions.map Condition.upright

theorem named_eq (r : Rule) : r.named = r.units.map Condition.positive := by
  rw [named, units, List.map_map]
  exact List.map_congr_left fun c _ => c.positive_upright.symm

@[simp] theorem units_condition (c : Condition) : (condition c).units = [c.upright] := rfl

@[simp] theorem units_chain (op : Connective) (rs : List Rule) :
    (chain op rs).units = rs.flatMap units := by
  rw [units, conditions_chain, List.map_flatMap]
  rfl

@[simp] theorem units_negate (r : Rule) : r.negate.units = r.units := by
  cases r with
  | chain op rs => simp [negate]
  | condition c =>
    obtain ⟨column, op, value, note⟩ := c
    cases value with
    | flag set => rfl
    | _ => simp [negate]

theorem units_repeat_negate (n : Nat) (r : Rule) : (Nat.repeat negate n r).units = r.units := by
  induction n with
  | zero => rfl
  | succ n ih => rw [Nat.repeat, units_negate, ih]

theorem units_join? (op : Connective) (rs : List Rule) :
    (join? op rs).toList.flatMap units = rs.flatMap units := by
  match rs with
  | [] => rfl
  | [r] => rfl
  | r :: s :: rs => simp [join?]

theorem named_bare (r : Rule) : r.bare.named = r.named := by
  induction r using induction with
  | condition c =>
    obtain ⟨column, op, value, note⟩ := c
    cases value <;> rfl
  | chain op rs ih =>
    have hchain (rs : List Rule) : (chain op rs).named = rs.flatMap named := by
      rw [named, conditions_chain, List.map_flatMap]
      rfl
    rw [bare_chain, hchain, hchain, List.flatMap_map]
    exact List.flatMap_congr fun r hr => ih r hr

end Rule

namespace Parse

namespace Group

/-- The units that the group has been read from. -/
def units (g : Group) : List Condition := (g.terms ++ g.operands).flatMap Rule.units

theorem units_add (g : Group) (r : Option Rule) :
    (g.add r).units = g.units ++ r.toList.flatMap Rule.units := by
  cases r <;> simp [units, add, Rule.units_repeat_negate]

theorem units_next (g : Group) : g.next.units = g.units := by
  rw [units, units, next, List.append_nil, List.flatMap_append, List.flatMap_append,
    Rule.units_join?]

theorem units_result (g : Group) : g.result.toList.flatMap Rule.units = g.units := by
  rw [result, Rule.units_join?, ← units_next, units]
  exact congrArg (List.flatMap Rule.units) (List.append_nil _).symm

end Group

namespace State

/-- The units that have been read, from the outermost group to the innermost. -/
def units (s : State) : List Condition := s.outer.reverse.flatMap Group.units ++ s.group.units

theorem units_operand (s : State) (r : Option Rule) :
    (s.operand r).units = s.units ++ r.toList.flatMap Rule.units := by
  rw [units, operand, Group.units_add, units, List.append_assoc]

theorem units_settle (s : State) : s.settle.units = s.units := by
  rw [settle]
  split
  · rw [units_operand]
    exact List.append_nil _
  · rfl

theorem units_close (s : State) : s.close.units = s.units := by
  rw [close]
  split <;> rename_i ho
  · rfl
  · simp [units, ho, Group.units_add, Group.units_result]

/-- A lexeme adds its unit and loses nothing. -/
theorem units_advance (s : State) (l : Lexeme) : (s.advance l).units = s.units ++ l.units := by
  cases l with
  | conj => exact (units_settle s).trans (List.append_nil _).symm
  | disj =>
    refine Eq.trans ?_ (List.append_nil _).symm
    rw [← units_settle s, advance]
    split
    · exact congrArg (_ ++ ·) (Group.units_next _)
    · rfl
  | groupClose =>
    rw [advance, units_close, units_settle]
    exact (List.append_nil _).symm
  | unit c =>
    rw [advance, units_operand]
    cases c <;> rfl
  | negation => exact (List.append_nil _).symm
  | groupOpen =>
    rw [units, advance, List.reverse_cons, List.flatMap_append, List.flatMap_singleton]
    rfl

theorem Reads.units {s t : State} {ls : List Lexeme} (H : Reads s ls t) :
    t.units = s.units ++ ls.flatMap Lexeme.units := by
  induction H with
  | nil => exact (List.append_nil _).symm
  | cons _ _ ih => rw [ih, units_advance, List.flatMap_cons, List.append_assoc]

theorem units_finish (s : State) : (s.finish.getD .empty).units = s.units := by
  have H (outer : List Group) (r : Option Rule) :
      (outer.foldl (fun r g => (g.add r).result) r).toList.flatMap Rule.units =
        outer.reverse.flatMap Group.units ++ r.toList.flatMap Rule.units := by
    induction outer generalizing r with
    | nil => rfl
    | cons g outer ih =>
      rw [List.foldl_cons, ih, Group.units_result, Group.units_add, List.reverse_cons,
        List.flatMap_append, List.flatMap_singleton, List.append_assoc]
  have hr : (s.finish.getD .empty).units = s.finish.toList.flatMap Rule.units := by
    cases s.finish <;> simp [Rule.empty]
  rw [hr, finish, H, Group.units_result, ← settle_outer]
  exact units_settle s

end State
end Parse

/-- The conditions of a rule are those of the units of the query it was read from. -/
theorem Rule.units_of_parse {query : String} {r : Rule} (h : parse query = .ok r) :
    r.units = (lexemes query).flatMap (·.lexeme.units) := by
  obtain ⟨t, H, -, rfl⟩ := parse_eq_ok_iff.1 h
  rw [t.units_finish, H.units, List.flatMap_map]
  rfl

/-- A query that is written with lexemes that fit names what these lexemes name. -/
theorem Rule.named_of_spell {ls : List Lexeme} {t : Parse.State} (hw : ∀ l ∈ ls, l.WellFormed)
    (hp : ls.map Lexeme.positive = ls) (H : Parse.State.Reads {} ls t)
    (hm : Opening.peak [] ls ≤ maxNesting) :
    ∃ r, parse (String.ofList (Lexeme.spell ls)) = .ok r ∧ r.named = ls.flatMap Lexeme.named := by
  obtain ⟨r, hr, hb⟩ := parse_spell hw hp H hm
  refine ⟨r, hr, ?_⟩
  calc r.named = (t.finish.getD empty).named := by rw [← hb, named_bare]
    _ = (ls.flatMap Lexeme.units).map Condition.positive := by
      rw [named_eq, t.units_finish, H.units]
      rfl
    _ = ls.flatMap Lexeme.named := by
      rw [List.map_flatMap]
      exact List.flatMap_congr fun l _ => l.named_eq.symm

end FilterQuery
