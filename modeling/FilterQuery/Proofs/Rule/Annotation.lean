import FilterQuery.Proofs.Rule.RoundTrip

/-!
Annotations play no part in writing: rules that differ in them alone have the same canonical text.
So the canonical text of a normal rule is that of what it is read as.
-/

namespace FilterQuery

/-- The piece with its condition stripped of its annotation. -/
def Fragment.bare : Fragment → Fragment
  | column c => column c.bare
  | operator c => operator c.bare
  | value c => value c.bare
  | f => f

theorem Condition.fragments_bare (c : Condition) :
    c.bare.fragments = c.fragments.map Fragment.bare := by
  obtain ⟨column, op, value, note⟩ := c
  cases value with
  | flag b => cases b <;> rfl
  | _ => rfl

/-- The pieces at the same nodes, with every annotation removed. -/
def bareOf (fs : List (Path × Fragment)) : List (Path × Fragment) :=
  fs.map fun (path, f) => (path, f.bare)

@[simp] theorem bareOf_append (fs gs : List (Path × Fragment)) :
    bareOf (fs ++ gs) = bareOf fs ++ bareOf gs := List.map_append

theorem bareOf_beneath (i : Nat) (fs : List (Path × Fragment)) :
    bareOf (Rule.beneath i fs) = Rule.beneath i (bareOf fs) := by
  rw [bareOf, Rule.beneath, Rule.beneath, bareOf, List.map_map, List.map_map]
  rfl

theorem bareOf_enclose (group : Bool) (fs : List (Path × Fragment)) :
    bareOf (Rule.enclose group fs) = Rule.enclose group (bareOf fs) := by
  cases group with
  | false => rfl
  | true => exact bareOf_append (([], .groupOpen) :: fs) _

theorem lexemesOf_bareOf (fs : List (Path × Fragment)) : lexemesOf (bareOf fs) = lexemesOf fs := by
  rw [lexemesOf, bareOf, List.filterMap_map]
  refine List.filterMap_congr fun p _ => ?_
  obtain ⟨path, f⟩ := p
  cases f with
  | column c =>
    obtain ⟨column, op, value, note⟩ := c
    cases value <;> rfl
  | value c =>
    obtain ⟨column, op, value, note⟩ := c
    cases value <;> rfl
  | _ => rfl

namespace Rule

variable {rs : List Rule}

@[simp] theorem isVacant_bare (r : Rule) : r.bare.isVacant = r.isVacant := by
  induction r using induction with
  | condition c => rfl
  | chain op rs ih =>
    rw [bare_chain, isVacant, isVacant, allVacant_eq, allVacant_eq, List.all_map, Bool.eq_iff_iff,
      List.all_eq_true, List.all_eq_true]
    exact forall₂_congr fun r hr => by rw [Function.comp, ih r hr]

theorem written_map_bare (rs : List Rule) : written (rs.map bare) = (written rs).map bare := by
  simp [written, List.filter_map, Function.comp_def]

theorem visible_map_bare (rs : List Rule) : visible (rs.map bare) = visible rs := by
  rw [← length_written, ← length_written, written_map_bare, List.length_map]

theorem anyOpensNegated_map_bare (h : ∀ r ∈ rs, r.bare.opensNegated = r.opensNegated) :
    anyOpensNegated (rs.map bare) = anyOpensNegated rs := by
  induction rs with
  | nil => rfl
  | cons r rs ih =>
    obtain ⟨hr, h⟩ := List.forall_mem_cons.1 h
    rw [List.map_cons, anyOpensNegated, anyOpensNegated, isVacant_bare, hr, ih h]

theorem opensNegated_bare (r : Rule) : r.bare.opensNegated = r.opensNegated := by
  induction r using induction with
  | condition c => rfl
  | chain op rs ih =>
    have ih := anyOpensNegated_map_bare ih
    rw [bare_chain]
    cases op with
    | none => rfl
    | _ => rw [opensNegated, opensNegated, ih, visible_map_bare] <;> simp

theorem needsGroup_map_bare (rs : List Rule) : needsGroup (rs.map bare) = needsGroup rs := by
  rw [needsGroup, needsGroup, visible_map_bare,
    anyOpensNegated_map_bare fun r _ => opensNegated_bare r]

theorem writeChildren_bare {operand : Bool}
    (ih : ∀ r ∈ rs, r.bare.write operand = bareOf (r.write operand)) (op : Connective)
    (follows : Bool) (i : Nat) : writeChildren operand op follows i (rs.map bare) =
      bareOf (writeChildren operand op follows i rs) := by
  induction rs generalizing follows i with
  | nil => rfl
  | cons r rs ihs =>
    obtain ⟨hr, ih⟩ := List.forall_mem_cons.1 ih
    rw [List.map_cons, writeChildren, writeChildren, isVacant_bare, hr, ihs ih, ihs ih]
    split
    · rfl
    · rw [bareOf_append, bareOf_append, bareOf_beneath]
      cases follows <;> rfl

/-- Without annotations a rule has the same pieces at the same nodes. -/
theorem write_bare (r : Rule) (operand : Bool) : r.bare.write operand = bareOf (r.write operand) := by
  induction r using induction generalizing operand with
  | condition c =>
    rw [bare_condition, write, write, c.fragments_bare, bareOf, List.map_map, List.map_map]
    rfl
  | chain op rs ih =>
    have children (operand : Bool) (op : Connective) :
        writeChildren operand op false 0 (rs.map bare) =
          bareOf (writeChildren operand op false 0 rs) :=
      writeChildren_bare (fun r hr => ih r hr operand) op false 0
    rw [bare_chain]
    cases op with
    | none =>
      rw [write, write, children, needsGroup_map_bare, ← bareOf_enclose]
      rfl
    | _ =>
      rw [write, write, visible_map_bare]
      · simp only [children, bareOf_enclose]
      all_goals simp

theorem fragments_bare (r : Rule) : r.bare.fragments = bareOf r.fragments := by
  rw [fragments, fragments, isVacant_bare, write_bare]
  split <;> rfl

theorem spelling_bare (r : Rule) (operand : Bool) :
    r.bare.spelling operand = r.spelling operand := by
  rw [spelling, write_bare, lexemesOf_bareOf, spelling]

theorem canonical_bare (r : Rule) : r.bare.canonical = r.canonical := by
  rw [canonical, canonical, isVacant_bare, spelling_bare]

/-- The canonical text does not depend on annotations. -/
theorem Same.render_eq {r s : Rule} (h : r.Same s) : r.render = s.render := by
  rw [Rule.render_eq r, Rule.render_eq s, ← canonical_bare r, ← canonical_bare s,
    show r.bare = s.bare from h]

theorem wellFormed_of_normal {r : Rule} (H : r = empty ∨ r.Normal) :
    ∀ c ∈ r.conditions, c.WellFormed := by
  rcases H with rfl | H
  · exact List.forall_mem_nil _
  · exact H.wellFormed

/-- What is read as the normal form of a normal rule is the rule itself, annotations apart. -/
theorem Same.of_normalForm {r r' : Rule} (H : r = empty ∨ r.Normal)
    (h : r'.bare = r.normalForm?.getD empty) : r'.Same r := by
  rw [Same, h]
  rcases H with rfl | H
  · rfl
  · rw [H.normalForm?_eq]
    rfl

/-- The canonical text of a normal rule stays as it is when it is read and written again. -/
theorem Normal.render_of_parse_render {r : Rule} (H : r = empty ∨ r.Normal)
    (hm : maxOpen r.render ≤ maxNesting) :
    ∃ r', parse r.render = .ok r' ∧ r'.render = r.render := by
  obtain ⟨r', hp, hr⟩ := parse_render (wellFormed_of_normal H) hm
  exact ⟨r', hp, (Same.of_normalForm H hr).render_eq⟩

end Rule
end FilterQuery
