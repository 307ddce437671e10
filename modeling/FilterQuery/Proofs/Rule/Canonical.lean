import FilterQuery.Proofs.Rule.Annotation
import FilterQuery.Proofs.Rule.Depth

/-!
When the canonical text of a rule is read and written again. What is read is the normal form, and
its text is the same unless two negations cancel: that of a `none` chain and that of the test which
is all that is written of its children.
-/

namespace FilterQuery

namespace Rule

variable {op : Connective} {r n : Rule} {rs ns : List Rule}

/-! ### The normal form once more -/

theorem exists_of_isTest (h : r.isTest = true) :
    ∃ column op set note, r = condition ⟨column, op, .flag set, note⟩ := by
  cases r with
  | chain op rs => cases h
  | condition c =>
    obtain ⟨column, op, value, note⟩ := c
    cases value with
    | flag set => exact ⟨column, op, set, note, rfl⟩
    | _ => cases h

/-- Induction over a rule where a `none` chain is the opposite of the `any` chain of its
children. -/
theorem inductionAny {motive : Rule → Prop} (condition : ∀ c, motive (condition c))
    (chain : ∀ op rs, op ≠ .none → (∀ r ∈ rs, motive r) → motive (chain op rs))
    (none : ∀ rs, motive (.chain .any rs) → motive (.chain .none rs)) (r : Rule) : motive r := by
  induction r using induction with
  | condition c => exact condition c
  | chain op rs ih =>
    cases op with
    | none => exact none rs (chain .any rs (by decide) ih)
    | _ => exact chain _ rs (by decide) ih

theorem normalForm?_none_eq (rs : List Rule) :
    (chain .none rs).normalForm? = (chain .any rs).normalForm?.map negate := by
  rw [normalForm?_none, normalForm?_chain (by decide)]

theorem normalForm?_of_join? (hop : op ≠ .none) (h : join? op ns = some n)
    (H : ∀ m ∈ ns, m.normalForm? = some m) : n.normalForm? = some n := by
  match ns with
  | [m] =>
    obtain rfl := Option.some.inj h
    exact H m List.mem_cons_self
  | m :: m' :: ns =>
    have hns : (m :: m' :: ns).filterMap normalForm? = m :: m' :: ns := by
      rw [List.filterMap_congr H, List.filterMap_some]
    obtain rfl := Option.some.inj h
    rw [normalForm?_chain hop, hns]
    exact h

theorem normalForm?_negate (h : n.normalForm? = some n) : n.negate.normalForm? = some n.negate := by
  cases ht : n.isTest with
  | false =>
    have hn := negate_of_not_isTest ht
    rw [hn, normalForm?_none, List.filterMap_cons, h, List.filterMap_nil, ← hn]
    rfl
  | true =>
    obtain ⟨column, op, set, note, rfl⟩ := exists_of_isTest ht
    rw [normalForm?_condition] at h
    cases h
    rfl

/-- The normal form is its own normal form. -/
theorem normalForm?_normalForm (h : r.normalForm? = some n) : n.normalForm? = some n := by
  induction r using inductionAny generalizing n with
  | condition c =>
    obtain rfl := Option.some.inj h
    obtain ⟨column, op, value, note⟩ := c
    cases value <;> rfl
  | chain op rs hop ih =>
    rw [normalForm?_chain hop] at h
    refine normalForm?_of_join? hop h fun m hm => ?_
    obtain ⟨r, hr, hm⟩ := List.mem_filterMap.1 hm
    exact ih r hr hm
  | none rs ih =>
    rw [normalForm?_none_eq] at h
    obtain ⟨m, hm, rfl⟩ := Option.map_eq_some_iff.1 h
    exact normalForm?_negate (ih hm)

theorem isVacant_normalForm (h : r.normalForm? = some n) : n.isVacant = false := by
  have hn := mt (normalForm?_eq_none n).2
  simpa [normalForm?_normalForm h] using hn

theorem written_normalForms (rs : List Rule) :
    written (rs.filterMap normalForm?) = rs.filterMap normalForm? := by
  refine List.filter_eq_self.2 fun n hn => ?_
  obtain ⟨r, -, hr⟩ := List.mem_filterMap.1 hn
  simpa using isVacant_normalForm hr

theorem length_normalForms (rs : List Rule) :
    (rs.filterMap normalForm?).length = visible rs := by
  rw [← filterMap_written, ← length_written]
  refine List.filterMap_length_eq_length.2 fun r hr => ?_
  obtain ⟨n, hn⟩ := exists_normalForm? (mem_written.1 hr).2
  rw [hn]
  rfl

theorem written_ne_nil_of_normalForm? (hop : op ≠ .none) (h : (chain op rs).normalForm? = some n) :
    written rs ≠ [] := by
  refine written_ne_nil fun he => ?_
  rw [normalForm?_chain hop, he] at h
  cases h

/-! ### Negations that cancel -/

/-- The test that a column is not set. -/
def isUnset : Rule → Bool
  | condition c => c.value == .flag false
  | chain .. => false

theorem isTest_of_isUnset (h : r.isUnset = true) : r.isTest = true := by
  cases r with
  | chain op rs => cases h
  | condition c =>
    obtain ⟨column, op, value, note⟩ := c
    cases value with
    | flag set => rfl
    | _ => cases h

mutual

/-- Whether two negations cancel when the text of the rule is read: some `none` chain is left with
nothing but the test that a column is not set. -/
def cancels : Rule → Bool
  | condition _ => false
  | chain .none children => anyCancels children || (join? .any (normalForms children)).any isUnset
  | chain _ children => anyCancels children

def anyCancels : List Rule → Bool
  | [] => false
  | r :: rs => r.cancels || anyCancels rs

end

theorem anyCancels_eq (rs : List Rule) : anyCancels rs = rs.any cancels := by
  induction rs with
  | nil => rfl
  | cons r rs ih => rw [anyCancels, ih, List.any_cons]

theorem cancels_chain (hop : op ≠ .none) (rs : List Rule) :
    (chain op rs).cancels = rs.any cancels := by
  cases op <;> first | exact absurd rfl hop | rw [cancels, anyCancels_eq]; intro h; cases h

theorem cancels_none (rs : List Rule) : (chain .none rs).cancels =
    ((chain .any rs).cancels || (chain .any rs).normalForm?.any isUnset) := by
  rw [cancels, anyCancels_eq, normalForms_eq, cancels_chain (by decide),
    normalForm?_chain (by decide)]

theorem cancels_of_isVacant (h : r.isVacant = true) : r.cancels = false := by
  induction r using inductionAny with
  | condition c => rfl
  | chain op rs hop ih =>
    rw [isVacant, allVacant_eq, List.all_eq_true] at h
    rw [cancels_chain hop, List.any_eq_false]
    exact fun r hr => by simp [ih r hr (h r hr)]
  | none rs ih =>
    have h : (chain .any rs).isVacant = true := h
    rw [cancels_none, ih h, (normalForm?_eq_none _).2 h]
    rfl

/-! ### How many negations are written -/

/-- How many `!` the rule is written with. -/
def negations (r : Rule) : Nat := (r.spelling true).count .negation

theorem count_separated (op : Connective) (lss : List (List Lexeme)) :
    (separated (separator op) lss).count .negation = lss.flatten.count .negation := by
  have hsep : separator op ≠ .negation := by cases op <;> decide
  have H (lss : List (List Lexeme)) :
      (lss.flatMap (separator op :: ·)).count .negation = lss.flatten.count .negation := by
    induction lss with
    | nil => rfl
    | cons ls lss ih =>
      rw [List.flatMap_cons, List.count_append, List.count_cons_of_ne hsep, ih, List.flatten_cons,
        List.count_append]
  cases lss with
  | nil => rfl
  | cons ls lss => rw [separated, List.count_append, H, List.flatten_cons, List.count_append]

@[simp] theorem count_grouped (ls : List Lexeme) :
    (grouped ls).count .negation = ls.count .negation := by
  simp [grouped]

theorem count_spelling_chain (hop : op ≠ .none) (operand : Bool) (rs : List Rule) :
    ((chain op rs).spelling operand).count .negation =
      ((written rs).flatMap (spelling (operand || decide (2 ≤ visible rs)))).count .negation := by
  rw [spelling_chain operand hop]
  simp only
  split <;> simp [count_separated, List.flatMap_def]

/-- It does not matter whether the rule is written as an operand. -/
theorem count_spelling (r : Rule) (operand : Bool) :
    (r.spelling operand).count .negation = r.negations := by
  induction r using inductionAny generalizing operand with
  | condition c => rw [negations, spelling_condition, spelling_condition]
  | chain op rs hop ih =>
    rw [negations, count_spelling_chain hop, count_spelling_chain hop, List.count_flatMap,
      List.count_flatMap]
    refine congrArg List.sum (List.map_congr_left fun r hr => ?_)
    obtain ⟨hr, -⟩ := mem_written.1 hr
    rw [Function.comp, ih r hr, Function.comp, ih r hr]
  | none rs ih => rw [negations, spelling_none, spelling_none]

/-- How many `!` rules are written with, one after another. -/
def negationsOf (rs : List Rule) : Nat := (rs.flatMap (spelling true)).count .negation

theorem negationsOf_cons (r : Rule) (rs : List Rule) :
    negationsOf (r :: rs) = r.negations + negationsOf rs := by
  rw [negationsOf, List.flatMap_cons, List.count_append]
  rfl

theorem negations_chain (hop : op ≠ .none) (rs : List Rule) :
    (chain op rs).negations = negationsOf (written rs) := count_spelling_chain hop true rs

theorem negations_none (rs : List Rule) :
    (chain .none rs).negations = (chain .any rs).negations + 1 := by
  have H : (if needsGroup rs then grouped (separated .disj ((written rs).map (spelling true)))
      else separated .disj ((written rs).map (spelling true))).count .negation =
      negationsOf (written rs) := by
    have hsep := count_separated .any ((written rs).map (spelling true))
    split
    · exact (count_grouped _).trans hsep
    · exact hsep
  rw [negations, spelling_none, List.count_cons_self, H, negations_chain (by decide)]

theorem negations_of_join? (hop : op ≠ .none) (h : join? op ns = some n)
    (hv : written ns = ns) : n.negations = negationsOf ns := by
  match ns with
  | [m] =>
    obtain rfl := Option.some.inj h
    exact (negationsOf_cons m []).symm
  | m :: m' :: ns =>
    obtain rfl := Option.some.inj h
    rw [negations_chain hop, hv]

/-- A negation that is added to the test of an unset column takes one away instead. -/
theorem negations_negate (hv : r.isVacant = false) :
    r.negate.negations = if r.isUnset then 0 else r.negations + 1 := by
  cases ht : r.isTest with
  | false =>
    have hu : r.isUnset = false := by
      cases hu : r.isUnset with
      | false => rfl
      | true => exact absurd (isTest_of_isUnset hu) (by simp [ht])
    rw [negate_of_not_isTest ht, negations_none, negations_chain (by decide), written_cons hv,
      negationsOf_cons, hu]
    rfl
  | true =>
    obtain ⟨column, op, set, note, rfl⟩ := exists_of_isTest ht
    cases set <;> rfl

theorem negations_normalForms
    (H : ∀ r ∈ rs, ∀ n, r.normalForm? = some n → n.negations + r.cancels.toNat ≤ r.negations) :
    negationsOf (rs.filterMap normalForm?) + (rs.any cancels).toNat ≤ negationsOf (written rs) := by
  induction rs with
  | nil => exact Nat.le_refl _
  | cons r rs ih =>
    have ih := ih fun r hr => H r (List.mem_cons_of_mem _ hr)
    rw [List.any_cons]
    cases hv : r.isVacant with
    | true =>
      rw [List.filterMap_cons, (normalForm?_eq_none r).2 hv, written_cons_of_vacant hv,
        cancels_of_isVacant hv, Bool.false_or]
      exact ih
    | false =>
      obtain ⟨n, hn⟩ := exists_normalForm? hv
      have hr := H r List.mem_cons_self n hn
      have hor : (r.cancels || rs.any cancels).toNat ≤ r.cancels.toNat + (rs.any cancels).toNat := by
        cases r.cancels <;> cases rs.any cancels <;> decide
      rw [List.filterMap_cons, hn, written_cons hv, negationsOf_cons, negationsOf_cons]
      omega

/-- **What is read has no more negations**, and has fewer if some cancel. -/
theorem negations_normalForm (h : r.normalForm? = some n) :
    n.negations + r.cancels.toNat ≤ r.negations := by
  induction r using inductionAny generalizing n with
  | condition c =>
    obtain rfl := Option.some.inj h
    obtain ⟨column, op, value, note⟩ := c
    cases value with
    | flag b => cases b <;> exact Nat.le_refl _
    | _ => exact Nat.le_refl _
  | chain op rs hop ih =>
    rw [normalForm?_chain hop] at h
    rw [negations_of_join? hop h (written_normalForms rs), negations_chain hop, cancels_chain hop]
    exact negations_normalForms fun r hr n hn => ih r hr hn
  | none rs ih =>
    rw [normalForm?_none_eq] at h
    obtain ⟨m, hm, rfl⟩ := Option.map_eq_some_iff.1 h
    have ih := ih hm
    rw [negations_negate (isVacant_normalForm hm), negations_none, cancels_none, hm,
      Option.any_some]
    cases m.isUnset with
    | true =>
      rw [if_pos rfl, Bool.or_true, Bool.toNat_true]
      omega
    | false =>
      rw [if_neg Bool.false_ne_true, Bool.or_false]
      omega

/-! ### The text of the normal form -/

theorem anyOpensNegated_eq (rs : List Rule) :
    anyOpensNegated rs = (written rs).any opensNegated := by
  induction rs with
  | nil => rfl
  | cons r rs ih =>
    rw [anyOpensNegated, ih]
    cases hv : r.isVacant with
    | true => rw [written_cons_of_vacant hv]; rfl
    | false => rw [written_cons hv]; rfl

theorem opensNegated_chain (hop : op ≠ .none) (rs : List Rule) :
    (chain op rs).opensNegated = (visible rs == 1 && (written rs).any opensNegated) := by
  rw [← anyOpensNegated_eq]
  cases op <;> first | exact absurd rfl hop | rw [opensNegated]; intro h; cases h

theorem visible_of_written {w : Rule} (hw : written rs = [w]) : visible rs = 1 := by
  rw [← length_written, hw]
  rfl

section
variable {w : Rule} (hop : op ≠ .none) (hw : written rs = [w])
include hop hw

/-! A chain with one written child is read and written as that child. -/

theorem normalForm?_of_written : (chain op rs).normalForm? = w.normalForm? := by
  rw [normalForm?_chain hop, ← filterMap_written, hw]
  cases hn : w.normalForm? <;> simp [hn, join?]

theorem spelling_of_written (operand : Bool) :
    (chain op rs).spelling operand = w.spelling operand := by
  rw [spelling_chain operand hop, hw, visible_of_written hw]
  simp [separated]

theorem opensNegated_of_written : (chain op rs).opensNegated = w.opensNegated := by
  rw [opensNegated_chain hop, hw, visible_of_written hw]
  simp

end

section
variable (hop : op ≠ .none) (hv : 2 ≤ visible rs)
include hop hv

/-! A chain of several written children is put into parentheses as an operand. -/

theorem spelling_of_several (operand : Bool) : (chain op rs).spelling operand =
    let body := separated (separator op) ((written rs).map (spelling true))
    if operand then grouped body else body := by
  rw [spelling_chain operand hop]
  simp [hv]

theorem opensNegated_of_several : (chain op rs).opensNegated = false := by
  have hv' : (visible rs == 1) = false := by simpa using (by omega : visible rs ≠ 1)
  rw [opensNegated_chain hop, hv', Bool.false_and]

theorem normalForm?_of_several :
    (chain op rs).normalForm? = some (chain op (rs.filterMap normalForm?)) := by
  rw [normalForm?_chain hop, join?_of_two_le]
  rwa [length_normalForms]

end

/-- The text of an operand begins with a `!` if that is its own or the one of a test that a column
is not set. -/
theorem head_spelling (h : r.normalForm? = some n) :
    (r.spelling true).head? = some .negation ↔ r.opensNegated = true ∨ n.isUnset = true := by
  induction r using inductionAny generalizing n with
  | condition c =>
    obtain rfl := Option.some.inj h
    obtain ⟨column, op, value, note⟩ := c
    rw [spelling_condition]
    cases value with
    | flag set => cases set <;> simp [Condition.lexemes, opensNegated, isUnset, Condition.normalForm]
    | _ => simp [Condition.lexemes, opensNegated, isUnset, Condition.normalForm, Condition.bare]
  | chain op rs hop ih =>
    rcases written_cases (written_ne_nil_of_normalForm? hop h) with ⟨w, hw, -⟩ | hv
    · rw [normalForm?_of_written hop hw] at h
      rw [spelling_of_written hop hw, opensNegated_of_written hop hw]
      exact ih w (mem_written.1 (hw ▸ List.mem_cons_self)).1 h
    · rw [normalForm?_of_several hop hv] at h
      obtain rfl := Option.some.inj h
      rw [spelling_of_several hop hv, opensNegated_of_several hop hv]
      simp [grouped, isUnset]
  | none rs ih =>
    rw [spelling_none]
    simp [opensNegated]

/-- Unless it is the test that a column is not set, a rule begins with a `!` of its own exactly if
its text does. -/
theorem opensNegated_normalForm (h : r.normalForm? = some n) (hu : n.isUnset = false)
    (hs : n.spelling true = r.spelling true) : n.opensNegated = r.opensNegated := by
  have hr := head_spelling h
  have hn := head_spelling (normalForm?_normalForm h)
  rw [hu, hs] at hn
  rw [hu] at hr
  simpa using hn.symm.trans hr

/-- The text of a rule behind a `!`. -/
def negatedSpelling (r : Rule) : List Lexeme :=
  if r.opensNegated then grouped (r.spelling true) else r.spelling true

theorem spelling_none_eq (h : written rs ≠ []) (operand : Bool) :
    (chain .none rs).spelling operand = .negation :: (chain .any rs).negatedSpelling := by
  have hany : Connective.any ≠ .none := by decide
  rw [spelling_none, negatedSpelling, needsGroup, anyOpensNegated_eq]
  rcases written_cases h with ⟨w, hw, hv⟩ | hv
  · rw [spelling_of_written hany hw, opensNegated_of_written hany hw,
      visible_of_written hw, hw]
    simp [separated]
  · rw [spelling_of_several hany hv, opensNegated_of_several hany hv]
    simp [hv, separator]

theorem spelling_negate (hv : r.isVacant = false) (hu : r.isUnset = false) (operand : Bool) :
    r.negate.spelling operand = .negation :: r.negatedSpelling := by
  cases ht : r.isTest with
  | false =>
    have hw : written [r] = [r] := written_cons hv
    rw [negate_of_not_isTest ht, spelling_none_eq (by simp [hw]), negatedSpelling, negatedSpelling,
      spelling_of_written (by decide) hw, opensNegated_of_written (by decide) hw]
  | true =>
    obtain ⟨column, op, set, note, rfl⟩ := exists_of_isTest ht
    cases set with
    | false => cases hu
    | true => rfl

theorem map_spelling_normalForms
    (H : ∀ r ∈ rs, ∀ n, r.normalForm? = some n → n.spelling true = r.spelling true) :
    (rs.filterMap normalForm?).map (spelling true) = (written rs).map (spelling true) := by
  rw [← filterMap_written, List.map_filterMap, ← List.filterMap_eq_map]
  refine List.filterMap_congr fun r hr => ?_
  obtain ⟨hr, hv⟩ := mem_written.1 hr
  obtain ⟨n, hn⟩ := exists_normalForm? hv
  rw [hn, Option.map_some, H r hr n hn]
  rfl

/-- The normal form is written like the rule, if no negations cancel. -/
theorem spelling_normalForm (h : r.normalForm? = some n) (hc : r.cancels = false) (operand : Bool) :
    n.spelling operand = r.spelling operand := by
  induction r using inductionAny generalizing n operand with
  | condition c =>
    obtain rfl := Option.some.inj h
    obtain ⟨column, op, value, note⟩ := c
    cases value with
    | flag b => cases b <;> rfl
    | _ => rfl
  | chain op rs hop ih =>
    rw [cancels_chain hop, List.any_eq_false] at hc
    have hc (r : Rule) (hr : r ∈ rs) : r.cancels = false := by simpa using hc r hr
    rcases written_cases (written_ne_nil_of_normalForm? hop h) with ⟨w, hw, -⟩ | hv
    · rw [normalForm?_of_written hop hw] at h
      rw [spelling_of_written hop hw]
      have hmem : w ∈ rs := (mem_written.1 (hw ▸ List.mem_cons_self)).1
      exact ih w hmem h (hc w hmem) operand
    · rw [normalForm?_of_several hop hv] at h
      obtain rfl := Option.some.inj h
      have children := map_spelling_normalForms fun r hr n hn => ih r hr hn (hc r hr) true
      have hv' : 2 ≤ visible (rs.filterMap normalForm?) := by
        rwa [← length_written, written_normalForms, length_normalForms]
      rw [spelling_of_several hop hv, spelling_of_several hop hv', written_normalForms, children]
  | none rs ih =>
    rw [normalForm?_none_eq] at h
    obtain ⟨m, hm, rfl⟩ := Option.map_eq_some_iff.1 h
    rw [cancels_none, hm, Option.any_some, Bool.or_eq_false_iff] at hc
    obtain ⟨hc, hu⟩ := hc
    have hne := written_ne_nil_of_normalForm? (by decide) hm
    -- The parentheses behind the `!` depend on the text of the children, which stays.
    have hs := ih hm hc true
    rw [spelling_negate (isVacant_normalForm hm) hu, spelling_none_eq hne, negatedSpelling,
      negatedSpelling, hs, opensNegated_normalForm hm hu hs]

/-- **Reading leaves the text as it is** exactly if no negations cancel. -/
theorem spelling_normalForm_iff (h : r.normalForm? = some n) (operand : Bool) :
    n.spelling operand = r.spelling operand ↔ r.cancels = false := by
  refine ⟨fun hs => ?_, fun hc => spelling_normalForm h hc operand⟩
  -- Negations that cancel are missing from what is read, so the text cannot be the same.
  have hcount := congrArg (List.count .negation) hs
  rw [count_spelling, count_spelling] at hcount
  have hle := negations_normalForm h
  cases hc : r.cancels with
  | false => rfl
  | true =>
    rw [hc, Bool.toNat_true] at hle
    omega

/-! ### The text that is read again -/

/-- The lexemes of the canonical text, read from it. -/
theorem map_lexeme_render (hc : ∀ c ∈ r.conditions, c.WellFormed) :
    (lexemes r.render).map (·.lexeme.bare) = r.canonical := by
  obtain ⟨t, H, -⟩ := reads_canonical r
  have hl := map_lexeme_lexemes (.of_reads H (wellFormed_canonical hc))
  rw [render_eq, ← Function.comp_def, ← List.map_map, hl, Lexeme.map_bare_place,
    map_positive_canonical]

theorem render_eq_render_iff {s : Rule} (hr : ∀ c ∈ r.conditions, c.WellFormed)
    (hs : ∀ c ∈ s.conditions, c.WellFormed) : r.render = s.render ↔ r.canonical = s.canonical := by
  constructor
  · intro h
    rw [← map_lexeme_render hr, h, map_lexeme_render hs]
  · intro h
    rw [render_eq, render_eq, h]

/-- **The canonical text is a fixed point** of reading and writing exactly if no negations in it
cancel. -/
theorem render_of_parse_render_iff {r' : Rule} (hc : ∀ c ∈ r.conditions, c.WellFormed)
    (h : parse r.render = .ok r') : r'.render = r.render ↔ r.cancels = false := by
  obtain ⟨-, -, hm, -⟩ := parse_eq_ok_iff.1 h
  -- But for offsets, what is read is the normal form.
  obtain ⟨_, hp, hb⟩ := parse_render hc hm
  obtain rfl := Except.ok.inj (h.symm.trans hp)
  rw [render_eq_render_iff (wellFormed_of_parse h) hc, ← canonical_bare, hb]
  cases hv : r.isVacant with
  | true =>
    rw [(normalForm?_eq_none r).2 hv, canonical, canonical, if_pos hv]
    exact iff_of_true rfl (cancels_of_isVacant hv)
  | false =>
    obtain ⟨n, hn⟩ := exists_normalForm? hv
    have hv' := isVacant_normalForm hn
    rw [hn, Option.getD_some, canonical, canonical, if_neg (by simp [hv']), if_neg (by simp [hv])]
    exact spelling_normalForm_iff hn false

end Rule
end FilterQuery
