import FilterQuery.Proofs.Rule.Applying
import FilterQuery.Proofs.Rule.Canonical
import FilterQuery.Proofs.Rule.Directive

/-!
Edits along a run. An edit adds no condition to a rule but those that it inserts, and changes none
but for turning a test over. So what a run of edits makes of the rule of a query can be written and
read, and its text is canonical as far as no negations cancel.
-/

namespace FilterQuery

/-! ### Conditions that can be written -/

theorem Condition.WellFormed.turned {c : Condition} (H : c.WellFormed) : c.turned.WellFormed := by
  obtain ⟨column, op, value, note⟩ := c
  cases value with
  | flag set => exact ⟨H.column_ne, by simp [Condition.turned]⟩
  | _ => exact H

namespace Rule

/-- All conditions of the rule can be written. -/
def Writable (r : Rule) : Prop := ∀ c ∈ r.conditions, c.WellFormed

theorem Writable.turned {r : Rule} (H : r.Writable) : ∀ c ∈ r.turned, c.WellFormed := by
  cases r with
  | condition c =>
    intro d hd
    obtain rfl := List.mem_singleton.1 hd
    exact (H c List.mem_cons_self).turned
  | chain op rs => exact H

end Rule

namespace Edit

variable {r payload : Rule} {e : Edit}

/-- What the edit inserts, if it inserts anything, can be written. -/
def Writable : Edit → Prop
  | insert _ _ rule => rule.Writable
  | _ => True

theorem Writable.changes (H : e.Writable) (hr : r.Writable) (h : e.Applicable r)
    {cs : List Condition} (hcs : e.Changes r cs) : ∀ c ∈ cs, c.WellFormed := by
  cases e with
  | drop path =>
    obtain ⟨s, hs⟩ := h
    obtain rfl := hcs
    rw [Rule.Writable, (Rule.nodeAt_iff.2 hs).conditions_eq] at hr
    simp only [List.forall_mem_append] at hr ⊢
    exact ⟨hr.1.1, hr.2⟩
  | insert path placement rule =>
    obtain ⟨s, hs, -⟩ := h
    obtain rfl := hcs
    rw [Rule.Writable, ← (Rule.nodeAt_iff.2 hs).front_append_back placement] at hr
    simp only [List.forall_mem_append] at hr ⊢
    exact ⟨⟨hr.1, H⟩, hr.2⟩
  | move source placement target =>
    obtain ⟨-, -, -, s, hs, -⟩ := h
    obtain ⟨front, back, hcut, rfl⟩ := hcs
    rw [Rule.Writable, ← (Rule.nodeAt_iff.2 hs).front_append_back placement] at hr
    exact fun c hc => hr c (hcut.perm.mem_iff.1 hc)
  | negate path =>
    obtain ⟨s, hs, rfl⟩ := hcs
    rw [Rule.Writable, (Rule.nodeAt_iff.2 hs).conditions_eq] at hr
    simp only [List.forall_mem_append] at hr ⊢
    exact ⟨⟨hr.1.1, Rule.Writable.turned hr.1.2⟩, hr.2⟩
  | setConnective path op =>
    obtain rfl := hcs
    exact hr

/-- An edit makes nothing of a rule that could not be written. -/
theorem Writable.apply (H : e.Writable) (hr : r.Writable) : (e.apply r).Writable := by
  by_cases h : e.Applicable r
  · exact H.changes hr h h.conditions
  · rwa [apply_of_not_applicable h]

/-- Directives insert nothing but the payload. -/
theorem Spellable.writable (H : e.Spellable payload) (hp : payload.Writable) : e.Writable := by
  cases e with
  | insert path placement rule =>
    obtain ⟨-, -, hrule⟩ := H
    rw [Writable, hrule]
    split
    · cases payload with
      | condition c => simpa [Rule.Writable, Rule.asChain] using hp
      | chain op rs => exact hp
    · exact hp
  | _ => trivial

end Edit

/-! ### Runs of edits -/

namespace Rule

variable {r r' : Rule}

/-- What edits make of the rule of a query. A rule that they insert comes from a query as well. -/
inductive Edited : Rule → Prop where
  | parsed {query : String} {r : Rule} : parse query = .ok r → Edited r
  | edit {r : Rule} {args : List String} {payload : Option Rule} {es : List Edit} {e : Edit} :
    Edited r → (∀ p ∈ payload, ∃ query, parse query = .ok p) →
    Edit.ofArguments args payload = .ok es → e ∈ es → Edited (e.apply r)

theorem Edited.writable (H : Edited r) : r.Writable := by
  induction H with
  | parsed h => exact wellFormed_of_parse h
  | @edit r args payload es e _ hp hes he ih =>
    refine ((Edit.spellable_of_ofParts hes e he).writable ?_).apply ih
    cases payload with
    | none =>
      intro c hc
      obtain rfl := List.mem_singleton.1 hc
      exact ⟨by decide, by decide⟩
    | some p =>
      obtain ⟨query, hp⟩ := hp p rfl
      exact wellFormed_of_parse hp

theorem Edited.applyAll {args : List String} {payload : Option Rule} {es : List Edit}
    (H : Edited r) (hp : ∀ p ∈ payload, ∃ query, parse query = .ok p)
    (h : Edit.ofArguments args payload = .ok es) : Edited (Edit.applyAll es r) := by
  have run (ds : List Edit) (hd : ∀ e ∈ ds, e ∈ es) (r : Rule) (H : Edited r) :
      Edited (Edit.applyAll ds r) := by
    induction ds generalizing r with
    | nil => exact H
    | cons e ds ih =>
      obtain ⟨he, hd⟩ := List.forall_mem_cons.1 hd
      exact ih hd _ (.edit H hp h he)
  exact run es (fun _ => id) r H

/-- **The text of an edited rule.** Where it is accepted, it is canonical exactly if no negations in
it cancel; and the text of what it is read as is canonical in any case. -/
theorem render_of_edited (H : Edited r) (h : parse r.render = .ok r') :
    (r'.render = r.render ↔ r.cancels = false) ∧
      ∀ r'', parse r'.render = .ok r'' → r''.render = r'.render := by
  refine ⟨render_of_parse_render_iff H.writable h, fun r'' h' => ?_⟩
  obtain ⟨-, -, hm, -⟩ := parse_eq_ok_iff.1 h'
  have H' : r' = empty ∨ r'.Normal := (derives_of_parse h).imp_right Derives.normal
  obtain ⟨s, hs, hr⟩ := Normal.render_of_parse_render H' hm
  obtain rfl := Except.ok.inj (h'.symm.trans hs)
  exact hr

/-- What a run of edits leads to can be found by evaluation. -/
theorem exists_edited {α : Type} (f : Rule → α) {a : α} (query : String) (args : List String)
    {payload : Option Rule} (hp : ∀ p ∈ payload, ∃ query, parse query = .ok p)
    (h : ((parse query).toOption.bind fun r => (Edit.ofArguments args payload).toOption.map
      fun es => f (Edit.applyAll es r)) = some a) : ∃ r, Edited r ∧ f r = a := by
  obtain ⟨r, hr, h⟩ := Option.bind_eq_some_iff.1 h
  obtain ⟨es, hes, h⟩ := Option.map_eq_some_iff.1 h
  cases he : Edit.ofArguments args payload with
  | error e =>
    rw [he] at hes
    cases hes
  | ok es' =>
    rw [he] at hes
    obtain rfl := Option.some.inj hes
    exact ⟨_, (Edited.parsed (parse_eq_ok_of_toOption hr)).applyAll hp he, h⟩

/-- What is negated is left with one condition, and a rule is put in behind. -/
theorem render_of_edited_dropped :
    ∃ r r', Edited r ∧ r.render = "!a&(c|d)" ∧ parse r.render = .ok r' ∧ r'.render = r.render := by
  have h : ((parse "c|d").toOption.bind fun p => (parse "!(a&b=1)").toOption.bind fun r =>
      (Edit.ofArguments ["drop-rule:0-1", "condition-after:"] (some p)).toOption.map
        fun es => ((Edit.applyAll es r).render, (Edit.applyAll es r).cancels)) =
      some ("!a&(c|d)", false) := by
    decide +kernel
  have hok : (parse "!a&(c|d)").toOption.isSome = true := by decide +kernel
  obtain ⟨p, hp, h⟩ := Option.bind_eq_some_iff.1 h
  have hpayload : ∀ q ∈ some p, ∃ query, parse query = .ok q := by
    rintro q ⟨⟩
    exact ⟨_, parse_eq_ok_of_toOption hp⟩
  obtain ⟨r, H, hr⟩ := exists_edited (fun r => (r.render, r.cancels)) "!(a&b=1)"
    ["drop-rule:0-1", "condition-after:"] hpayload h
  obtain ⟨hrender, hc⟩ := Prod.mk.inj hr
  obtain ⟨r', hr'⟩ := Option.isSome_iff_exists.1 hok
  have hparse : parse r.render = .ok r' := hrender ▸ parse_eq_ok_of_toOption hr'
  exact ⟨r, r', H, hrender, hparse, (render_of_edited H hparse).1.2 hc⟩

/-- Negations that cancel: with `b` dropped, the text of `!(!a&b)` and of `!(!(a&b))` is read as
that of `a`. -/
theorem render_of_edited_cancels :
    (∃ r r', Edited r ∧ r.render = "!!a" ∧ parse r.render = .ok r' ∧ r'.render = "a") ∧
      ∃ r r', Edited r ∧ r.render = "!(!a)" ∧ parse r.render = .ok r' ∧ r'.render = "a" := by
  have H (query : String) (args : List String) {text : String}
      (h : ((parse query).toOption.bind fun r => (Edit.ofArguments args none).toOption.map
        fun es => (Edit.applyAll es r).render) = some text)
      (ht : (parse text).toOption.map render = some "a") :
      ∃ r r', Edited r ∧ r.render = text ∧ parse r.render = .ok r' ∧ r'.render = "a" := by
    obtain ⟨r, H, hr⟩ := exists_edited render query args (fun p hp => by cases hp) h
    obtain ⟨r', hr', ha⟩ := Option.map_eq_some_iff.1 ht
    exact ⟨r, r', H, hr, hr ▸ parse_eq_ok_of_toOption hr', ha⟩
  constructor
  · exact H "!(!a&b)" ["drop-rule:0-1"] (by decide +kernel) (by decide +kernel)
  · exact H "!(!(a&b))" ["drop-rule:0-0-1"] (by decide +kernel) (by decide +kernel)

end Rule
end FilterQuery
