import FilterQuery.Proofs.Rule.Reading

/-!
The canonical text says what the rule says. It is read as the normal form, so a normal rule comes
back as it was, and any rule without empty chains comes back with the same matches.
-/

namespace FilterQuery

namespace Rule

variable {r : Rule}

/-! ### Reading back -/

theorem wellFormed_canonical (hc : ∀ c ∈ r.conditions, c.WellFormed) :
    ∀ l ∈ r.canonical, l.WellFormed := by
  rw [canonical]
  split
  · exact List.forall_mem_nil _
  · exact wellFormed_spelling hc false

theorem map_positive_canonical (r : Rule) :
    r.canonical.map Lexeme.positive = r.canonical := by
  rw [canonical]
  split
  · rfl
  · exact map_positive_spelling r false

theorem maxOpen_render (hc : ∀ c ∈ r.conditions, c.WellFormed) :
    maxOpen r.render = Opening.peak [] r.canonical := by
  obtain ⟨t, H, -⟩ := reads_canonical r
  rw [render_eq, maxOpen_spell (.of_reads H (wellFormed_canonical hc))]

/-- The canonical text of any rule is read as its normal form, if it does not nest too deep. -/
theorem parse_render (hc : ∀ c ∈ r.conditions, c.WellFormed)
    (hm : maxOpen r.render ≤ maxNesting) :
    ∃ r', parse r.render = .ok r' ∧ r'.bare = r.normalForm?.getD empty := by
  obtain ⟨t, H, ht⟩ := reads_canonical r
  rw [maxOpen_render hc] at hm
  rw [render_eq, ← ht]
  exact parse_spell (wellFormed_canonical hc) (map_positive_canonical r) H hm

/-- Otherwise it is refused for that reason. -/
theorem parse_render_error (hc : ∀ c ∈ r.conditions, c.WellFormed)
    (hm : maxNesting < maxOpen r.render) :
    ∃ e, parse r.render = .error e ∧ e.reason = .nestingTooDeep := by
  obtain ⟨t, H, -⟩ := reads_canonical r
  rw [maxOpen_render hc] at hm
  rw [render_eq]
  exact parse_spell_error (wellFormed_canonical hc) (map_positive_canonical r) H hm

theorem Normal.wellFormed (H : r.Normal) : ∀ c ∈ r.conditions, c.WellFormed := by
  induction H with
  | condition h => simpa using h.toWellFormed
  | chain _ _ _ ih =>
    intro c hc
    rw [conditions_chain] at hc
    obtain ⟨r, hr, hc⟩ := List.mem_flatMap.1 hc
    exact ih r hr c hc
  | none _ _ ih => simpa using ih

/-- **Round trip.** A normal rule is read back from its canonical text, annotations apart. -/
theorem same_of_parse_render (H : r = empty ∨ r.Normal) (hm : maxOpen r.render ≤ maxNesting) :
    ∃ r', parse r.render = .ok r' ∧ r'.Same r := by
  rcases H with rfl | H
  · exact parse_render (by simp [empty]) hm
  · obtain ⟨r', hp, hr⟩ := parse_render H.wellFormed hm
    exact ⟨r', hp, by rw [Same, hr, H.normalForm?_eq]; rfl⟩

theorem parse_render_negated_alternatives :
    ∃ r', parse (chain .none
        [chain .any [test "a b" false, compare .lt "ü" (.list ["1|2", ""])]]).render = .ok r' ∧
      r'.Same (chain .none
        [chain .any [test "a b" false, compare .lt "ü" (.list ["1|2", ""])]]) := by
  refine same_of_parse_render (.inr (.none (.chain (by decide) (Nat.le_refl 2) ?_) rfl))
    (by decide +kernel)
  intro r hr
  rcases List.mem_pair.1 hr with rfl | rfl
  · exact .condition { column_ne := by decide, value_ne := by decide, comparison_eq := fun _ _ => rfl }
  · exact .condition { column_ne := by decide, value_ne := by decide, comparison_eq := by simp }

/-! ### Meaning -/

/-- Rules in which every chain has a child. -/
inductive Populated : Rule → Prop where
  | condition (c : Condition) : Populated (condition c)
  | chain {op : Connective} {rs : List Rule} : rs ≠ [] → (∀ r ∈ rs, Populated r) →
    Populated (chain op rs)

@[simp] theorem accepts_all (record : Record) (rs : List Rule) :
    (chain .all rs).accepts record = rs.all (·.accepts record) := by
  rw [accepts, allMatch_eq]

@[simp] theorem accepts_any (record : Record) (rs : List Rule) :
    (chain .any rs).accepts record = (rs.isEmpty || rs.any (·.accepts record)) := by
  rw [accepts, anyMatches_eq]

@[simp] theorem accepts_none (record : Record) (rs : List Rule) :
    (chain .none rs).accepts record = !rs.any (·.accepts record) := by
  rw [accepts, anyMatches_eq]

/-- Only the matches of the children count. -/
theorem accepts_chain_congr {op : Connective} {rs ss : List Rule} {record : Record}
    (h : rs.map (accepts record) = ss.map (accepts record)) :
    (chain op rs).accepts record = (chain op ss).accepts record := by
  have hall : rs.all (accepts record) = ss.all (accepts record) := by
    simpa using congrArg (List.all · id) h
  have hany : rs.any (accepts record) = ss.any (accepts record) := by
    simpa using congrArg (List.any · id) h
  have hempty : rs.isEmpty = ss.isEmpty := by
    simpa using congrArg List.isEmpty h
  cases op <;> simp [hall, hany, hempty]

theorem accepts_negate (r : Rule) (record : Record) :
    r.negate.accepts record = !r.accepts record := by
  cases r with
  | chain op rs => simp [negate]
  | condition c =>
    obtain ⟨column, op, value, note⟩ := c
    cases value with
    | flag b =>
      simp only [negate, accepts, Condition.accepts]
      cases isSet (record column) <;> cases b <;> rfl
    | _ => simp [negate]

theorem accepts_of_join? {op : Connective} (hop : op ≠ .none) {rs : List Rule} {n : Rule}
    (h : join? op rs = some n) (record : Record) :
    n.accepts record = (chain op rs).accepts record := by
  match rs with
  | [r] =>
    obtain rfl := Option.some.inj h
    cases op <;> simp at hop ⊢
  | r :: s :: rs =>
    obtain rfl := Option.some.inj h
    rfl

@[simp] theorem accepts_bare (r : Rule) (record : Record) :
    r.bare.accepts record = r.accepts record := by
  induction r using induction with
  | condition c => rfl
  | chain op rs ih =>
    rw [bare_chain]
    refine accepts_chain_congr ?_
    rw [List.map_map]
    exact List.map_congr_left ih

theorem map_accepts_normalForms {rs : List Rule} (record : Record)
    (h : ∀ r ∈ rs, ∃ n, r.normalForm? = some n ∧ n.accepts record = r.accepts record) :
    (rs.filterMap normalForm?).map (accepts record) = rs.map (accepts record) := by
  induction rs with
  | nil => rfl
  | cons r rs ih =>
    obtain ⟨n, hn, ha⟩ := h r List.mem_cons_self
    rw [List.filterMap_cons, hn, List.map_cons, List.map_cons, ha,
      ih fun r hr => h r (List.mem_cons_of_mem _ hr)]

/-- The normal form matches the same records. -/
theorem Populated.accepts_normalForm? (H : r.Populated) :
    ∃ n, r.normalForm? = some n ∧ ∀ record, n.accepts record = r.accepts record := by
  induction H with
  | condition c => exact ⟨_, rfl, fun record => c.accepts_normalForm record⟩
  | @chain op rs hne _ ih =>
    have hmap (record : Record) := map_accepts_normalForms record fun r hr =>
      let ⟨n, hn, ha⟩ := ih r hr
      ⟨n, hn, ha record⟩
    have hne' : rs.filterMap normalForm? ≠ [] := fun he => by
      simpa [he, hne] using hmap fun _ => none
    -- The children of a `none` chain are joined as alternatives before they are negated.
    cases op with
    | none =>
      obtain ⟨m, hm⟩ := Option.ne_none_iff_exists'.1 (mt join?_eq_none.1 hne' : join? .any _ ≠ none)
      refine ⟨m.negate, by rw [normalForm?_none, hm]; rfl, fun record => ?_⟩
      rw [accepts_negate, accepts_of_join? (by decide) hm, accepts_chain_congr (hmap record)]
      simp [hne]
    | _ =>
      obtain ⟨m, hm⟩ := Option.ne_none_iff_exists'.1 (mt join?_eq_none.1 hne' : join? _ _ ≠ none)
      refine ⟨m, by rw [normalForm?_chain (by decide), hm], fun record => ?_⟩
      rw [accepts_of_join? (by decide) hm, accepts_chain_congr (hmap record)]

/-- **The canonical text means what the rule means**, whatever the rule looks like. -/
theorem accepts_of_parse_render (H : r.Populated ∨ ∃ op, r = chain op [])
    (hc : ∀ c ∈ r.conditions, c.WellFormed) (hm : maxOpen r.render ≤ maxNesting) :
    ∃ r', parse r.render = .ok r' ∧ ∀ record, r'.accepts record = r.accepts record := by
  obtain ⟨r', hp, hr⟩ := parse_render hc hm
  refine ⟨r', hp, fun record => ?_⟩
  rw [← accepts_bare, hr]
  rcases H with H | ⟨op, rfl⟩
  · obtain ⟨n, hn, ha⟩ := H.accepts_normalForm?
    rw [hn]
    exact ha record
  · cases op <;> rfl

theorem accepts_of_parse_render_single :
    ∃ r', parse (chain .none [chain .all [compare .gt "y" (.flag false)],
        compare .ge "x" (.text "10")]).render = .ok r' ∧
      ∀ record, r'.accepts record = (chain .none [chain .all [compare .gt "y" (.flag false)],
        compare .ge "x" (.text "10")]).accepts record := by
  refine accepts_of_parse_render (.inl (.chain (by simp) ?_)) ?_ (by decide +kernel)
  · intro r hr
    rcases List.mem_pair.1 hr with rfl | rfl
    · refine .chain (by simp) fun r hr => ?_
      rw [List.mem_singleton.1 hr]
      exact .condition _
    · exact .condition _
  · intro c hc
    rcases List.mem_pair.1 hc with rfl | rfl
    · exact ⟨by decide, by decide⟩
    · exact ⟨by decide, by decide⟩

end Rule
end FilterQuery
