import FilterQuery.Proofs.Rule.Moving
import FilterQuery.Proofs.Rule.RoundTrip

/-!
When edits apply, and what they do then. An edit applies exactly if it finds the nodes that it
names, and a chain where it needs one; otherwise the rule stays as it is. An edit that applies
changes the conditions in one place and leaves no empty chain below the root, and so does a run of
edits.
-/

namespace FilterQuery

/-- The condition with a test turned over. -/
def Condition.turned (c : Condition) : Condition :=
  match c.value with
  | .flag set => { c with value := .flag !set }
  | _ => c

namespace Rule

/-- The conditions of the opposite of a node. Only a node that is a test itself is turned over. -/
def turned : Rule → List Condition
  | condition c => [c.turned]
  | r => r.conditions

theorem conditions_oppose (r : Rule) : r.oppose.conditions = r.turned := by
  cases r with
  | condition c =>
    obtain ⟨column, op, value, note⟩ := c
    cases value <;> rfl
  | chain op rs =>
    unfold oppose
    split <;> rename_i h
    · obtain ⟨-, rfl⟩ := chain.inj h
      simp [turned]
    · simp [negate, turned]

end Rule

namespace Edit

variable {r r' : Rule} {e : Edit}

/-- The edit finds the nodes that it names, and a chain where it needs one. A node is not moved into
itself. -/
def Applicable (r : Rule) : Edit → Prop
  | drop path => ∃ s, r.get? path = some s
  | insert path placement _ => ∃ s, r.get? path = some s ∧ (placement = .into → s.isChain = true)
  | move source placement target => source ≠ [] ∧ ¬ source <+: target ∧
    (∃ s, r.get? source = some s) ∧
    ∃ s, r.get? target = some s ∧ (placement = .into → s.isChain = true)
  | negate path => ∃ s, r.get? path = some s
  | setConnective path _ => ∃ s, r.get? path = some s ∧ s.isChain = true

/-- What becomes of the conditions of a rule by an edit that applies. -/
def Changes (r : Rule) (cs : List Condition) : Edit → Prop
  | drop path => cs = r.before path ++ r.behind path
  | insert path placement rule =>
    cs = r.front path placement ++ rule.conditions ++ r.back path placement
  | move source placement target => ∃ front back,
    Cut (r.block source) (r.before source) (r.behind source) (r.front target placement)
      (r.back target placement) front back ∧ cs = front ++ r.block source ++ back
  | negate path => ∃ s, r.get? path = some s ∧ cs = r.before path ++ s.turned ++ r.behind path
  | setConnective _ _ => cs = r.conditions

theorem Applicable.attempt? (H : e.Applicable r) :
    ∃ r', e.attempt? r = some r' ∧ e.Changes r r'.conditions := by
  cases e with
  | drop path =>
    obtain ⟨s, hs⟩ := H
    obtain ⟨r', hr, hc⟩ := (Rule.nodeAt_iff.2 hs).remove?
    exact ⟨r', by rw [Edit.attempt?, hr]; rfl, hc⟩
  | insert path placement rule =>
    obtain ⟨s, hs, hp⟩ := H
    exact (Rule.nodeAt_iff.2 hs).insert? rule placement hp
  | move source placement target =>
    obtain ⟨-, h, ⟨moved, hm⟩, s, hs, hp⟩ := H
    have Hm := Rule.nodeAt_iff.2 hm
    obtain ⟨r', front, back, hr, hcut, hc⟩ := Hm.move? (Rule.nodeAt_iff.2 hs) h hp
    rw [← Hm.block_eq] at hcut hc
    exact ⟨r', hr, front, back, hcut, hc⟩
  | negate path =>
    obtain ⟨s, hs⟩ := H
    obtain ⟨r', hr, hc⟩ :=
      (Rule.nodeAt_iff.2 hs).conditions_modify? (f := fun node => some node.oppose) rfl
    exact ⟨r', hr, s, hs, by rw [hc, s.conditions_oppose]⟩
  | setConnective path op =>
    obtain ⟨s, hs, hchain⟩ := H
    cases s with
    | condition c => cases hchain
    | chain op' rs =>
      have Hs := Rule.nodeAt_iff.2 hs
      obtain ⟨r', hr, hc⟩ := Hs.conditions_modify? (f := Rule.withConnective? op) rfl
      refine ⟨r', hr, ?_⟩
      rw [Changes, hc, Hs.conditions_eq]
      simp

theorem applicable_of_move? {source target : Path} {placement : Placement}
    (h : r.move? source placement target = some r') :
    (move source placement target).Applicable r := by
  rw [Rule.move?] at h
  split at h
  · cases h
  · rename_i hn
    simp only [Bool.or_eq_true, decide_eq_true_eq, not_or, Option.isNone_iff_eq_none] at hn
    obtain ⟨hp, ht⟩ := hn
    obtain ⟨node, hnode⟩ := Option.ne_none_iff_exists'.1 ht
    split at h
    · rename_i moved rest hr
      obtain ⟨s, hs⟩ := Rule.exists_of_remove? hr
      -- The target is found in what is left, and it is a chain there if it was one before.
      obtain ⟨rest', node', hr', H, hchain, -⟩ :=
        (Rule.nodeAt_iff.2 hs).rest (Rule.nodeAt_iff.2 hnode) hp
      obtain ⟨rfl, rfl⟩ := Prod.mk.inj (Option.some.inj (hr.symm.trans hr'))
      obtain ⟨t, ht, hc⟩ := Rule.exists_of_insert? h
      obtain rfl := Option.some.inj (ht.symm.trans (Rule.nodeAt_iff.1 H))
      exact ⟨fun he => hp (he ▸ List.nil_prefix), hp, ⟨_, hs⟩, node, hnode, hchain ▸ hc⟩
    · cases h

/-- An edit applies only if it finds what it needs. -/
theorem applicable_of_attempt? (h : e.attempt? r = some r') : e.Applicable r := by
  cases e with
  | drop path =>
    obtain ⟨p, hp, -⟩ := Option.map_eq_some_iff.1 h
    exact Rule.exists_of_remove? hp
  | insert path placement rule => exact Rule.exists_of_insert? h
  | move source placement target => exact applicable_of_move? h
  | negate path =>
    obtain ⟨s, s', hs, -⟩ := Rule.exists_of_modify? h
    exact ⟨s, hs⟩
  | setConnective path op =>
    obtain ⟨s, s', hs, hf⟩ := Rule.exists_of_modify? h
    cases s with
    | condition c => cases hf
    | chain op' rs => exact ⟨_, hs, rfl⟩

theorem Applicable.conditions (H : e.Applicable r) : e.Changes r (e.apply r).conditions := by
  obtain ⟨r', hr, hc⟩ := H.attempt?
  rw [apply, hr, Rule.conditions_prune]
  exact hc

theorem apply_of_not_applicable (H : ¬ e.Applicable r) : e.apply r = r := by
  cases h : e.attempt? r with
  | none => rw [apply, h]
  | some r' => exact absurd (applicable_of_attempt? h) H

/-- **An edit applies** exactly if it finds what it needs. It then changes the conditions where it
should and nowhere else; otherwise the rule is the same as before, empty chains included. -/
theorem conditions_apply (e : Edit) (r : Rule) :
    (e.Applicable r → e.Changes r (e.apply r).conditions) ∧ (¬ e.Applicable r → e.apply r = r) :=
  ⟨Applicable.conditions, apply_of_not_applicable⟩

/-- A test that is turned over, and a node that is not moved into a test. -/
theorem conditions_apply_test : ∃ r : Rule,
    (negate [1]).Applicable r ∧ (negate [1]).Changes r ((negate [1]).apply r).conditions ∧
    ((negate [1]).apply r).conditions.map (·.value) = [.flag false, .flag true] ∧
    ¬ (move [1] .into [2, 0]).Applicable r ∧ (move [1] .into [2, 0]).apply r = r := by
  let r : Rule := .chain .any [.empty, .test "a" true, .chain .none [.test "b" true]]
  have H : (negate [1]).Applicable r := ⟨_, rfl⟩
  have H' : ¬ (move [1] .into [2, 0]).Applicable r := by
    rintro ⟨-, -, -, s, hs, hc⟩
    obtain rfl := Option.some.inj hs
    cases hc rfl
  exact ⟨r, H, (conditions_apply _ r).1 H, by decide, H', (conditions_apply _ r).2 H'⟩

end Edit

/-! ### Empty chains -/

namespace Rule

/-- Below the root every chain has a child. -/
def PopulatedBelow : Rule → Prop
  | condition _ => True
  | chain _ rs => ∀ r ∈ rs, r.Populated

theorem Populated.of_below {r : Rule} (h : r.isEmpty = false) (H : r.PopulatedBelow) :
    r.Populated := by
  cases r with
  | condition c => exact .condition c
  | chain op rs => exact .chain (by simpa [isEmpty] using h) H

/-- What is left of a child is no empty chain, nor is there one below it. -/
theorem populatedBelow_prune (r : Rule) : r.prune.PopulatedBelow := by
  induction r using induction with
  | condition c => trivial
  | chain op rs ih =>
    rw [prune, pruneAll_eq]
    intro s hs
    obtain ⟨hs, he⟩ := List.mem_filter.1 hs
    obtain ⟨r, hr, rfl⟩ := List.mem_map.1 hs
    exact .of_below (by simpa using he) (ih r hr)

end Rule

namespace Edit

variable {r : Rule} {e : Edit}

theorem Applicable.populatedBelow (H : e.Applicable r) : (e.apply r).PopulatedBelow := by
  obtain ⟨r', hr, -⟩ := H.attempt?
  rw [apply, hr]
  exact r'.populatedBelow_prune

/-- Edits that do not apply leave the rule as it is, and the others need no help. -/
theorem populatedBelow_apply (H : r.PopulatedBelow) (e : Edit) : (e.apply r).PopulatedBelow := by
  by_cases h : e.Applicable r
  · exact h.populatedBelow
  · rwa [apply_of_not_applicable h]

/-- **No chain below the root is empty** after any run of edits, whatever they put in, if none was
before; and a single edit that applies leaves none in any case. -/
theorem populatedBelow_of_edits (r : Rule) :
    (r.PopulatedBelow → ∀ es, (applyAll es r).PopulatedBelow) ∧
      ∀ e : Edit, e.Applicable r → (e.apply r).PopulatedBelow := by
  refine ⟨fun H es => ?_, fun e h => h.populatedBelow⟩
  induction es generalizing r with
  | nil => exact H
  | cons e es ih => exact ih (e.apply r) (populatedBelow_apply H e)

/-- The last condition below two chains is dropped, and empty chains are put in its place. -/
theorem populatedBelow_of_edits_cascade : ∃ r : Rule,
    r.PopulatedBelow ∧ r.conditions.map (·.column) = ["a", "b"] ∧
    (drop [1, 0, 0]).Applicable r ∧ ((drop [1, 0, 0]).apply r).PopulatedBelow ∧
    (applyAll [drop [1, 0, 0], insert [] .into (.chain .none [.chain .all []])] r).PopulatedBelow ∧
    (applyAll [drop [1, 0, 0], insert [] .into (.chain .none [.chain .all []])] r).conditions.map
      (·.column) = ["a"] := by
  let r : Rule := .chain .all [.test "a" true, .chain .none [.chain .any [.test "b" true]]]
  have H : r.PopulatedBelow := by
    intro s hs
    rcases List.mem_pair.1 hs with rfl | rfl
    · exact .condition _
    · refine .chain (by decide) fun t ht => ?_
      obtain rfl := List.mem_singleton.1 ht
      refine .chain (by decide) fun t ht => ?_
      obtain rfl := List.mem_singleton.1 ht
      exact .condition _
  have h : (drop [1, 0, 0]).Applicable r := ⟨_, rfl⟩
  exact ⟨r, H, by decide, h, (populatedBelow_of_edits r).2 _ h, (populatedBelow_of_edits r).1 H _,
    by decide⟩

end Edit
end FilterQuery
