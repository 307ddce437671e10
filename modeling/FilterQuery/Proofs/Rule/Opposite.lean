import FilterQuery.Proofs.Rule.Applying

/-!
The opposite of a node matches what the node does not. An edit that negates a node puts its opposite
in its place and touches no other part of the rule. The opposite of the opposite need not be the
node itself, but it matches the same records, and so does the whole rule.
-/

namespace FilterQuery
namespace Rule

variable {r r' s s' t x : Rule} {path : Path}

/-! ### A node in another's place -/

/-- `r'` is `r` with the node `s` at a path replaced by `s'`. -/
inductive Replaced (s s' : Rule) : (r r' : Rule) → Path → Prop where
  | root : Replaced s s' s s' []
  | child {op : Connective} {us vs : List Rule} {x x' : Rule} {path : Path} :
    Replaced s s' x x' path →
    Replaced s s' (chain op (us ++ x :: vs)) (chain op (us ++ x' :: vs)) (us.length :: path)

theorem NodeAt.replaced (H : NodeAt s r path) (s' : Rule) : ∃ r', Replaced s s' r r' path := by
  induction H with
  | root => exact ⟨s', .root⟩
  | child _ ih =>
    obtain ⟨x', Hx⟩ := ih
    exact ⟨_, .child Hx⟩

namespace Replaced

variable (H : Replaced s s' r r' path)
include H

theorem modify? {f : Rule → Option Rule} (hf : f s = some s') : r.modify? f path = some r' := by
  induction H with
  | root => rwa [Rule.modify?.eq_def]
  | child _ ih => rw [modify?_child, ih]; rfl

theorem nodeAt : NodeAt s r path := by
  induction H with
  | root => exact .root
  | child _ ih => exact .child ih

theorem get?_eq : r'.get? path = some s' := by
  induction H with
  | root => exact get?_nil s'
  | child _ ih => rw [get?_child, ih]

/-- The node that has taken the place may give way to a third one. -/
theorem again (t : Rule) : ∃ r'', Replaced s' t r' r'' path ∧ Replaced s t r r'' path := by
  induction H with
  | root => exact ⟨t, .root, .root⟩
  | child _ ih =>
    obtain ⟨x'', Hx', Hx⟩ := ih
    exact ⟨_, .child Hx', .child Hx⟩

/-- There is one way to put the node in place. -/
theorem unique {r'' : Rule} (H' : Replaced s s' r r'' path) : r'' = r' := by
  have h := H.modify? (f := fun _ => some s') rfl
  exact Option.some.inj ((H'.modify? rfl).symm.trans h)

/-- Away from the path every node is the same as before. -/
theorem get?_apart {q : Path} (hq : ¬ q <+: path) (hp : ¬ path <+: q) : r'.get? q = r.get? q := by
  induction H generalizing q with
  | root => exact absurd List.nil_prefix hp
  | @child op us vs x x' path _ ih =>
    cases q with
    | nil => exact absurd List.nil_prefix hq
    | cons j q =>
      by_cases hj : us.length = j
      · subst hj
        rw [get?_child, get?_child]
        exact ih (fun h => hq ((List.prefix_cons_inj _).2 h))
          (fun h => hp ((List.prefix_cons_inj _).2 h))
      · have hset : (us ++ x :: vs).set us.length x' = us ++ x' :: vs := by simp
        rw [get?, get?, ← hset, List.getElem?_set_ne hj]

theorem populated (hr : r.Populated) (hs : s.Populated → s'.Populated) : r'.Populated := by
  induction H with
  | root => exact hs hr
  | @child op us vs x x' path _ ih =>
    obtain ⟨-, hrs⟩ : _ ∧ ∀ y ∈ us ++ x :: vs, y.Populated := by
      cases hr with
      | chain hne hrs => exact ⟨hne, hrs⟩
    refine .chain (by simp) fun y hy => ?_
    simp only [List.mem_append, List.mem_cons] at hrs hy
    rcases hy with hy | rfl | hy
    · exact hrs y (.inl hy)
    · exact ih (hrs x (.inr (.inl rfl)))
    · exact hrs y (.inr (.inr hy))

/-- A node that matches a record just as the one before does not matter to the rule. -/
theorem accepts {record : Record} (hs : s'.accepts record = s.accepts record) :
    r'.accepts record = r.accepts record := by
  induction H with
  | root => exact hs
  | child _ ih => exact accepts_chain_congr (by simp [ih])

end Replaced

/-! ### Opposites -/

theorem accepts_oppose (r : Rule) (record : Record) :
    r.oppose.accepts record = !r.accepts record := by
  unfold oppose
  split
  · simp
  · exact accepts_negate _ record

theorem Populated.negate (H : r.Populated) : r.negate.Populated := by
  cases ht : r.isTest with
  | true =>
    obtain ⟨c, hc⟩ := negate_of_isTest ht
    exact hc ▸ .condition c
  | false =>
    rw [negate_of_not_isTest ht]
    exact .chain (List.cons_ne_nil r []) fun s hs => List.mem_singleton.1 hs ▸ H

theorem Populated.oppose (H : r.Populated) : r.oppose.Populated := by
  unfold Rule.oppose
  split
  · cases H with
    | chain _ hrs => exact hrs _ List.mem_cons_self
  · exact H.negate

/-- Without an empty chain nothing is removed. -/
theorem Populated.prune_eq (H : r.Populated) : r.prune = r := by
  induction H with
  | condition c => rfl
  | @chain op rs _ hrs ih =>
    have hmap : rs.map prune = rs := (List.map_congr_left ih).trans (List.map_id rs)
    have hfilter : rs.filter (!·.isEmpty) = rs := by
      refine List.filter_eq_self.2 fun r hr => ?_
      cases hrs r hr with
      | condition c => rfl
      | chain hne _ => simpa [isEmpty] using hne
    rw [prune, pruneAll_eq, hmap, hfilter]

end Rule

namespace Edit

open Rule

variable {r r' s : Rule} {path : Path}

/-- In a rule without empty chains, the opposite of a node takes its place. -/
theorem replaced_negate (H : r.Populated) (hs : r.get? path = some s) :
    Replaced s s.oppose r ((negate path).apply r) path ∧ ((negate path).apply r).Populated := by
  obtain ⟨r', Hr⟩ := (nodeAt_iff.2 hs).replaced s.oppose
  have hr' : r'.Populated := Hr.populated H Populated.oppose
  have happly : (negate path).apply r = r' := by
    rw [apply, attempt?, Hr.modify? rfl]
    exact hr'.prune_eq
  rw [happly]
  exact ⟨Hr, hr'⟩

theorem apply_negate_eq (H : r.Populated) (Hr : Replaced s s.oppose r r' path) :
    (negate path).apply r = r' :=
  Hr.unique (replaced_negate H (nodeAt_iff.1 Hr.nodeAt)).1

/-- **Negation is the complement.** The node at the path matches a record exactly if it did not
before, no node beside the path is touched, and negated twice the rule matches what it matched. -/
theorem accepts_apply_negate (H : r.Populated) (hs : r.get? path = some s) :
    (∃ s', ((negate path).apply r).get? path = some s' ∧
      ∀ record, s'.accepts record = !s.accepts record) ∧
    (∀ q, ¬ q <+: path → ¬ path <+: q → ((negate path).apply r).get? q = r.get? q) ∧
    ∀ record, ((negate path).apply ((negate path).apply r)).accepts record = r.accepts record := by
  obtain ⟨Hr, H'⟩ := replaced_negate H hs
  refine ⟨⟨s.oppose, Hr.get?_eq, s.accepts_oppose⟩, fun q => Hr.get?_apart, fun record => ?_⟩
  -- Both edits are one replacement, of the node by the opposite of its opposite.
  obtain ⟨r'', Hr', Hr''⟩ := Hr.again s.oppose.oppose
  obtain ⟨Htwice, -⟩ := replaced_negate H' Hr.get?_eq
  rw [Hr'.unique Htwice]
  exact Hr''.accepts (by rw [accepts_oppose, accepts_oppose, Bool.not_not])

/-- A `none` chain of a test is undone first, and then the test is turned over. -/
theorem accepts_apply_negate_test : ∃ r s : Rule, ∃ path record,
    r.Populated ∧ r.get? path = some s ∧
    ((∃ s', ((negate path).apply r).get? path = some s' ∧
        ∀ record, s'.accepts record = !s.accepts record) ∧
      (∀ q, ¬ q <+: path → ¬ path <+: q → ((negate path).apply r).get? q = r.get? q) ∧
      ∀ record, ((negate path).apply ((negate path).apply r)).accepts record = r.accepts record) ∧
    ¬ ((negate path).apply ((negate path).apply r)).Same r ∧ r.accepts record = false ∧
    ((negate path).apply r).accepts record = true := by
  let r : Rule := .chain .all [.test "a" true, .chain .none [.test "b" true]]
  have H : r.Populated := by
    refine .chain (List.cons_ne_nil _ _) fun s hs => ?_
    rcases List.mem_pair.1 hs with rfl | rfl
    · exact .condition _
    · refine .chain (List.cons_ne_nil _ _) fun t ht => ?_
      obtain rfl := List.mem_singleton.1 ht
      exact .condition _
  exact ⟨r, _, [1], fun _ => some "1", H, rfl, accepts_apply_negate H rfl, by decide, by decide,
    by decide⟩

end Edit
end FilterQuery
