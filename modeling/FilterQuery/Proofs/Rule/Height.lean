import FilterQuery.Proofs.Query.Agreement
import FilterQuery.Proofs.Rule.Depth
import FilterQuery.Rule.Path

/-!
How high the rule of a query is. Each negation that is open puts one chain around an operand, and
each group two, one for its alternatives and one for the operands of an alternative; so do the
operands and the alternatives of the query itself. As no more than the limit are open at once, the
rule has a bounded height however long the query is.
-/

namespace FilterQuery

open Parse

/-! ### Heights of rules -/

namespace Rule

/-- No path in the rule has more than `k` steps. -/
def Within (k : Nat) (r : Rule) : Prop := ∀ path s, r.get? path = some s → path.length ≤ k

variable {k m : Nat} {op : Connective} {r : Rule} {rs : List Rule}

theorem Within.mono (H : r.Within k) (h : k ≤ m) : r.Within m :=
  fun path s hp => Nat.le_trans (H path s hp) h

theorem within_condition (c : Condition) : (condition c).Within 0 := by
  intro path s hp
  cases path with
  | nil => exact Nat.le_refl _
  | cons i path => cases hp

theorem Within.chain (H : ∀ r ∈ rs, r.Within k) : (chain op rs).Within (k + 1) := by
  intro path s hp
  cases path with
  | nil => exact Nat.zero_le _
  | cons i path =>
    rw [get?] at hp
    split at hp
    · rename_i r hr
      exact Nat.succ_le_succ (H r (List.mem_of_getElem? hr) path s hp)
    · cases hp

theorem Within.of_join? (h : join? op rs = some r) (H : ∀ s ∈ rs, s.Within k) :
    r.Within (k + 1) := by
  match rs with
  | [s] =>
    obtain rfl := Option.some.inj h
    exact (H s List.mem_cons_self).mono (Nat.le_succ k)
  | s :: t :: rs =>
    obtain rfl := Option.some.inj h
    exact .chain H

theorem Within.negate (H : r.Within k) : r.negate.Within (k + 1) := by
  cases ht : r.isTest with
  | true =>
    obtain ⟨c, hc⟩ := negate_of_isTest ht
    rw [hc]
    exact (within_condition c).mono (Nat.zero_le _)
  | false =>
    rw [negate_of_not_isTest ht]
    exact .chain (by simpa using H)

end Rule

/-- What may still be opened inside of a part bounds the height of its rule: two chains for each,
and those that join operands and alternatives of the part itself. -/
theorem Derives.within {limit n : Nat} {part : Part} {r : Rule} (H : Derives limit part n r) :
    r.Within (2 * (limit - n) + part.slack) := by
  induction H with
  | unit => exact (Rule.within_condition _).mono (Nat.zero_le _)
  | negate hn _ ih =>
    refine ih.negate.mono ?_
    simp only [Part.slack]
    omega
  | group hn _ ih =>
    refine ih.mono ?_
    simp only [Part.slack]
    omega
  | alternative _ hr ih => exact .of_join? hr ih
  | content _ hr ih => exact .of_join? hr ih

/-! ### The limit, state by state -/

theorem Opening.length_foldl_behind_le (os : List Opening) (ls : List Lexeme) :
    (ls.foldl behind os).length ≤ peak os ls := by
  have h := peak_append os ls []
  rw [List.append_nil, peak] at h
  exact h ▸ Nat.le_max_right _ _

theorem Parse.State.nesting_le_of_run {os : List Occurrence} {t : State}
    (h : State.run {} os = .ok t) : t.nesting ≤ maxNesting := by
  obtain ⟨H, hp⟩ := (run_eq_ok_iff settled_start (Nat.zero_le _)).1 h
  rw [← length_openings, H.openings settled_start]
  exact Nat.le_trans (Opening.length_foldl_behind_le _ _) hp

/-! ### Queries -/

namespace Rule

theorem within_of_parse {query : String} {r : Rule} (h : parse query = .ok r) :
    r.Within (2 * (maxOpen query + 1)) := by
  rcases derives_of_parse h with rfl | H
  · have H : empty.Within (0 + 1) := .chain (List.forall_mem_nil _)
    exact H.mono (by omega)
  · exact H.within

/-- **Bounds of reading.** In the rule of an accepted query no path has more than two steps for
each group and negation that may be open at once, and two. In every state on the way no more are
open than the limit allows, whether the query is accepted or not. Reading by descent comes to the
same; its counter does not pass the limit either, and it is the same behind a part as in front of
it: behind an operand, behind a group between others, and also where reading fails. -/
theorem bounded_of_parse (query : String) :
    (∀ r, parse query = .ok r → ∀ path s, r.get? path = some s →
      path.length ≤ 2 * (maxOpen query + 1) ∧ path.length ≤ 2 * (maxNesting + 1)) ∧
    (∀ os t, os <+: lexemes query → State.run {} os = .ok t → t.nesting ≤ maxNesting) ∧
    parse query = parseByDescent query ∧
    (descendQuery query).stop.deepest ≤ maxNesting ∧
    ∀ depth part done c, (descend depth part done c).stop.nesting = c.nesting := by
  refine ⟨fun r h path s hp => ?_, fun os t _ => State.nesting_le_of_run,
    parse_eq_parseByDescent query, deepest_descendQuery query,
    fun depth part done c => (balanced_descend depth part done c).nesting⟩
  obtain ⟨t, -, hm, -⟩ := parse_eq_ok_iff.1 h
  have hl := within_of_parse h path s hp
  exact ⟨hl, by omega⟩

/-- With two groups there are six steps to what stands in them last, as many as there can be. -/
theorem bounded_of_parse_groups : ∃ r s, parse "a|b&(c|d&(e|f&g))" = .ok r ∧
    r.get? [1, 1, 1, 1, 1, 1] = some s ∧ maxOpen "a|b&(c|d&(e|f&g))" = 2 ∧
    [1, 1, 1, 1, 1, 1].length ≤ 2 * (maxOpen "a|b&(c|d&(e|f&g))" + 1) := by
  have hs : ((parse "a|b&(c|d&(e|f&g))").toOption.bind (·.get? [1, 1, 1, 1, 1, 1])).isSome =
      true := by decide +kernel
  obtain ⟨s, hs⟩ := Option.isSome_iff_exists.1 hs
  obtain ⟨r, hr, hp⟩ := Option.bind_eq_some_iff.1 hs
  have h := parse_eq_ok_of_toOption hr
  exact ⟨r, s, h, hp, by decide +kernel, ((bounded_of_parse _).1 r h _ s hp).1⟩

end Rule
end FilterQuery
