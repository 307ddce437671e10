import FilterQuery.Proofs.Rule.Normal

/-!
The nodes that pieces are of. Each piece of the canonical text of a rule comes with the path of a
node, and either it spells a part of that node, or it is a mark that the node is written with.
-/

namespace FilterQuery

/-- The piece is one of the node. A separator stands in a chain, in front of a child that is written
behind another one; the children of a `none` chain are alternatives. -/
def Fragment.Spells (node : Rule) : Fragment → Prop
  | column c => node = .condition c
  | operator c | value c => node = .condition c ∧ ∀ set, c.value ≠ .flag set
  | negation =>
    (∃ rs, node = .chain .none rs) ∨ ∃ c, node = .condition c ∧ c.value = .flag false
  | separator op before => ∃ op' rs r, node = .chain op' rs ∧
    op = (if op' = .none then .any else op') ∧ rs[before]? = some r ∧ r.isVacant = false ∧
      (rs.take before).all Rule.isVacant = false
  | groupOpen | groupClose => ∃ op rs, node = .chain op rs

namespace Rule

variable {operand follows : Bool} {op : Connective} {i : Nat} {rs : List Rule}
  {p : Path × Fragment}

theorem spells_of_mem_condition {c : Condition} (h : p ∈ (condition c).write operand) :
    p.1 = [] ∧ p.2.Spells (condition c) := by
  rw [write] at h
  obtain ⟨f, hf, rfl⟩ := List.mem_map.1 h
  refine ⟨rfl, ?_⟩
  obtain ⟨column, op, value, note⟩ := c
  cases value with
  | flag set =>
    cases set with
    | true =>
      obtain rfl := List.mem_singleton.1 hf
      rfl
    | false =>
      simp only [Condition.fragments, List.mem_cons, List.not_mem_nil, or_false] at hf
      rcases hf with rfl | rfl
      · exact .inr ⟨_, rfl, rfl⟩
      · rfl
  | text | list =>
    simp only [Condition.fragments, List.mem_cons, List.not_mem_nil, or_false] at hf
    rcases hf with rfl | rfl | rfl
    · rfl
    · exact ⟨rfl, nofun⟩
    · exact ⟨rfl, nofun⟩

/-- A piece of children in a row is one of a child, or the separator in front of one. -/
theorem exists_of_mem_writeChildren (h : p ∈ writeChildren operand op follows i rs) :
    ∃ k r, rs[k]? = some r ∧ r.isVacant = false ∧
      ((p = ([], .separator op (i + k)) ∧ (follows = true ∨ (rs.take k).all isVacant = false)) ∨
        ∃ q ∈ r.write operand, p = ((i + k) :: q.1, q.2)) := by
  induction rs generalizing follows i with
  | nil => cases h
  | cons r rs ih =>
    rw [writeChildren] at h
    cases hv : r.isVacant with
    | true =>
      rw [hv, if_pos rfl] at h
      obtain ⟨k, s, hs, hsv, H⟩ := ih h
      rw [Nat.add_right_comm, Nat.add_assoc] at H
      refine ⟨k + 1, s, hs, hsv, H.imp_left (And.imp_right (Or.imp_right fun hall => ?_))⟩
      simp [hall]
    | false =>
      rw [hv, if_neg Bool.false_ne_true, List.append_assoc, List.mem_append, List.mem_append] at h
      rcases h with h | h | h
      · cases follows with
        | false => cases h
        | true => exact ⟨0, r, rfl, hv, .inl ⟨List.mem_singleton.1 h, .inl rfl⟩⟩
      · obtain ⟨q, hq, rfl⟩ := List.mem_map.1 h
        exact ⟨0, r, rfl, hv, .inr ⟨q, hq, rfl⟩⟩
      · obtain ⟨k, s, hs, hsv, H⟩ := ih h
        rw [Nat.add_right_comm, Nat.add_assoc] at H
        exact ⟨k + 1, s, hs, hsv, H.imp_left (And.imp_right fun _ => .inr (by simp [hv]))⟩

theorem mem_enclose {group : Bool} {fs : List (Path × Fragment)} (h : p ∈ enclose group fs) :
    p = ([], .groupOpen) ∨ p = ([], .groupClose) ∨ p ∈ fs := by
  cases group with
  | false => exact .inr (.inr h)
  | true => simpa [enclose, or_comm, or_left_comm] using h

/-- **Each piece is one of the node that its path names.** -/
theorem spells_of_mem_write {r : Rule} (h : p ∈ r.write operand) :
    ∃ node, r.get? p.1 = some node ∧ p.2.Spells node := by
  induction r using induction generalizing operand p with
  | condition c =>
    obtain ⟨hp, H⟩ := spells_of_mem_condition h
    exact ⟨_, by rw [hp, get?_nil], H⟩
  | chain op rs ih =>
    have mark {f : Fragment} (H : f.Spells (chain op rs)) :
        ∃ node, (chain op rs).get? [] = some node ∧ f.Spells node := ⟨_, get?_nil _, H⟩
    have children {operand group : Bool}
        (h : p ∈ enclose group
          (writeChildren operand (if op = .none then .any else op) false 0 rs)) :
        ∃ node, (chain op rs).get? p.1 = some node ∧ p.2.Spells node := by
      rcases mem_enclose h with rfl | rfl | h
      · exact mark ⟨op, rs, rfl⟩
      · exact mark ⟨op, rs, rfl⟩
      obtain ⟨k, r, hr, hv, ⟨rfl, hfollows⟩ | ⟨q, hq, rfl⟩⟩ := exists_of_mem_writeChildren h
      · rw [Nat.zero_add]
        exact mark ⟨op, rs, r, rfl, rfl, hr, hv, hfollows.resolve_left Bool.false_ne_true⟩
      · obtain ⟨node, hnode, H⟩ := ih r (List.mem_of_getElem? hr) hq
        refine ⟨node, ?_, H⟩
        rw [Nat.zero_add, get?, hr]
        exact hnode
    cases op with
    | none =>
      rw [write] at h
      rcases List.mem_cons.1 h with rfl | h
      · exact mark (.inl ⟨rs, rfl⟩)
      · exact children h
    | all | any =>
      rw [write] at h
      · exact children h
      · exact nofun

theorem spells_of_mem_fragments {r : Rule} (h : p ∈ r.fragments) :
    ∃ node, r.get? p.1 = some node ∧ p.2.Spells node := by
  rw [fragments] at h
  split at h
  · cases h
  · exact spells_of_mem_write h

end Rule
end FilterQuery
