import FilterQuery.Proofs.Rule.Naming
import FilterQuery.Proofs.Rule.Terms

/-!
What the pieces of a rule cover. Every condition of a rule, whatever chains it stands in, is written
once and where its path says, in the order of the rule; and parentheses stand in pairs.
-/

namespace FilterQuery

/-! ### Columns and their paths -/

/-- The condition whose column a piece is, with the path of the piece. -/
def columnAt? (p : Path × Fragment) : Option (Path × Condition) := p.2.column?.map (p.1, ·)

/-- The conditions whose columns are among the pieces, with the paths of these. -/
def columnsAt (fs : List (Path × Fragment)) : List (Path × Condition) := fs.filterMap columnAt?

/-- Conditions named from the parent of the node that they are named from. -/
def under (i : Nat) (cs : List (Path × Condition)) : List (Path × Condition) :=
  cs.map fun p => (i :: p.1, p.2)

theorem columnsAt_append (fs gs : List (Path × Fragment)) :
    columnsAt (fs ++ gs) = columnsAt fs ++ columnsAt gs := List.filterMap_append

theorem columnsAt_enclose (group : Bool) (fs : List (Path × Fragment)) :
    columnsAt (Rule.enclose group fs) = columnsAt fs := by
  cases group with
  | false => rfl
  | true => exact (columnsAt_append fs _).trans (List.append_nil _)

theorem columnsAt_beneath (i : Nat) (fs : List (Path × Fragment)) :
    columnsAt (Rule.beneath i fs) = under i (columnsAt fs) := by
  rw [columnsAt, Rule.beneath, List.filterMap_map, under, columnsAt, List.map_filterMap]
  refine List.filterMap_congr fun p _ => ?_
  obtain ⟨path, f⟩ := p
  cases f <;> rfl

theorem map_snd_columnsAt (fs : List (Path × Fragment)) :
    (columnsAt fs).map Prod.snd = columnsOf fs := by
  rw [columnsAt, List.map_filterMap, columnsOf]
  refine List.filterMap_congr fun p _ => ?_
  obtain ⟨path, f⟩ := p
  cases f <;> rfl

theorem mem_columnsAt {path : Path} {c : Condition} {fs : List (Path × Fragment)} :
    (path, c) ∈ columnsAt fs ↔ (path, .column c) ∈ fs := by
  rw [columnsAt, List.mem_filterMap]
  constructor
  · rintro ⟨⟨path', f⟩, hf, hc⟩
    cases f with
    | column d =>
      obtain ⟨rfl, rfl⟩ := Prod.mk.inj (Option.some.inj hc)
      exact hf
    | _ => cases hc
  · exact fun h => ⟨_, h, rfl⟩

namespace Rule

variable {op : Connective} {rs : List Rule} {r : Rule} {path : Path} {c : Condition}

theorem columnsAt_of_isVacant (h : r.isVacant = true) (operand : Bool) :
    columnsAt (r.write operand) = [] := by
  rw [← List.map_eq_nil_iff (f := Prod.snd), map_snd_columnsAt, columnsOf_write,
    conditions_of_isVacant h]

theorem columnsAt_writeChildren (operand : Bool) (op : Connective) (follows : Bool) (i : Nat)
    (rs : List Rule) : columnsAt (writeChildren operand op follows i rs) =
      (rs.zipIdx i).flatMap fun p => under p.2 (columnsAt (p.1.write operand)) := by
  induction rs generalizing follows i with
  | nil => rfl
  | cons r rs ih =>
    rw [writeChildren, List.zipIdx_cons, List.flatMap_cons]
    split <;> rename_i hv
    · rw [ih, columnsAt_of_isVacant hv]
      rfl
    · rw [columnsAt_append, columnsAt_append, columnsAt_beneath, ih]
      cases follows <;> rfl

theorem exists_columnsAt_chain (operand : Bool) (op : Connective) (rs : List Rule) :
    ∃ inner, columnsAt ((chain op rs).write operand) =
      rs.zipIdx.flatMap fun p => under p.2 (columnsAt (p.1.write inner)) := by
  obtain ⟨group, inner, op', h⟩ := write_chain_cases operand op rs
  have H := (columnsAt_enclose group _).trans (columnsAt_writeChildren inner op' false 0 rs)
  refine ⟨inner, ?_⟩
  rcases h with h | h <;> rw [h]
  · exact H
  · exact H

theorem columnsAt_condition (c : Condition) (operand : Bool) :
    columnsAt ((condition c).write operand) = [([], c)] := by
  obtain ⟨column, op, value, note⟩ := c
  cases value with
  | flag set => cases set <;> rfl
  | _ => rfl

/-- A column is written at each path of a condition, and nowhere else. -/
theorem mem_columnsAt_write {operand : Bool} :
    (path, c) ∈ columnsAt (r.write operand) ↔ r.get? path = some (condition c) := by
  induction r using induction generalizing operand path with
  | condition d =>
    rw [columnsAt_condition, List.mem_singleton, Prod.mk.injEq]
    cases path with
    | nil => simp [eq_comm]
    | cons i path => simp [get?]
  | chain op rs ih =>
    obtain ⟨inner, h⟩ := exists_columnsAt_chain operand op rs
    rw [h, List.mem_flatMap]
    constructor
    · rintro ⟨⟨r, k⟩, hr, hmem⟩
      obtain ⟨⟨below, d⟩, hd, he⟩ := List.mem_map.1 hmem
      obtain ⟨rfl, rfl⟩ := Prod.mk.inj he
      have hr : rs[k]? = some r := List.mem_zipIdx_iff_getElem?.1 hr
      rw [get?, hr]
      exact (ih r (List.mem_of_getElem? hr)).1 hd
    · intro hget
      cases path with
      | nil => simp at hget
      | cons k path =>
        rw [get?] at hget
        split at hget
        · rename_i r hr
          have hmem := (@ih r (List.mem_of_getElem? hr) path inner).2 hget
          exact ⟨(r, k), List.mem_zipIdx_iff_getElem?.2 hr, List.mem_map_of_mem hmem⟩
        · cases hget

/-- The paths of the columns go up, a path being less than those that go on from it. -/
theorem pairwise_columnsAt_write (r : Rule) (operand : Bool) :
    (columnsAt (r.write operand)).Pairwise fun p q => p.1 < q.1 := by
  induction r using induction generalizing operand with
  | condition c =>
    rw [columnsAt_condition]
    exact List.pairwise_singleton _ _
  | chain op rs ih =>
    obtain ⟨inner, h⟩ := exists_columnsAt_chain operand op rs
    have hindices : rs.zipIdx.Pairwise fun p q => p.2 < q.2 := by
      rw [← List.pairwise_map (f := Prod.snd), List.zipIdx_map_snd]
      exact List.pairwise_lt_range' 1
    rw [h, List.pairwise_flatMap]
    refine ⟨fun p hp => ?_, hindices.imp fun hlt x hx y hy => ?_⟩
    · have hp := ih p.1 (List.fst_mem_of_mem_zipIdx hp) inner
      exact List.pairwise_map.2 (hp.imp List.cons_lt_cons_self.2)
    · obtain ⟨x, -, rfl⟩ := List.mem_map.1 hx
      obtain ⟨y, -, rfl⟩ := List.mem_map.1 hy
      exact List.cons_lt_cons_iff.2 (.inl hlt)

theorem columnsAt_fragments (r : Rule) : columnsAt r.fragments = columnsAt (r.write false) := by
  rw [fragments]
  split <;> rename_i hv
  · exact (columnsAt_of_isVacant hv false).symm
  · rfl

/-! ### Vacant rules -/

theorem isVacant_iff (r : Rule) : r.isVacant = true ↔ r.conditions = [] := by
  refine ⟨conditions_of_isVacant, fun h => ?_⟩
  induction r using induction with
  | condition c => cases h
  | chain op rs ih =>
    rw [conditions_chain, List.flatMap_eq_nil_iff] at h
    rw [isVacant, allVacant_eq, List.all_eq_true]
    exact fun r hr => ih r hr (h r hr)

end Rule

/-! ### Parentheses -/

/-- Pieces in which parentheses stand in pairs, both of the same chain. -/
inductive Bracketed : List (Path × Fragment) → Prop where
  | nil : Bracketed []
  | piece {p : Path × Fragment} {fs : List (Path × Fragment)} : p.2 ≠ .groupOpen →
    p.2 ≠ .groupClose → Bracketed fs → Bracketed (p :: fs)
  | group {path : Path} {fs gs : List (Path × Fragment)} : Bracketed fs → Bracketed gs →
    Bracketed ((path, .groupOpen) :: fs ++ (path, .groupClose) :: gs)

namespace Bracketed

variable {fs gs : List (Path × Fragment)}

theorem append (H : Bracketed fs) (H' : Bracketed gs) : Bracketed (fs ++ gs) := by
  induction H with
  | nil => exact H'
  | piece h h' _ ih => exact .piece h h' ih
  | @group path fs hs H _ _ ih =>
    rw [List.append_assoc]
    exact .group H ih

theorem beneath (i : Nat) (H : Bracketed fs) : Bracketed (Rule.beneath i fs) := by
  induction H with
  | nil => exact .nil
  | piece h h' _ ih => exact .piece h h' ih
  | group _ _ ih ih' =>
    rw [Rule.beneath, List.map_append]
    exact .group ih ih'

theorem enclose (group : Bool) (H : Bracketed fs) : Bracketed (Rule.enclose group fs) := by
  cases group with
  | false => exact H
  | true => exact .group H .nil

theorem writeChildren {rs : List Rule} {operand : Bool}
    (ih : ∀ r ∈ rs, Bracketed (r.write operand)) (op : Connective) (follows : Bool) (i : Nat) :
    Bracketed (Rule.writeChildren operand op follows i rs) := by
  induction rs generalizing follows i with
  | nil => exact .nil
  | cons r rs ihs =>
    obtain ⟨hr, ih⟩ := List.forall_mem_cons.1 ih
    rw [Rule.writeChildren]
    split
    · exact ihs ih follows (i + 1)
    · have H := (hr.beneath i).append (ihs ih true (i + 1))
      rw [List.append_assoc]
      cases follows with
      | false => exact H
      | true => exact .piece (by simp) (by simp) H

theorem write (r : Rule) (operand : Bool) : Bracketed (r.write operand) := by
  induction r using Rule.induction generalizing operand with
  | condition c =>
    obtain ⟨column, op, value, note⟩ := c
    have single (f : Fragment) (h : f ≠ .groupOpen) (h' : f ≠ .groupClose) :
        Bracketed [([], f)] := .piece h h' .nil
    cases value with
    | flag set =>
      cases set with
      | true => exact single _ nofun nofun
      | false => exact .piece nofun nofun (single _ nofun nofun)
    | _ => exact .piece nofun nofun (.piece nofun nofun (single _ nofun nofun))
  | chain op rs ih =>
    obtain ⟨group, inner, op', h⟩ := Rule.write_chain_cases operand op rs
    have H := (writeChildren (fun r hr => ih r hr inner) op' false 0).enclose group
    rcases h with h | h <;> rw [h]
    · exact H
    · exact .piece nofun nofun H

theorem fragments (r : Rule) : Bracketed r.fragments := by
  rw [Rule.fragments]
  split
  · exact .nil
  · exact write r false

end Bracketed

namespace Rule

variable {r : Rule} {path : Path}

theorem ne_nil_of_isVacant_eq_false (h : r.isVacant = false) : r.conditions ≠ [] := by
  intro hr
  rw [(isVacant_iff r).2 hr] at h
  cases h

/-- A separator stands in front of a child that has conditions, and not of the first such one. -/
theorem child_of_separator {op : Connective} {before : Nat}
    (h : (path, .separator op before) ∈ r.fragments) :
    ∃ op' rs child, r.get? path = some (chain op' rs) ∧ op = (if op' = .none then .any else op') ∧
      rs[before]? = some child ∧ child.conditions ≠ [] ∧
      ∃ earlier ∈ rs.take before, earlier.conditions ≠ [] := by
  obtain ⟨_, hnode, op', rs, child, rfl, hop, hchild, hv, hearlier⟩ := spells_of_mem_fragments h
  obtain ⟨earlier, hmem, hearlier⟩ := List.all_eq_false.1 hearlier
  exact ⟨op', rs, child, hnode, hop, hchild, ne_nil_of_isVacant_eq_false hv, earlier, hmem,
    ne_nil_of_isVacant_eq_false (eq_false_of_ne_true hearlier)⟩

/-- **Pieces name their nodes and cover every condition once.** The path of each piece of any rule
names a node that the piece spells, a separator one with two children that have conditions. The
columns are those of the conditions, in order; each is written at the path of its condition, at no
other, and once. The parentheses are balanced, those of a pair being of the same chain. -/
theorem fragments_cover (r : Rule) :
    (∀ p ∈ r.fragments, ∃ node, r.get? p.1 = some node ∧ p.2.Spells node) ∧
    (∀ path op before, (path, .separator op before) ∈ r.fragments → ∃ op' rs child,
      r.get? path = some (chain op' rs) ∧ op = (if op' = .none then .any else op') ∧
        rs[before]? = some child ∧ child.conditions ≠ [] ∧
        ∃ earlier ∈ rs.take before, earlier.conditions ≠ []) ∧
    (columnsAt r.fragments).map Prod.snd = r.conditions ∧
    ((columnsAt r.fragments).Pairwise fun p q => p.1 < q.1) ∧
    (∀ path c, (path, .column c) ∈ r.fragments ↔ r.get? path = some (condition c)) ∧
    Bracketed r.fragments := by
  refine ⟨fun _ => spells_of_mem_fragments, fun _ _ _ => child_of_separator, ?_, ?_,
    fun path c => ?_, .fragments r⟩
  · rw [map_snd_columnsAt, columnsOf_fragments]
  · rw [columnsAt_fragments]
    exact pairwise_columnsAt_write r false
  · rw [← mem_columnsAt, columnsAt_fragments, mem_columnsAt_write]

/-- Chains without a condition leave gaps between the indices, and chains with one child are looked
through without a piece of their own. -/
theorem fragments_cover_gaps :
    let a := test "a" true
    let b := test "b" false
    let r := chain .any [chain .all [], chain .none [chain .all [chain .any [a, b]]], empty,
      chain .all [chain .none [a]]]
    r.fragments.map (fun p => (p.1, p.2.raw)) =
      [([1], "!"), ([1, 0, 0], "("), ([1, 0, 0, 0], "a"), ([1, 0, 0], "|"), ([1, 0, 0, 1], "!"),
        ([1, 0, 0, 1], "b"), ([1, 0, 0], ")"), ([], "|"), ([3, 0], "!"), ([3, 0, 0], "a")] ∧
    ([], .separator .any 3) ∈ r.fragments ∧
    (∃ op rs child, r.get? [] = some (chain op rs) ∧ .any = (if op = .none then .any else op) ∧
      rs[3]? = some child ∧ child.conditions ≠ [] ∧
      ∃ earlier ∈ rs.take 3, earlier.conditions ≠ []) ∧
    (∃ node, r.get? [1, 0, 0] = some node ∧ Fragment.groupClose.Spells node) ∧
    Bracketed r.fragments := by
  intro a b r
  obtain ⟨hspells, hseparator, -, -, -, hbalanced⟩ := fragments_cover r
  have hmem : ([], .separator .any 3) ∈ r.fragments := by decide +kernel
  have hclose : ([1, 0, 0], .groupClose) ∈ r.fragments := by decide +kernel
  exact ⟨by decide +kernel, hmem, hseparator [] .any 3 hmem, hspells _ hclose, hbalanced⟩

end Rule
end FilterQuery
