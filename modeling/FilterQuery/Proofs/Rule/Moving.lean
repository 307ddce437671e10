import FilterQuery.Proofs.Rule.Block

/-!
Moving a node. The block of the node is cut out of the conditions and put in again beside the block
of the target, or at its end, wherever the two nodes are. So it does not matter that the target is
found at another path once the node is gone.
-/

namespace FilterQuery

/-! ### Cuts -/

/-- With the stretch `m` between `a` and `c` cut out, the gap between `front` and `back` of the same
list is the one between `front'` and `back'`. -/
inductive Cut {α : Type} (m : List α) : (a c front back front' back' : List α) → Prop where
  /-- The stretch is in front of the gap. -/
  | front (a e back : List α) : Cut m a (e ++ back) (a ++ m ++ e) back (a ++ e) back
  /-- The stretch is behind it. -/
  | back (front e c : List α) : Cut m (front ++ e) c front (e ++ m ++ c) front (e ++ c)

namespace Cut

variable {α : Type} {m a c front back front' back' : List α}

theorem within (H : Cut m a c front back front' back') (us vs : List α) :
    Cut m (us ++ a) (c ++ vs) (us ++ front) (back ++ vs) (us ++ front') (back' ++ vs) := by
  cases H with
  | front a e back => simpa using Cut.front (us ++ a) e (back ++ vs)
  | back front e c => simpa using Cut.back (us ++ front) e (c ++ vs)

/-- What is cut out and put into the gap is neither lost nor doubled. -/
theorem perm (H : Cut m a c front back front' back') :
    (front' ++ m ++ back').Perm (front ++ back) := by
  cases H with
  | front a e back =>
    have hswap : (e ++ m).Perm (m ++ e) := List.perm_append_comm
    simpa using (hswap.append_left a).append_right back
  | back front e c =>
    have hswap : (m ++ e).Perm (e ++ m) := List.perm_append_comm
    simpa using (hswap.append_left front).append_right c

end Cut

/-! ### Paths without a node -/

namespace Path

variable {i j : Nat} {removed target : Path}

theorem afterRemoval_nil (removed : Path) : afterRemoval removed [] = [] := by
  unfold afterRemoval
  split <;> simp_all

theorem afterRemoval_of_lt (h : j < i) :
    afterRemoval (i :: removed) (j :: target) = j :: target := by
  cases removed with
  | nil => rw [afterRemoval, if_neg (Nat.lt_asymm h)]
  | cons k removed => rw [afterRemoval, if_neg (Nat.ne_of_gt h)]; simp

theorem afterRemoval_of_gt (h : i < j) : afterRemoval (i :: removed) (j :: target) =
    (if removed = [] then j - 1 else j) :: target := by
  cases removed with
  | nil => rw [afterRemoval, if_pos h, if_pos rfl]
  | cons k removed => rw [afterRemoval, if_neg (Nat.ne_of_lt h)] <;> simp

theorem afterRemoval_below (i k : Nat) (removed target : Path) :
    afterRemoval (i :: k :: removed) (i :: target) = i :: afterRemoval (k :: removed) target := by
  rw [afterRemoval, if_pos rfl]
  simp

end Path

namespace Rule

variable {r s node moved x : Rule} {op : Connective} {us vs : List Rule} {j : Nat}
  {path source target : Path} {placement : Placement}

namespace NodeAt

/-- A node below a chain is found below a later child than a given one, below that child or below an
earlier one. -/
theorem cases_child (H : NodeAt s (chain op (us ++ x :: vs)) (j :: path)) :
    (∃ ws y zs, vs = ws ++ y :: zs ∧ j = (us ++ x :: ws).length ∧ NodeAt s y path) ∨
    (j = us.length ∧ NodeAt s x path) ∨
    ∃ ws y zs, us = ws ++ y :: zs ∧ j = ws.length ∧ NodeAt s y path := by
  generalize hr : chain op (us ++ x :: vs) = r at H
  cases H with
  | @child _ us' zs y _ H =>
    obtain ⟨-, hr⟩ := chain.inj hr
    rcases List.append_eq_append_iff.1 hr with ⟨ws, rfl, hv⟩ | ⟨ws, rfl, hv⟩
    · cases ws with
      | nil =>
        obtain ⟨rfl, rfl⟩ := List.cons.inj hv
        exact .inr (.inl ⟨by simp, H⟩)
      | cons w ws =>
        obtain ⟨rfl, rfl⟩ := List.cons.inj hv
        exact .inl ⟨ws, y, zs, rfl, rfl, H⟩
    · cases ws with
      | nil =>
        obtain ⟨rfl, rfl⟩ := List.cons.inj hv
        exact .inr (.inl ⟨by simp, H⟩)
      | cons w ws =>
        obtain ⟨rfl, rfl⟩ := List.cons.inj hv
        exact .inr (.inr ⟨us', y, ws, rfl, rfl, H⟩)

/-- Without a node at or below one of its children, a chain lacks this child or has another one in
its place. -/
theorem remove?_chain (H : NodeAt s x path) (op : Connective) (us vs : List Rule) : ∃ xs,
    (chain op (us ++ x :: vs)).remove? (us.length :: path) =
      some (s, chain op (us ++ (xs ++ vs))) ∧
    xs.flatMap conditions = x.before path ++ x.behind path ∧
    xs.length = if path = [] then 0 else 1 := by
  cases path with
  | nil =>
    cases H
    exact ⟨[], remove?_child .., by simp, rfl⟩
  | cons k path =>
    obtain ⟨x', hx, hc⟩ := H.remove?
    exact ⟨[x'], by rw [remove?_below, hx]; rfl, by simp [hc], rfl⟩

/-- With a node taken away, another one that is not part of it is found at its adjusted path, and
the gaps beside it are where they were, the block of the missing node apart. -/
theorem rest (H : NodeAt moved r source) (H' : NodeAt node r target) (h : ¬ source <+: target) :
    ∃ rest node', r.remove? source = some (moved, rest) ∧
      NodeAt node' rest (Path.afterRemoval source target) ∧ node'.isChain = node.isChain ∧
      ∀ placement, Cut moved.conditions (r.before source) (r.behind source)
        (r.front target placement) (r.back target placement)
        (rest.front (Path.afterRemoval source target) placement)
        (rest.back (Path.afterRemoval source target) placement) := by
  induction H generalizing target node with
  | root => exact absurd List.nil_prefix h
  | @child op us vs x path H ih =>
    obtain ⟨xs, hremove, hxs, hlen⟩ := H.remove?_chain op us vs
    cases target with
    | nil =>
      -- The target is the chain itself, and the node is part of its block.
      obtain rfl := H'.eq_of_nil
      rw [Path.afterRemoval_nil]
      refine ⟨_, _, hremove, .root, rfl, fun placement => ?_⟩
      have hx := H.conditions_eq
      cases placement with
      | before =>
        have hcut := Cut.back (m := moved.conditions) [] (us.flatMap conditions ++ x.before path)
          (x.behind path ++ vs.flatMap conditions)
        simpa [front, back, hx, hxs] using hcut
      | after | into =>
        have hcut := Cut.front (m := moved.conditions) (us.flatMap conditions ++ x.before path)
          (x.behind path ++ vs.flatMap conditions) []
        simpa [front, back, hx, hxs] using hcut
    | cons j target =>
      rcases H'.cases_child with ⟨ws, y, zs, rfl, rfl, Hy⟩ | ⟨rfl, Hx⟩ | ⟨ws, y, zs, rfl, rfl, Hy⟩
      · -- The target is below a later child, which moves up by one if the node was a child itself.
        have hpath : Path.afterRemoval (us.length :: path) ((us ++ x :: ws).length :: target) =
            (us ++ (xs ++ ws)).length :: target := by
          rw [Path.afterRemoval_of_gt (by simp)]
          by_cases hp : path = []
          · simp [hlen, hp]
          · have hlater : us.length + (ws.length + 1) = us.length + (1 + ws.length) := by omega
            simpa [hlen, hp] using hlater
        have hrest : us ++ (xs ++ (ws ++ y :: zs)) = (us ++ (xs ++ ws)) ++ y :: zs := by simp
        have hsplit : us ++ x :: (ws ++ y :: zs) = (us ++ x :: ws) ++ y :: zs := by simp
        rw [hpath]
        refine ⟨_, node, hrest ▸ hremove, .child Hy, rfl, fun placement => ?_⟩
        have hcut := Cut.front (m := moved.conditions) (us.flatMap conditions ++ x.before path)
          (x.behind path ++ ws.flatMap conditions ++ y.front target placement)
          (y.back target placement ++ zs.flatMap conditions)
        rw [before_child, behind_child, hsplit, front_child, back_child, front_child, back_child]
        simpa [H.conditions_eq, hxs, ← Hy.front_append_back placement] using hcut
      · -- Both are below the same child, and the target is not the node itself.
        cases path with
        | nil => exact absurd (List.prefix_cons_inj .. |>.2 List.nil_prefix) h
        | cons k path =>
          obtain ⟨x', node', hx, H'', hc, hcut⟩ := ih Hx fun hp => h (by simpa using hp)
          rw [Path.afterRemoval_below]
          refine ⟨_, node', by rw [remove?_below, hx]; rfl, .child H'', hc, fun placement => ?_⟩
          simpa using (hcut placement).within (us.flatMap conditions) (vs.flatMap conditions)
      · -- The target is below an earlier child, which stays where it is.
        have hrest : ws ++ y :: zs ++ (xs ++ vs) = ws ++ y :: (zs ++ (xs ++ vs)) := by simp
        have hsplit : ws ++ y :: zs ++ x :: vs = ws ++ y :: (zs ++ x :: vs) := by simp
        rw [Path.afterRemoval_of_lt (by simp)]
        refine ⟨_, node, hrest ▸ hremove, .child Hy, rfl, fun placement => ?_⟩
        have hcut := Cut.back (m := moved.conditions)
          (ws.flatMap conditions ++ y.front target placement)
          (y.back target placement ++ zs.flatMap conditions ++ x.before path)
          (x.behind path ++ vs.flatMap conditions)
        rw [before_child, behind_child, hsplit, front_child, back_child, front_child, back_child]
        simpa [H.conditions_eq, hxs, ← Hy.front_append_back placement] using hcut

/-- A move takes a block to the gap beside the target, or behind all that the target has. -/
theorem move? (H : NodeAt moved r source) (H' : NodeAt node r target) (h : ¬ source <+: target)
    (hc : placement = .into → node.isChain = true) :
    ∃ r' front back, r.move? source placement target = some r' ∧
      Cut moved.conditions (r.before source) (r.behind source) (r.front target placement)
        (r.back target placement) front back ∧
      r'.conditions = front ++ moved.conditions ++ back := by
  obtain ⟨rest, node', hremove, H'', hchain, hcut⟩ := H.rest H' h
  obtain ⟨r', hr', hconditions⟩ := H''.insert? moved placement (hchain ▸ hc)
  refine ⟨r', _, _, ?_, hcut placement, hconditions⟩
  have hsome : (r.get? target).isNone = false := by rw [nodeAt_iff.1 H', Option.isNone_some]
  simp only [Rule.move?, h, hsome, hremove, Bool.or_false, decide_false, Bool.false_eq_true,
    if_false, hr']

end NodeAt
end Rule

namespace Edit

/-- **Moving a node** takes its block out of the conditions and puts it, as it is, in front of the
block of the target or behind it. No node is moved into itself: the path of the node must not lead
on to the target, as that of the root always does. -/
theorem conditions_move {r moved node : Rule} {source target : Path} {placement : Placement}
    (hs : r.get? source = some moved) (ht : r.get? target = some node) (h : ¬ source <+: target)
    (hc : placement = .into → node.isChain = true) :
    ∃ front back,
      Cut moved.conditions (r.before source) (r.behind source) (r.front target placement)
        (r.back target placement) front back ∧
      ((move source placement target).apply r).conditions = front ++ moved.conditions ++ back ∧
      ((move source placement target).apply r).conditions.Perm r.conditions := by
  have H := Rule.nodeAt_iff.2 ht
  obtain ⟨r', front, back, hr, hcut, hconditions⟩ := (Rule.nodeAt_iff.2 hs).move? H h hc
  have happly : ((move source placement target).apply r).conditions = r'.conditions := by
    rw [apply, attempt?, hr, Rule.conditions_prune]
  rw [happly, hconditions]
  exact ⟨front, back, hcut, rfl, H.front_append_back placement ▸ hcut.perm⟩

/-- The target is below a later sibling of the node. -/
theorem conditions_move_later : ∃ r moved node : Rule,
    r.get? [0] = some moved ∧ r.get? [1, 1, 0] = some node ∧ ¬ [0] <+: [1, 1, 0] ∧
    (∃ front back,
      Cut moved.conditions (r.before [0]) (r.behind [0]) (r.front [1, 1, 0] .after)
        (r.back [1, 1, 0] .after) front back ∧
      ((move [0] .after [1, 1, 0]).apply r).conditions = front ++ moved.conditions ++ back ∧
      ((move [0] .after [1, 1, 0]).apply r).conditions.Perm r.conditions) ∧
    r.conditions.map (·.column) = ["a", "b", "c", "d"] ∧
    ((move [0] .after [1, 1, 0]).apply r).conditions.map (·.column) = ["b", "c", "a", "d"] := by
  refine ⟨.chain .all [.test "a" true,
    .chain .none [.test "b" true, .chain .any [.test "c" true, .test "d" true]]], _, _,
    rfl, rfl, by decide, conditions_move rfl rfl (by decide) nofun, by decide, by decide⟩

end Edit
end FilterQuery
