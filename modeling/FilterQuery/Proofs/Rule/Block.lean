import FilterQuery.Proofs.Rule.Normal
import FilterQuery.Rule.Directive

/-!
Blocks of conditions. In document order the conditions of a node stand together: those in front of
the node come before them, and those behind it after them. What is changed, taken away or put in at
a path is the block there, or stands right beside it, and all other conditions stay as they are.
-/

namespace FilterQuery
namespace Rule

theorem conditions_of_isEmpty {r : Rule} (h : r.isEmpty = true) : r.conditions = [] := by
  cases r with
  | condition c => cases h
  | chain op rs =>
    rw [isEmpty, List.isEmpty_iff] at h
    rw [h]
    rfl

/-! ### Nodes at paths -/

/-- The node `s` is found at the path. -/
inductive NodeAt (s : Rule) : Rule → Path → Prop where
  | root : NodeAt s s []
  | child {op : Connective} {us vs : List Rule} {x : Rule} {path : Path} :
    NodeAt s x path → NodeAt s (chain op (us ++ x :: vs)) (us.length :: path)

/-- The conditions in front of the node at a path. -/
def before : Rule → Path → List Condition
  | chain _ rs, i :: path =>
    (rs.take i).flatMap conditions ++
      match rs[i]? with
      | some r => r.before path
      | none => []
  | _, _ => []

/-- The conditions behind the node at a path. -/
def behind : Rule → Path → List Condition
  | chain _ rs, i :: path =>
    (match rs[i]? with
      | some r => r.behind path
      | none => []) ++ (rs.drop (i + 1)).flatMap conditions
  | _, _ => []

/-- The conditions of the node at a path. -/
def block (r : Rule) (path : Path) : List Condition :=
  match r.get? path with
  | some s => s.conditions
  | none => []

/-- The conditions in front of what is placed at a path. The last child of a chain comes behind
all that the chain has. -/
def front (r : Rule) (path : Path) : Placement → List Condition
  | .before => r.before path
  | .after | .into => r.before path ++ r.block path

/-- The conditions behind what is placed at a path. -/
def back (r : Rule) (path : Path) : Placement → List Condition
  | .before => r.block path ++ r.behind path
  | .after | .into => r.behind path

variable {r s x added : Rule} {op : Connective} {us vs rs : List Rule} {i : Nat} {path : Path}

@[simp] theorem before_nil (r : Rule) : r.before [] = [] := by
  cases r <;> rfl

@[simp] theorem behind_nil (r : Rule) : r.behind [] = [] := by
  cases r <;> rfl

@[simp] theorem block_nil (r : Rule) : r.block [] = r.conditions := by
  rw [block, get?_nil]

/-! ### One step down a path -/

theorem insertIdx_append {α : Type} (us vs : List α) (a : α) :
    (us ++ vs).insertIdx us.length a = us ++ a :: vs := by
  induction us with
  | nil => exact List.insertIdx_zero
  | cons u us ih => rw [List.cons_append, List.length_cons, List.insertIdx_succ_cons, ih]; rfl

section
variable (op us x vs path)

@[simp] theorem get?_child :
    (chain op (us ++ x :: vs)).get? (us.length :: path) = x.get? path := by
  simp [get?]

@[simp] theorem before_child : (chain op (us ++ x :: vs)).before (us.length :: path) =
    us.flatMap conditions ++ x.before path := by
  simp [before]

@[simp] theorem behind_child : (chain op (us ++ x :: vs)).behind (us.length :: path) =
    x.behind path ++ vs.flatMap conditions := by
  have hdrop : (us ++ x :: vs).drop (us.length + 1) = vs := by
    rw [← List.drop_drop, List.drop_left, List.drop_one, List.tail_cons]
  simp [behind, hdrop]

@[simp] theorem block_child :
    (chain op (us ++ x :: vs)).block (us.length :: path) = x.block path := by
  rw [block, get?_child, block]

@[simp] theorem front_child (placement : Placement) :
    (chain op (us ++ x :: vs)).front (us.length :: path) placement =
      us.flatMap conditions ++ x.front path placement := by
  cases placement <;> simp [front]

@[simp] theorem back_child (placement : Placement) :
    (chain op (us ++ x :: vs)).back (us.length :: path) placement =
      x.back path placement ++ vs.flatMap conditions := by
  cases placement <;> simp [back]

theorem modify?_child (f : Rule → Option Rule) :
    (chain op (us ++ x :: vs)).modify? f (us.length :: path) =
      (x.modify? f path).map fun x' => chain op (us ++ x' :: vs) := by
  simp [modify?]

theorem remove?_child :
    (chain op (us ++ x :: vs)).remove? [us.length] = some (x, chain op (us ++ vs)) := by
  simp [remove?, List.eraseIdx_append_of_length_le]

theorem remove?_below (j : Nat) : (chain op (us ++ x :: vs)).remove? (us.length :: j :: path) =
    (x.remove? (j :: path)).map fun (removed, x') => (removed, chain op (us ++ x' :: vs)) := by
  simp [remove?]

theorem insertBeside?_child (b : Bool) :
    insertBeside? added b (chain op (us ++ x :: vs)) [us.length] =
      some (chain op (us ++ if b then added :: x :: vs else x :: added :: vs)) := by
  cases b with
  | true => simp [insertBeside?, insertIdx_append]
  | false =>
    have h := insertIdx_append (us ++ [x]) vs added
    rw [List.length_append, List.append_assoc, List.append_assoc] at h
    simpa [insertBeside?] using h

theorem insertBeside?_below (b : Bool) (j : Nat) :
    insertBeside? added b (chain op (us ++ x :: vs)) (us.length :: j :: path) =
      (insertBeside? added b x (j :: path)).map fun x' => chain op (us ++ x' :: vs) := by
  simp [insertBeside?]

end

theorem exists_split {α : Type} {as : List α} {a : α} (h : as[i]? = some a) :
    ∃ us vs, as = us ++ a :: vs ∧ us.length = i := by
  obtain ⟨hi, rfl⟩ := List.getElem?_eq_some_iff.1 h
  refine ⟨as.take i, as.drop (i + 1), ?_, List.length_take_of_le (Nat.le_of_lt hi)⟩
  rw [List.getElem_cons_drop, List.take_append_drop]

theorem nodeAt_iff : NodeAt s r path ↔ r.get? path = some s := by
  constructor
  · intro H
    induction H with
    | root => exact get?_nil s
    | child _ ih => rw [get?_child, ih]
  · intro h
    induction path generalizing r with
    | nil =>
      rw [get?_nil] at h
      exact Option.some.inj h ▸ .root
    | cons i path ih =>
      cases r with
      | condition c => cases h
      | chain op rs =>
        rw [get?] at h
        split at h
        · rename_i x hi
          obtain ⟨us, vs, rfl, rfl⟩ := exists_split hi
          exact .child (ih h)
        · cases h

theorem conditions_insertAtRoot (added : Rule) (b : Bool) (r : Rule) :
    (insertAtRoot added b r).conditions =
      if b then added.conditions ++ r.conditions else r.conditions ++ added.conditions := by
  unfold insertAtRoot
  split <;> cases b <;> simp

namespace NodeAt

variable {s' : Rule} {f : Rule → Option Rule} (H : NodeAt s r path)
include H

omit H in
theorem eq_of_nil (H : NodeAt s r []) : s = r := by
  cases H
  rfl

theorem block_eq : r.block path = s.conditions := by
  rw [block, nodeAt_iff.1 H]

/-- The conditions of a rule are those in front of a node, those of the node and those behind it. -/
theorem conditions_eq : r.conditions = r.before path ++ s.conditions ++ r.behind path := by
  induction H with
  | root => simp
  | child _ ih => simp [ih]

theorem front_append_back (placement : Placement) :
    r.front path placement ++ r.back path placement = r.conditions := by
  rw [H.conditions_eq, ← H.block_eq]
  cases placement <;> simp [front, back]

/-! ### Changes at a path -/

/-- A node gives way to another one, and nothing around it changes. -/
theorem modify? (hf : f s = some s') : ∃ r', r.modify? f path = some r' ∧ NodeAt s' r' path ∧
    r'.before path = r.before path ∧ r'.behind path = r.behind path := by
  induction H with
  | root => exact ⟨s', by rwa [Rule.modify?.eq_def], .root, by simp, by simp⟩
  | @child op us vs x path _ ih =>
    obtain ⟨x', hx, H', hbefore, hbehind⟩ := ih
    exact ⟨_, by rw [modify?_child, hx]; rfl, .child H', by simp [hbefore], by simp [hbehind]⟩

theorem conditions_modify? (hf : f s = some s') : ∃ r', r.modify? f path = some r' ∧
    r'.conditions = r.before path ++ s'.conditions ++ r.behind path := by
  obtain ⟨r', hr, H', hbefore, hbehind⟩ := H.modify? hf
  exact ⟨r', hr, by rw [H'.conditions_eq, hbefore, hbehind]⟩

/-- A node is taken away together with its block. -/
theorem remove? : ∃ r', r.remove? path = some (s, r') ∧
    r'.conditions = r.before path ++ r.behind path := by
  induction H with
  | root => exact ⟨empty, by rw [Rule.remove?.eq_def], by simp [empty]⟩
  | @child op us vs x path H ih =>
    cases path with
    | nil =>
      cases H
      exact ⟨_, remove?_child .., by simp⟩
    | cons j path =>
      obtain ⟨x', hx, hc⟩ := ih
      exact ⟨_, by rw [remove?_below, hx]; rfl, by simp [hc]⟩

theorem insertBeside? (added : Rule) (b : Bool) :
    ∃ r', Rule.insertBeside? added b r path = some r' ∧ r'.conditions = r.before path ++
      (if b then added.conditions ++ s.conditions else s.conditions ++ added.conditions) ++
        r.behind path := by
  induction H with
  | root =>
    refine ⟨_, by rw [Rule.insertBeside?.eq_def], ?_⟩
    simp [conditions_insertAtRoot]
  | @child op us vs x path H ih =>
    cases path with
    | nil =>
      cases H
      refine ⟨_, insertBeside?_child .., ?_⟩
      cases b <;> simp
    | cons j path =>
      obtain ⟨x', hx, hc⟩ := ih
      exact ⟨_, by rw [insertBeside?_below, hx]; rfl, by simp [hc]⟩

/-- What is put in at a path adds its conditions in one piece. -/
theorem insert? (added : Rule) (placement : Placement)
    (hc : placement = .into → s.isChain = true) :
    ∃ r', Rule.insert? added placement r path = some r' ∧
      r'.conditions = r.front path placement ++ added.conditions ++ r.back path placement := by
  have hb := H.block_eq
  cases placement with
  | before =>
    obtain ⟨r', hr, h⟩ := H.insertBeside? added true
    exact ⟨r', hr, by simp [h, front, back, hb]⟩
  | after =>
    obtain ⟨r', hr, h⟩ := H.insertBeside? added false
    exact ⟨r', hr, by simp [h, front, back, hb]⟩
  | into =>
    cases s with
    | condition c => cases hc rfl
    | chain op rs =>
      obtain ⟨r', hr, h⟩ := H.conditions_modify? (f := append? added) rfl
      exact ⟨r', hr, by simp [h, front, back, hb]⟩

end NodeAt

/-- Only chains without a condition are removed. -/
theorem conditions_prune (r : Rule) : r.prune.conditions = r.conditions := by
  induction r using induction with
  | condition c => rfl
  | chain op rs ih =>
    rw [prune, pruneAll_eq, conditions_chain, conditions_chain]
    induction rs with
    | nil => rfl
    | cons r rs ihs =>
      have ihs := ihs fun s hs => ih s (List.mem_cons_of_mem _ hs)
      rw [List.map_cons, List.filter_cons, List.flatMap_cons, ← ih r List.mem_cons_self, ← ihs]
      split <;> rename_i he
      · rw [List.flatMap_cons]
      · rw [conditions_of_isEmpty (by simpa using he), List.nil_append]

/-! ### Changes that are refused -/

theorem isSome_modify? (f : Rule → Option Rule) (r : Rule) (path : Path) :
    (r.modify? f path).isSome = ((r.get? path).bind f).isSome := by
  fun_induction Rule.modify? f r path <;> simp_all [get?]

theorem isSome_remove? (r : Rule) (path : Path) :
    (r.remove? path).isSome = (r.get? path).isSome := by
  fun_induction Rule.remove? r path with
  | case3 op rs i => cases h : rs[i]? <;> simp [get?, h]
  | _ => simp_all [get?]

theorem isSome_insertBeside? (added : Rule) (b : Bool) (r : Rule) (path : Path) :
    (insertBeside? added b r path).isSome = (r.get? path).isSome := by
  fun_induction insertBeside? added b r path <;> simp_all [get?]

theorem exists_of_modify? {f : Rule → Option Rule} {r' : Rule} (h : r.modify? f path = some r') :
    ∃ s s', r.get? path = some s ∧ f s = some s' := by
  have hsome : ((r.get? path).bind f).isSome = true := by rw [← isSome_modify?, h]; rfl
  obtain ⟨s', hs'⟩ := Option.isSome_iff_exists.1 hsome
  obtain ⟨s, hs, hf⟩ := Option.bind_eq_some_iff.1 hs'
  exact ⟨s, s', hs, hf⟩

theorem exists_of_remove? {p : Rule × Rule} (h : r.remove? path = some p) :
    ∃ s, r.get? path = some s := by
  rw [← Option.isSome_iff_exists, ← isSome_remove?, h, Option.isSome_some]

theorem exists_of_insert? {r' : Rule} {placement : Placement}
    (h : insert? added placement r path = some r') :
    ∃ s, r.get? path = some s ∧ (placement = .into → s.isChain = true) := by
  have beside {b : Bool} (h : insertBeside? added b r path = some r') :
      ∃ s, r.get? path = some s := by
    rw [← Option.isSome_iff_exists, ← isSome_insertBeside?, h, Option.isSome_some]
  cases placement with
  | before | after =>
    obtain ⟨s, hs⟩ := beside h
    exact ⟨s, hs, nofun⟩
  | into =>
    obtain ⟨s, s', hs, hf⟩ := exists_of_modify? h
    cases s with
    | condition c => cases hf
    | chain op rs => exact ⟨_, hs, fun _ => rfl⟩

end Rule
end FilterQuery
