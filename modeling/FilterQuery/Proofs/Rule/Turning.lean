import FilterQuery.Proofs.Rule.Annotation
import FilterQuery.Proofs.Rule.Opposite

/-!
Groups that are negated piece by piece. A `!` that is put in front of a group in the canonical text
of a normal rule, or taken away there, makes a text that is read as the rule with a node replaced by
its opposite: the node that the `!` belongs to if there was one, and else the one in the group.
Parentheses that are no longer needed stay in the text and do not matter.
-/

namespace FilterQuery

open Parse

/-! ### Turning over -/

/-- The node that is negated, and the pieces in front of the group from then on: the `!` that ends
them is taken away, or one is added. -/
def turn (path : Path) (pre : List (Path × Fragment)) : Path × List (Path × Fragment) :=
  match pre.getLast? with
  | some (q, .negation) => (q, pre.dropLast)
  | _ => (path, pre ++ [(path, .negation)])

/-- The last piece, if there is one, is no `!`. -/
def Upright (fs : List (Path × Fragment)) : Prop := ∀ q, fs.getLast? ≠ some (q, .negation)

section
variable {path q : Path} {fs pre post : List (Path × Fragment)}

theorem upright_nil : Upright [] := nofun

theorem upright_append_singleton (fs : List (Path × Fragment)) {p : Path × Fragment}
    (h : p.2 ≠ .negation) : Upright (fs ++ [p]) := by
  intro q hq
  rw [List.getLast?_concat] at hq
  exact h (congrArg Prod.snd (Option.some.inj hq))

theorem Upright.append (H : Upright pre) (h : pre ≠ [] ∨ Upright fs) : Upright (fs ++ pre) := by
  by_cases hpre : pre = []
  · rw [hpre, List.append_nil]
    exact h.resolve_left (not_not_intro hpre)
  · intro q
    rw [List.getLast?_append_of_ne_nil fs hpre]
    exact H q

theorem Upright.beneath (H : Upright pre) (i : Nat) : Upright (Rule.beneath i pre) := by
  intro q hq
  rw [Rule.beneath, List.getLast?_map] at hq
  obtain ⟨⟨path, f⟩, hlast, he⟩ := Option.map_eq_some_iff.1 hq
  obtain rfl : f = .negation := congrArg Prod.snd he
  exact H path hlast

theorem turn_of_upright (h : Upright pre) (path : Path) :
    turn path pre = (path, pre ++ [(path, .negation)]) := by
  unfold turn
  split
  · rename_i q hq
    exact absurd hq (h q)
  · rfl

theorem turn_negation (path q : Path) (pre : List (Path × Fragment)) :
    turn path (pre ++ [(q, .negation)]) = (q, pre) := by
  simp [turn]

theorem upright_or_negation (pre : List (Path × Fragment)) :
    Upright pre ∨ ∃ q fs, pre = fs ++ [(q, .negation)] := by
  by_cases h : Upright pre
  · exact .inl h
  · obtain ⟨q, hq⟩ := not_forall_not.1 h
    obtain ⟨fs, rfl⟩ := List.getLast?_eq_some_iff.1 hq
    exact .inr ⟨q, fs, rfl⟩

/-- What is in front of the pieces does not matter, unless there are none and it ends with a `!`. -/
theorem turn_append (h : pre ≠ [] ∨ Upright fs) (path : Path) :
    turn path (fs ++ pre) = ((turn path pre).1, fs ++ (turn path pre).2) := by
  rcases upright_or_negation pre with H | ⟨q, pre', rfl⟩
  · rw [turn_of_upright (H.append h), turn_of_upright H, List.append_assoc]
  · rw [← List.append_assoc, turn_negation, turn_negation]

theorem turn_beneath (i : Nat) (path : Path) (pre : List (Path × Fragment)) :
    turn (i :: path) (Rule.beneath i pre) =
      (i :: (turn path pre).1, Rule.beneath i (turn path pre).2) := by
  rcases upright_or_negation pre with H | ⟨q, pre', rfl⟩
  · rw [turn_of_upright (H.beneath i), turn_of_upright H]
    simp [Rule.beneath]
  · rw [turn_negation, Rule.beneath, List.map_append]
    exact turn_negation ..

/-- What is in front of a child's pieces does not matter to them either. -/
theorem turn_within (h : pre ≠ [] ∨ Upright fs) (i : Nat) (path : Path) :
    turn (i :: path) (fs ++ Rule.beneath i pre) =
      (i :: (turn path pre).1, fs ++ Rule.beneath i (turn path pre).2) := by
  have h' : Rule.beneath i pre ≠ [] ∨ Upright fs := h.imp_left (mt List.map_eq_nil_iff.1)
  rw [turn_append h', turn_beneath]

/-- A `!` is all that comes or goes. -/
theorem mem_lexemesOf_turn {l : Lexeme} (h : l ∈ lexemesOf (turn path pre).2) :
    l = .negation ∨ l ∈ lexemesOf pre := by
  rcases upright_or_negation pre with H | ⟨q, pre', rfl⟩
  · rw [turn_of_upright H, lexemesOf_append, List.mem_append] at h
    exact h.elim .inr fun h => .inl (List.mem_singleton.1 h)
  · rw [turn_negation] at h
    rw [lexemesOf_append, List.mem_append]
    exact .inr (.inl h)

end

/-! ### Where a group is -/

theorem split_append {α : Type} {fs gs pre post : List α} {x : α}
    (h : fs ++ gs = pre ++ x :: post) :
    (∃ m, fs = pre ++ x :: m ∧ post = m ++ gs) ∨ ∃ m, pre = fs ++ m ∧ gs = m ++ x :: post := by
  rcases List.append_eq_append_iff.1 h with ⟨m, hpre, hgs⟩ | ⟨m, hfs, hpost⟩
  · exact .inr ⟨m, hpre, hgs⟩
  · cases m with
    | nil => exact .inr ⟨[], by simpa using hfs.symm, hpost.symm⟩
    | cons y m =>
      obtain ⟨rfl, rfl⟩ := List.cons.inj hpost
      exact .inl ⟨m, hfs, rfl⟩

namespace Rule

variable {r x : Rule} {rs : List Rule} {op : Connective} {path : Path}
  {fs pre post : List (Path × Fragment)}

theorem split_beneath {i : Nat} (h : beneath i fs = pre ++ (path, .groupOpen) :: post) :
    ∃ pre' path' post', fs = pre' ++ (path', .groupOpen) :: post' ∧ pre = beneath i pre' ∧
      path = i :: path' ∧ post = beneath i post' := by
  obtain ⟨pre', fs', rfl, rfl, h'⟩ := List.map_eq_append_iff.1 h
  obtain ⟨⟨path', f⟩, post', rfl, hp, rfl⟩ := List.map_eq_cons_iff.1 h'
  obtain ⟨rfl, rfl⟩ := Prod.mk.inj hp
  exact ⟨pre', path', post', rfl, rfl, rfl, rfl⟩

theorem not_groupOpen_condition (c : Condition) :
    c.fragments.map ([], ·) ≠ pre ++ (path, .groupOpen) :: post := by
  intro h
  have hmem : (path, Fragment.groupOpen) ∈ c.fragments.map (([] : Path), ·) := by simp [h]
  obtain ⟨f, hf, he⟩ := List.mem_map.1 hmem
  obtain rfl : f = .groupOpen := congrArg Prod.snd he
  unfold Condition.fragments at hf
  split at hf <;> simp at hf

theorem not_groupOpen_singleton {p : Path × Fragment} (h : p.2 ≠ .groupOpen) :
    [p] ≠ pre ++ (path, .groupOpen) :: post := by
  intro hp
  have hmem : (path, Fragment.groupOpen) ∈ [p] := by simp [hp]
  obtain rfl := List.mem_singleton.1 hmem
  exact h rfl

theorem lexemesOf_groupOpen (path : Path) (fs : List (Path × Fragment)) :
    lexemesOf ((path, .groupOpen) :: fs) = .groupOpen :: lexemesOf fs := rfl

theorem lexemesOf_grouped (fs gs : List (Path × Fragment)) (p : Path × Fragment) :
    lexemesOf (([], .groupOpen) :: (fs ++ p :: (gs ++ [([], .groupClose)]))) =
      grouped (lexemesOf (fs ++ p :: gs)) := by
  have h := lexemesOf_enclose true (fs ++ p :: gs)
  simpa [enclose] using h

theorem lexemesOf_negation (path : Path) (fs : List (Path × Fragment)) :
    lexemesOf ((path, .negation) :: fs) = .negation :: lexemesOf fs := rfl

theorem lexemesOf_split_beneath (i : Nat) (fs gs : List (Path × Fragment)) (path : Path)
    (f : Fragment) : lexemesOf (beneath i fs ++ (i :: path, f) :: beneath i gs) =
      lexemesOf (fs ++ (path, f) :: gs) := by
  have h : beneath i (fs ++ (path, f) :: gs) = beneath i fs ++ (i :: path, f) :: beneath i gs :=
    List.map_append
  rw [← h, lexemesOf_beneath]

/-- Between children there is a separator. -/
theorem writeChildren_ne_groupOpen (operand : Bool) (op : Connective) (i : Nat) (rs : List Rule) :
    writeChildren operand op true i rs ≠ (path, .groupOpen) :: post := by
  induction rs generalizing i with
  | nil => nofun
  | cons r rs ih =>
    rw [writeChildren]
    split
    · exact ih (i + 1)
    · simp

/-! ### What is read then -/

/-- The lexemes read as `r'`, which is `r` with the opposite of a node in its place. -/
structure Turned (r : Rule) (q : Path) (ls : List Lexeme) (r' : Rule) : Prop where
  replaced : ∃ s, Replaced s s.oppose r r' q
  isTest_eq : r'.isTest = false
  readsAs : State.ReadsAs ls (some r'.bare)

/-- Whichever group of the rule is negated, what is read then is the rule with the opposite of a node
in its place. -/
def Turnable (r : Rule) : Prop :=
  ∀ pre path post, r.write true = pre ++ (path, .groupOpen) :: post →
    ∃ r', Turned r (turn path pre).1
      (lexemesOf ((turn path pre).2 ++ (path, .groupOpen) :: post)) r'

theorem Normal.readsAs (H : r.Normal) : State.ReadsAs (r.spelling true) (some r.bare) :=
  (reads_spelling H.normalForm?_eq).1

theorem readsAll_normal (H : ∀ r ∈ rs, r.Normal) :
    ReadsAll (rs.map (spelling true)) (rs.map bare) := by
  rw [ReadsAll, List.forall₂_map_left_iff, List.forall₂_map_right_iff, List.forall₂_same]
  exact fun r hr => (H r hr).readsAs

/-- All normal rules are written. -/
theorem written_normal (H : ∀ r ∈ rs, r.Normal) : written rs = rs :=
  List.filter_eq_self.2 fun r hr => by simp [(H r hr).isVacant_eq_false]

/-- A group among the pieces of children is one of a child. -/
theorem turned_children (H : ∀ r ∈ rs, r.Normal) (ih : ∀ r ∈ rs, r.Turnable)
    (follows : Bool) (i : Nat)
    (h : writeChildren true op follows i rs = pre ++ (path, .groupOpen) :: post) :
    ∃ us x x' vs q lss, rs = us ++ x :: vs ∧ (turn path pre).1 = (i + us.length) :: q ∧
      (∃ s, Replaced s s.oppose x x' q) ∧ ReadsAll lss ((us ++ x' :: vs).map bare) ∧
      lexemesOf ((turn path pre).2 ++ (path, .groupOpen) :: post) =
        if follows then lss.flatMap (separator op :: ·) else separated (separator op) lss := by
  induction rs generalizing follows i pre with
  | nil => cases pre <;> cases h
  | cons r rs ihs =>
    obtain ⟨hr, hrs⟩ := List.forall_mem_cons.1 H
    obtain ⟨ihr, ih⟩ := List.forall_mem_cons.1 ih
    rw [writeChildren, if_neg (by simp [hr.isVacant_eq_false])] at h
    generalize hsep : (if follows then [([], Fragment.separator op i)] else []) = sep at h
    have hupright : Upright sep := by
      subst hsep
      cases follows with
      | false => exact upright_nil
      | true => exact upright_append_singleton [] (by simp)
    have hlex : lexemesOf sep = if follows then [separator op] else [] := by
      subst hsep
      cases follows <;> rfl
    rcases split_append h with ⟨m, hm, rfl⟩ | ⟨m, rfl, hm⟩
    · rcases split_append hm with ⟨m', hm', -⟩ | ⟨m', rfl, hm'⟩
      · rw [← hsep] at hm'
        cases follows with
        | false => cases pre <;> cases hm'
        | true => exact absurd hm' (not_groupOpen_singleton (by simp))
      · obtain ⟨pre', path', post', hx, rfl, rfl, rfl⟩ := split_beneath hm'
        obtain ⟨r', Hr⟩ := ihr _ _ _ hx
        refine ⟨[], r, r', rs, _, _ :: rs.map (spelling true), rfl, ?_, Hr.replaced,
          .cons Hr.readsAs (readsAll_normal hrs), ?_⟩
        · rw [turn_within (.inr hupright)]
          rfl
        · rw [turn_within (.inr hupright)]
          simp only [lexemesOf_append, lexemesOf_groupOpen, lexemesOf_beneath, hlex,
            lexemesOf_writeChildren, written_normal hrs]
          cases follows <;> simp [separated]
    · -- The group is one of a later child, and the separator is in front of it.
      have hne : m ≠ [] := by
        rintro rfl
        exact writeChildren_ne_groupOpen _ _ _ _ hm
      obtain ⟨us, x, x', vs, q, lss, rfl, hq, Hx, Hl, hlexemes⟩ := ihs hrs ih true (i + 1) hm
      refine ⟨r :: us, x, x', vs, q, r.spelling true :: lss, rfl, ?_, Hx, .cons hr.readsAs Hl, ?_⟩
      · rw [turn_append (.inl hne), hq, List.length_cons, Nat.add_assoc, Nat.add_comm 1]
      · rw [turn_append (.inl hne), List.append_assoc, lexemesOf_append, hlexemes, lexemesOf_append,
          lexemesOf_beneath, hlex]
        cases follows <;> simp [separated, spelling]

/-- A `none` chain of one child is undone, and all else is negated. -/
theorem oppose_chain (hop : op ≠ .none) (rs : List Rule) :
    (chain op rs).oppose = chain .none [chain op rs] := by
  cases op with
  | none => exact absurd rfl hop
  | _ => rfl

theorem bare_chain_negate (H : x.isTest = false) :
    (chain .none [x]).bare = x.bare.negate := by
  rw [bare_chain, negate_of_not_isTest (by simpa using H)]
  rfl

theorem write_chain_normal (hop : op ≠ .none) (hl : 2 ≤ rs.length) (H : ∀ r ∈ rs, r.Normal)
    (operand : Bool) :
    (chain op rs).write operand = enclose operand (writeChildren true op false 0 rs) := by
  have hv : 2 ≤ visible rs := by rwa [← length_written, written_normal H]
  rw [write_chain operand hop, decide_eq_true hv, Bool.and_true, Bool.or_true]

theorem write_none_normal (H : x.Normal) (operand : Bool) : (chain .none [x]).write operand =
    ([], .negation) :: enclose (needsGroup [x]) (beneath 0 (x.write true)) := by
  have hchildren : writeChildren true .any false 0 [x] = beneath 0 (x.write true) := by
    rw [writeChildren, if_neg (by simp [H.isVacant_eq_false])]
    simp [writeChildren]
  rw [write, hchildren]

section
variable (hop : op ≠ .none) (hl : 2 ≤ rs.length) (H : ∀ r ∈ rs, r.Normal)
  (ih : ∀ r ∈ rs, r.Turnable)
include hop hl H ih

/-- A group inside of a chain: one child gives way to another rule. -/
theorem turned_inside (h : writeChildren true op false 0 rs = pre ++ (path, .groupOpen) :: post) :
    ∃ ss, (∃ s, Replaced s s.oppose (chain op rs) (chain op ss) (turn path pre).1) ∧
      State.ReadsIn (lexemesOf ((turn path pre).2 ++ (path, .groupOpen) :: post))
        (some (chain op ss).bare) := by
  obtain ⟨us, x, x', vs, q, lss, rfl, hq, ⟨s, Hx⟩, Hl, hlexemes⟩ := turned_children H ih false 0 h
  refine ⟨us ++ x' :: vs, ⟨s, ?_⟩, ?_⟩
  · rw [hq, Nat.zero_add]
    exact .child Hx
  · have hlen : 2 ≤ ((us ++ x' :: vs).map bare).length := by simpa using hl
    rw [hlexemes, if_neg Bool.false_ne_true, bare_chain, ← join?_of_two_le hlen]
    exact Hl.readsIn hop (by simp)

theorem turnable_chain : (chain op rs).Turnable := by
  intro pre path post h
  have hw := write_chain_normal hop hl H true
  cases pre with
  | nil =>
    -- The group is the chain itself, and a `!` comes in front of it.
    rw [List.nil_append] at h
    obtain ⟨hp, -⟩ := List.cons.inj (hw.symm.trans h)
    obtain rfl : [] = path := congrArg Prod.fst hp
    refine ⟨chain .none [chain op rs], ⟨chain op rs, ?_⟩, rfl, ?_⟩
    · rw [turn_of_upright upright_nil, ← oppose_chain hop]
      exact .root
    · rw [turn_of_upright upright_nil, bare_chain_negate rfl, ← h]
      exact (Normal.chain hop hl H).readsAs.negation
  | cons p pre =>
    obtain ⟨rfl, h'⟩ := List.cons.inj (hw.symm.trans h)
    rcases split_append h' with ⟨m, hm, rfl⟩ | ⟨m, -, hm⟩
    · obtain ⟨ss, Hs, hreads⟩ := turned_inside hop hl H ih hm
      have hupright : Upright [([], .groupOpen)] := upright_append_singleton [] (by simp)
      have hturn : turn path (([], .groupOpen) :: pre) =
          ((turn path pre).1, ([], .groupOpen) :: (turn path pre).2) :=
        turn_append (.inr hupright) path
      rw [hturn]
      refine ⟨chain op ss, Hs, rfl, ?_⟩
      rw [List.cons_append, lexemesOf_grouped]
      exact hreads.grouped
    · exact absurd hm (not_groupOpen_singleton (by simp))

end

theorem Turned.grouped {q : Path} {ls : List Lexeme} {r' : Rule} (H : Turned r q ls r') :
    Turned r q (Rule.grouped ls) r' :=
  { H with readsAs := H.readsAs.readsIn.grouped }

theorem Turned.none {q : Path} {ls : List Lexeme} {x' : Rule} (H : Turned x q ls x') :
    Turned (.chain .none [x]) (0 :: q) (.negation :: ls) (.chain .none [x']) where
  replaced := by
    obtain ⟨s, Hs⟩ := H.replaced
    exact ⟨s, @Replaced.child s s.oppose .none [] [] _ _ _ Hs⟩
  isTest_eq := rfl
  readsAs := by
    rw [bare_chain_negate H.isTest_eq]
    exact H.readsAs.negation

/-- Without its `!` a `none` chain is read as its child. -/
theorem turned_undone {ls : List Lexeme} (ht : x.isTest = false)
    (H : State.ReadsAs ls (some x.bare)) : Turned (chain .none [x]) [] ls x where
  replaced := ⟨chain .none [x], .root⟩
  isTest_eq := ht
  readsAs := H

theorem turnable_none (H : x.Normal) (ht : x.isTest = false) (ih : x.Turnable) :
    (chain .none [x]).Turnable := by
  intro pre path post h
  have hw := write_none_normal H true
  have hself : State.ReadsAs (x.spelling true) (some x.bare) := H.readsAs
  cases pre with
  | nil => cases hw.symm.trans h
  | cons p pre =>
    obtain ⟨rfl, h'⟩ := List.cons.inj (hw.symm.trans h)
    cases hg : needsGroup [x] with
    | false =>
      rw [hg] at h'
      obtain ⟨pre, path, post, hx, rfl, rfl, rfl⟩ := split_beneath h'
      cases pre with
      | nil =>
        -- The group is the child itself.
        have hturn : turn (0 :: path) [([], .negation)] = ([], []) := turn_negation _ [] []
        refine ⟨x, ?_⟩
        rw [show beneath 0 [] = [] from rfl, hturn]
        refine turned_undone ht ?_
        rw [spelling, hx] at hself
        rwa [← lexemesOf_beneath 0] at hself
      | cons p pre =>
        obtain ⟨x', Hx⟩ := ih _ _ _ hx
        have hturn : turn (0 :: path) (([], .negation) :: beneath 0 (p :: pre)) =
            (0 :: (turn path (p :: pre)).1,
              ([], .negation) :: beneath 0 (turn path (p :: pre)).2) :=
          @turn_within [([], .negation)] (p :: pre) (.inl (List.cons_ne_nil p pre)) 0 path
        refine ⟨chain .none [x'], ?_⟩
        rw [hturn, List.cons_append, lexemesOf_negation, lexemesOf_split_beneath]
        exact Hx.none
    | true =>
      rw [hg] at h'
      cases pre with
      | nil =>
        -- The parentheses were put because of the `!`, and they stay.
        obtain ⟨hp, rfl⟩ := List.cons.inj h'
        obtain rfl : [] = path := congrArg Prod.fst hp
        have hturn : turn [] [([], .negation)] = ([], []) := turn_negation _ [] []
        refine ⟨x, ?_⟩
        rw [hturn]
        refine turned_undone ht ?_
        have hlex := lexemesOf_enclose true (beneath 0 (x.write true))
        rw [lexemesOf_beneath] at hlex
        exact hlex ▸ hself.readsIn.grouped
      | cons p pre =>
        obtain ⟨rfl, h''⟩ := List.cons.inj h'
        rcases split_append h'' with ⟨m, hm, rfl⟩ | ⟨m, -, hm⟩
        · obtain ⟨pre, path, post, hx, rfl, rfl, rfl⟩ := split_beneath hm
          obtain ⟨x', Hx⟩ := ih _ _ _ hx
          have hupright : Upright [([], .negation), ([], .groupOpen)] :=
            upright_append_singleton [([], .negation)] (by simp)
          have hturn : turn (0 :: path) (([], .negation) :: ([], .groupOpen) :: beneath 0 pre) =
              (0 :: (turn path pre).1,
                ([], .negation) :: ([], .groupOpen) :: beneath 0 (turn path pre).2) :=
            turn_within (.inr hupright) 0 path
          refine ⟨chain .none [x'], ?_⟩
          rw [hturn, List.cons_append, lexemesOf_negation, List.cons_append, lexemesOf_grouped,
            lexemesOf_split_beneath]
          exact Hx.grouped.none
        · exact absurd hm (not_groupOpen_singleton (by simp))

/-- Any group of a normal rule can be negated. -/
theorem Normal.turnable (H : r.Normal) : r.Turnable := by
  induction H with
  | condition _ =>
    intro pre path post h
    exact absurd h (not_groupOpen_condition _)
  | chain hop hl hrs ih => exact turnable_chain hop hl hrs ih
  | none hx ht ih => exact turnable_none hx ht ih

/-! ### The text -/

theorem Normal.populated (H : r.Normal) : r.Populated := by
  induction H with
  | condition _ => exact .condition _
  | chain _ hl _ ih => exact .chain (List.ne_nil_of_length_pos (by omega)) ih
  | none _ _ ih => exact .chain (List.cons_ne_nil _ _) fun s hs => List.mem_singleton.1 hs ▸ ih

theorem Normal.fragments_eq (H : r.Normal) : r.fragments = r.write false :=
  if_neg (by simp [H.isVacant_eq_false])

/-- In the text of the whole rule a group that is negated is the content of no other one. -/
theorem Normal.readsIn_turn (H : r.Normal)
    (h : r.fragments = pre ++ (path, .groupOpen) :: post) :
    ∃ r', (∃ s, Replaced s s.oppose r r' (turn path pre).1) ∧
      State.ReadsIn (lexemesOf ((turn path pre).2 ++ (path, .groupOpen) :: post))
        (some r'.bare) := by
  rw [H.fragments_eq] at h
  cases H with
  | condition _ => exact absurd h (not_groupOpen_condition _)
  | @chain op rs hop hl hrs =>
    rw [write_chain_normal hop hl hrs] at h
    obtain ⟨ss, Hs, hreads⟩ := turned_inside hop hl hrs (fun r hr => (hrs r hr).turnable) h
    exact ⟨.chain op ss, Hs, hreads⟩
  | @none x hx ht =>
    rw [write_none_normal hx, ← write_none_normal hx true] at h
    obtain ⟨r', Hr⟩ := (Normal.none hx ht).turnable _ _ _ h
    exact ⟨r', Hr.replaced, Hr.readsAs.readsIn⟩

/-- No condition is written in part in front of a group. -/
theorem whole_before (r : Rule) (operand : Bool)
    (h : r.write operand = pre ++ (path, .groupOpen) :: post) : Whole pre := by
  let P (fs : List (Path × Fragment)) : Prop := Whole fs ∧
    ∀ pre path post, fs = pre ++ (path, .groupOpen) :: post → Whole pre
  have H : P (r.write operand) := by
    refine write_of (P := P) ⟨rfl, ?_⟩ ?_ ?_ ?_ r operand ?_
    · intro pre path post h
      exact absurd h.symm (List.append_ne_nil_of_right_ne_nil _ (List.cons_ne_nil _ _))
    · intro fs gs Hf Hg
      refine ⟨Hf.1.append Hg.1, fun pre path post h => ?_⟩
      rcases split_append h with ⟨m, hm, -⟩ | ⟨m, rfl, hm⟩
      · exact Hf.2 _ _ _ hm
      · exact Hf.1.append (Hg.2 _ _ _ hm)
    · intro i fs Hf
      refine ⟨Hf.1.beneath i, fun pre path post h => ?_⟩
      obtain ⟨pre', path', post', hfs, rfl, -, -⟩ := split_beneath h
      exact (Hf.2 _ _ _ hfs).beneath i
    · intro f hf
      refine ⟨.mark hf [], fun pre path post h => ?_⟩
      cases pre with
      | nil => rfl
      | cons p pre =>
        obtain ⟨-, h⟩ := List.cons.inj h
        exact absurd h.symm (List.append_ne_nil_of_right_ne_nil _ (List.cons_ne_nil _ _))
    · intro c _
      exact ⟨.condition c, fun pre path post h => absurd h (not_groupOpen_condition c)⟩
  exact H.2 _ _ _ h

end Rule

theorem Whole.turn {path : Path} {pre : List (Path × Fragment)} (H : Whole pre) :
    Whole (turn path pre).2 := by
  rcases upright_or_negation pre with hu | ⟨q, fs, rfl⟩
  · rw [turn_of_upright hu]
    exact H.append (.mark rfl path)
  · rw [turn_negation]
    exact H.left (.mark rfl q)

namespace Rule

variable {r : Rule} {path : Path} {pre post : List (Path × Fragment)}

section
variable (H : r.Normal) (h : r.fragments = pre ++ (path, .groupOpen) :: post)
include H h

theorem mem_spelling_of_turn {l : Lexeme}
    (hl : l ∈ lexemesOf ((turn path pre).2 ++ (path, .groupOpen) :: post)) :
    l = .negation ∨ l ∈ r.spelling false := by
  rw [spelling, ← H.fragments_eq, h, lexemesOf_append, List.mem_append]
  rw [lexemesOf_append, List.mem_append] at hl
  rcases hl with hl | hl
  · exact (mem_lexemesOf_turn hl).imp_right .inl
  · exact .inr (.inr hl)

theorem wellFormed_turn :
    ∀ l ∈ lexemesOf ((turn path pre).2 ++ (path, .groupOpen) :: post), l.WellFormed := by
  intro l hl
  rcases mem_spelling_of_turn H h hl with rfl | hl
  · trivial
  · exact wellFormed_spelling H.wellFormed false l hl

theorem map_positive_turn :
    (lexemesOf ((turn path pre).2 ++ (path, .groupOpen) :: post)).map Lexeme.positive =
      lexemesOf ((turn path pre).2 ++ (path, .groupOpen) :: post) := by
  refine (List.map_congr_left fun l hl => ?_).trans (List.map_id _)
  rcases mem_spelling_of_turn H h hl with rfl | hl
  · rfl
  · have hmap := (map_positive_spelling r false).trans (List.map_id _).symm
    exact List.map_inj_left.1 hmap l hl

theorem whole_turn : Whole ((turn path pre).2 ++ (path, .groupOpen) :: post) := by
  have hw : Whole (pre ++ (path, .groupOpen) :: post) := by
    rw [← h, H.fragments_eq]
    exact whole_write r false
  rw [H.fragments_eq] at h
  have hpre := whole_before r false h
  exact hpre.turn.append (hw.right hpre)

/-- **The text with a group negated** is read as the rule with a node negated, annotations apart,
unless it nests too deep. -/
theorem parse_turn {query : String}
    (hq : query.toList = textOf ((turn path pre).2 ++ (path, .groupOpen) :: post))
    (hm : maxOpen query ≤ maxNesting) :
    ∃ r', parse query = .ok r' ∧ r'.Same ((Edit.negate (turn path pre).1).apply r) := by
  obtain ⟨r', ⟨s, Hs⟩, hreads⟩ := H.readsIn_turn h
  obtain ⟨g, -, hg, Hg⟩ := hreads []
  obtain rfl : query = String.ofList (Lexeme.spell _) := by
    rw [← whole_turn H h, ← hq, String.ofList_toList]
  have hw := wellFormed_turn H h
  rw [maxOpen_spell (.of_reads Hg hw)] at hm
  obtain ⟨r'', hparse, hbare⟩ := parse_spell hw (map_positive_turn H h) Hg hm
  refine ⟨r'', hparse, ?_⟩
  have hfinish : State.finish ⟨g, [], true⟩ = some r'.bare := by
    rw [State.finish, State.settle_of_filled rfl]
    exact hg
  rw [hfinish] at hbare
  rw [Same, Edit.apply_negate_eq H.populated Hs]
  exact hbare

end

end Rule
end FilterQuery
