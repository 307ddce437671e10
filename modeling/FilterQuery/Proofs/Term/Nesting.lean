import FilterQuery.Proofs.Term.Legality
import FilterQuery.Proofs.Term.Matching

/-!
How terms are nested. Links do not cross, for what stands between two parentheses that go together
is balanced. The groups that are open behind some terms are those whose parenthesis has no link, and
the check of an editor carries their number along.
-/

namespace FilterQuery

namespace TermIndex

open Token

variable {ts us : List Token} {i j k l d e : Nat} {opened : List Nat}

/-! ### Links that cross -/

theorem levelBehind?_add {k : TokenKind} (h : levelBehind? k d = some e) (n : Nat) :
    levelBehind? k (d + n) = some (e + n) := by
  cases k with
  | groupClose =>
    cases d with
    | zero => cases h
    | succ d =>
      obtain rfl : d = e := by simpa [levelBehind?] using h
      rw [levelBehind?, if_neg (by omega)]
      congr 1
      omega
  | groupOpen =>
    obtain rfl := Option.some.inj h
    exact congrArg some (Nat.add_right_comm d n 1)
  | _ =>
    obtain rfl := Option.some.inj h
    rfl

/-- Parentheses that are open before some terms and not closed by them make no difference. -/
theorem level?_add (h : level? d ts = some e) (n : Nat) : level? (d + n) ts = some (e + n) := by
  induction ts generalizing d with
  | nil =>
    obtain rfl := Option.some.inj h
    rfl
  | cons t ts ih =>
    rw [level?_cons, Option.bind_eq_some_iff] at h ⊢
    obtain ⟨d', hd, h⟩ := h
    exact ⟨d' + n, levelBehind?_add hd n, ih h⟩

theorem drop_take_append (hij : i ≤ j) (hjk : j ≤ k) :
    (ts.take k).drop i = (ts.take j).drop i ++ (ts.take k).drop j := by
  have h := ((ts.take k).drop i).take_append_drop (j - i)
  rw [List.drop_drop, Nat.add_sub_cancel' hij, ← List.drop_take, List.take_take,
    Nat.min_eq_left hjk] at h
  exact h.symm

theorem drop_take_succ {t : Token} (h : ts[k]? = some t) : (ts.take (k + 1)).drop k = [t] := by
  obtain ⟨hk, rfl⟩ := List.getElem?_eq_some_iff.1 h
  rw [List.drop_take, Nat.add_sub_cancel_left, List.drop_eq_getElem_cons hk]
  rfl

/-- What begins inside of parentheses that go together ends there. -/
theorem Encloses.lt_of_lt (H : Encloses ts i j) (H' : Encloses ts k l) (hik : i < k) (hkj : k < j) :
    l < j := by
  by_contra hl
  obtain ⟨t, ht, hk⟩ := Option.map_eq_some_iff.1 H'.opens
  have hin := H.balanced
  have hin' := H'.balanced
  -- The terms from the inner parenthesis up to `j` leave one more open if it has not been closed.
  rw [Balanced, drop_take_append hik (Nat.le_of_lt hkj), drop_take_append (Nat.le_succ k) hkj,
    drop_take_succ ht, level?_append, Option.bind_eq_some_iff] at hin
  rw [Balanced, drop_take_append hkj (Nat.le_of_not_lt hl), level?_append,
    Option.bind_eq_some_iff] at hin'
  obtain ⟨a, -, hin⟩ := hin
  obtain ⟨b, hb, -⟩ := hin'
  have hb := level?_add hb (a + 1)
  rw [List.singleton_append, level?_cons, hk, levelBehind?, Option.bind_some,
    ← Nat.zero_add (a + 1), hb] at hin
  exact absurd (Option.some.inj hin) (Nat.succ_ne_zero _)

/-! ### Open groups -/

theorem length_openedBehind (i : Nat) (k : TokenKind) (opened : List Nat) :
    (openedBehind i k opened).length = depthAfter opened.length k := by
  cases k with
  | groupClose => exact List.length_tail
  | _ => rfl

theorem length_closesBefore {k : TokenKind} {closes : List (Option Nat)}
    (h : closes.length = (openedBehind i k opened).length) :
    (closesBefore i k opened closes).length = opened.length := by
  cases k with
  | groupOpen => simp [closesBefore, h, openedBehind]
  | groupClose => cases opened <;> simpa [closesBefore, openedBehind] using h
  | _ => exact h

theorem length_pairFrom (i : Nat) (opened : List Nat) (ts : List Token) :
    (pairFrom i opened ts).2.length = opened.length := by
  induction ts generalizing i opened with
  | nil => exact List.length_map _
  | cons t ts ih =>
    rw [pairFrom_cons]
    exact length_closesBefore (ih _ _)

/-- A parenthesis that is not closed is open behind the term as it is behind those after it. -/
theorem countP_closesBefore {k : TokenKind} {closes : List (Option Nat)}
    (h : closes.length = (openedBehind i k opened).length) :
    (if k = .groupOpen ∧ linkOf k opened closes = none then 1 else 0) +
      (closesBefore i k opened closes).countP (·.isNone) = closes.countP (·.isNone) := by
  cases k with
  | groupOpen =>
    obtain ⟨close, closes, rfl⟩ := List.exists_cons_of_length_eq_add_one h
    cases close <;> simp [linkOf, closesBefore, Nat.add_comm]
  | groupClose => cases opened <;> simp [closesBefore]
  | _ => simp [closesBefore]

theorem openGroups_cons (t : Token) (ts : List Token) : (TermIndex.mk (t :: ts)).openGroups =
    (TermIndex.mk ts).openGroups +
      if t.kind = .groupOpen ∧ t.counterpart = none then 1 else 0 := by
  simp [openGroups, List.countP_cons]

/-- Of the groups that are open behind some terms, some have been opened by the terms and the others
were open before. -/
theorem openGroups_pairFrom (i : Nat) (opened : List Nat) (ts : List Token) :
    (TermIndex.mk (pairFrom i opened ts).1).openGroups +
        (pairFrom i opened ts).2.countP (·.isNone) =
      ts.foldl (fun depth t => depthAfter depth t.kind) opened.length := by
  induction ts generalizing i opened with
  | nil =>
    rw [pairFrom, List.countP_map]
    exact (Nat.zero_add _).trans (List.countP_eq_length.2 fun _ _ => rfl)
  | cons t ts ih =>
    have hlen := length_pairFrom (i + 1) (openedBehind i t.kind opened) ts
    rw [List.foldl_cons, ← length_openedBehind i, ← ih (i + 1), pairFrom_cons, openGroups_cons,
      Nat.add_assoc, countP_closesBefore hlen]

/-- The groups that are left open are those whose parenthesis finds no other one. -/
theorem openGroups_pair (ts : List Token) :
    (TermIndex.mk (pair ts)).openGroups = FilterQuery.openGroups ts := by
  have h := openGroups_pairFrom 0 [] ts
  rwa [List.eq_nil_of_length_eq_zero (length_pairFrom 0 [] ts)] at h

end TermIndex

/-! ### The depth that a check carries along -/

/-- The check of terms in a row, with the depth that it ends with where there is no error. -/
def Expect.depthBehind (m : Messages) (e : Expect) (depth : Nat) : List Token → Except String Nat
  | [] => .ok depth
  | t :: ts =>
    match e.check m depth t.kind t.text with
    | some error => .error error
    | none => (Expect.afterKind (some t.kind)).depthBehind m (depthAfter depth t.kind) ts

theorem Expect.depthBehind_eq (m : Messages) (e : Expect) (depth : Nat) (ts : List Token) :
    e.depthBehind m depth ts =
      (e.firstError m depth ts).elim (.ok (ts.foldl (fun depth t => depthAfter depth t.kind) depth))
        .error := by
  induction ts generalizing e depth with
  | nil => rfl
  | cons t ts ih =>
    rw [depthBehind, firstError]
    cases e.check m depth t.kind t.text with
    | none => exact ih _ _
    | some error => rfl

namespace TermIndex

open Token

variable {ts : List Token} {i j k l : Nat}

theorem encloses_of_link?_of_lt (h : link? (pair ts) i = some j) (hij : i < j) :
    Encloses ts i j := by
  rcases link?_pair.1 h with H | H
  · exact H
  · exact absurd H.lt (Nat.not_lt_of_lt hij)

theorem link?_pair_comm : link? (pair ts) i = some j ↔ link? (pair ts) j = some i := by
  rw [link?_pair, link?_pair, or_comm]

/-- Terms between two that are linked are linked to terms between the two. -/
theorem between_of_link? (h : link? (pair ts) i = some j) (h' : link? (pair ts) k = some l)
    (hik : i < k) (hkj : k < j) : i < l ∧ l < j := by
  have H := encloses_of_link?_of_lt h (Nat.lt_trans hik hkj)
  rcases link?_pair.1 h' with H' | H'
  · exact ⟨Nat.lt_trans hik H'.lt, H.lt_of_lt H' hik hkj⟩
  · refine ⟨Nat.lt_of_not_le fun hli => ?_, Nat.lt_trans H'.lt hkj⟩
    -- Then the outer pair would begin inside of the inner one, or they would begin together.
    rcases Nat.lt_or_eq_of_le hli with hli | rfl
    · exact absurd (H'.lt_of_lt H hli hik) (Nat.not_lt_of_lt hkj)
    · rw [link?_pair_comm, h] at h'
      exact absurd (Option.some.inj h') (Nat.ne_of_gt hkj)

/-- **Links of terms in a row.** Pairing links two parentheses exactly if one opens, the other
closes behind it, and those between them are balanced; links do not cross. The opening ones without
a link are as many as the groups that are open behind the terms, a closing one that nothing opened
left aside, and as many as the check of an editor counts if it finds no error. -/
theorem nested_pair (ts : List Token) :
    let x : TermIndex := ⟨pair ts⟩
    (∀ i j, link? x.tokens i = some j ↔ Encloses ts i j ∨ Encloses ts j i) ∧
    (∀ i j k l, link? x.tokens i = some j → link? x.tokens k = some l → i < k → k < j →
      i < l ∧ l < j) ∧
    x.openGroups = FilterQuery.openGroups ts ∧
    ∀ ed : Editor, ed.terms = x → Expect.column.depthBehind ed.messages 0 x.tokens =
      ed.validate.elim (.ok x.openGroups) .error := by
  intro x
  have hopen : x.openGroups = FilterQuery.openGroups ts := openGroups_pair ts
  refine ⟨fun _ _ => link?_pair, fun _ _ _ _ => between_of_link?, hopen, fun ed hed => ?_⟩
  have hdepth : FilterQuery.openGroups x.tokens = x.openGroups := by
    rw [hopen]
    exact openGroups_congr (map_pairFrom fun _ _ => rfl)
  rw [Expect.depthBehind_eq, Editor.validate, hed, ← hdepth]
  rfl

/-- Of four groups that are opened one in the other or side by side, the outermost and the last one
are left open. -/
theorem nested_pair_open :
    let ts : List Token := [.symbol .groupOpen "(", .symbol .groupOpen "(", .symbol .groupOpen "(",
      .freeText .column "a", .symbol .groupClose ")", .symbol .groupClose ")",
      .symbol .logical "&", .symbol .groupOpen "(", .freeText .column "b"]
    let ed : Editor := { terms := ⟨pair ts⟩ }
    link? (pair ts) 1 = some 5 ∧ link? (pair ts) 4 = some 2 ∧ Encloses ts 2 4 ∧
      (1 < 2 ∧ 2 < 5) ∧ ed.validate = none ∧
      Expect.column.depthBehind ed.messages 0 (pair ts) = .ok (FilterQuery.openGroups ts) ∧
      FilterQuery.openGroups ts = 2 := by
  intro ts ed
  obtain ⟨hlink, hcross, hopen, hdepth⟩ := nested_pair ts
  have h : link? (pair ts) 1 = some 5 := by decide +kernel
  have h' : link? (pair ts) 4 = some 2 := by decide +kernel
  have hv : ed.validate = none := by decide +kernel
  have hd := hdepth ed rfl
  rw [hv, hopen] at hd
  refine ⟨h, h', ?_, hcross 1 5 4 2 h h' (by decide) (by decide), hv, hd, by decide +kernel⟩
  exact ((hlink 4 2).1 h').resolve_left fun H => absurd H.lt (by decide)

end TermIndex
end FilterQuery
