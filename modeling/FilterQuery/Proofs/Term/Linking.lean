import FilterQuery.Proofs.Term.Editing
import FilterQuery.Proofs.Term.Matching

/-!
Links of terms that come from anywhere. A term may arrive with a link of its own. A parenthesis
loses it, for whenever one comes or goes all links are found anew; any other term keeps it until
then. So the links of an index are sound exactly if no such term is left in it.
-/

namespace FilterQuery

namespace Token

/-- The term with no link unless it is a parenthesis. -/
def tidy (t : Token) : Token :=
  { t with counterpart := if t.kind.isGrouping then t.counterpart else none }

variable {ts : List Token} {t : Token}

theorem tidy_of_grouping (h : t.kind.isGrouping = true) : t.tidy = t := by
  rw [tidy, if_pos h]

theorem tidy_of_plain (h : t.kind.isGrouping = false) : t.tidy = t.unlink := by
  rw [tidy, h]
  rfl

theorem tidy_relink (f : Nat → Nat) (t : Token) : (t.relink f).tidy = t.tidy.relink f := by
  cases h : t.kind.isGrouping with
  | true => rw [tidy_of_grouping h, tidy_of_grouping (t := t.relink f) h]
  | false => rw [tidy_of_plain h, tidy_of_plain (t := t.relink f) h]; rfl

theorem map_tidy_relink (f : Nat → Nat) (ts : List Token) :
    (ts.map (relink f)).map tidy = (ts.map tidy).map (relink f) := by
  rw [List.map_map, List.map_map]
  exact List.map_congr_left fun t _ => tidy_relink f t

theorem map_kind_tidy (ts : List Token) : (ts.map tidy).map kind = ts.map kind := by
  rw [List.map_map]
  rfl

theorem unlinked_map_tidy (ts : List Token) : Unlinked (ts.map tidy) := by
  intro u hu hk
  obtain ⟨t, -, rfl⟩ := List.mem_map.1 hu
  exact congrArg counterpart (tidy_of_plain (t := t) hk)

theorem map_tidy_of_unlinked (H : Unlinked ts) : ts.map tidy = ts := by
  refine (List.map_congr_left fun t ht => ?_).trans ts.map_id
  cases hk : t.kind.isGrouping with
  | true => exact tidy_of_grouping hk
  | false =>
    obtain ⟨kind, raw, label, path, offset, link⟩ := t
    obtain rfl : link = none := H _ ht hk
    exact tidy_of_plain hk

theorem unlinked_map_relink (f : Nat → Nat) : Unlinked (ts.map (relink f)) ↔ Unlinked ts := by
  simp [Unlinked, relink]

end Token

namespace TermIndex

open Token

variable {x : TermIndex} {ts us : List Token} {t : Token} {i j : Nat}

theorem unlinked_pairFrom (i : Nat) (opened : List Nat) (ts : List Token) :
    Unlinked (pairFrom i opened ts).1 := by
  induction ts generalizing i opened with
  | nil => exact List.forall_mem_nil _
  | cons t ts ih =>
    rw [pairFrom_cons]
    exact List.forall_mem_cons.2 ⟨fun h => linkOf_of_plain h _, ih _ _⟩

theorem unlinked_pair (ts : List Token) : Unlinked (pair ts) := unlinked_pairFrom 0 [] ts

theorem Linked.unlinked (H : Linked ts) : Unlinked ts := by
  rw [← show pair ts = ts from H]
  exact unlinked_pair ts

theorem unlinked_locate : Unlinked (locate ts) ↔ Unlinked ts := by
  have unlinked_iff (ts : List Token) : Unlinked ts ↔
      ∀ p ∈ ts.map fun t => (t.kind, t.counterpart), p.1.isGrouping = false → p.2 = none := by
    rw [List.forall_mem_map]
  rw [unlinked_iff, unlinked_iff ts, map_locate fun _ _ _ => rfl]

/-- An edit leaves the same links but for those of terms that are no parentheses. -/
theorem counterpart_splice_tidy (x : TermIndex) (start stop : Nat) (added : List Token) :
    ((x.splice start stop added).2.2.tokens.map tidy).map counterpart =
      ((TermIndex.mk (x.tokens.map tidy)).splice start stop
        (added.map tidy)).2.2.tokens.map counterpart := by
  have hany (ts : List Token) : (ts.map tidy).any (·.kind.isGrouping) =
      ts.any (·.kind.isGrouping) := List.any_map
  rw [List.map_map]
  refine (map_locate fun _ _ _ => rfl).trans (.trans ?_ (map_locate fun _ _ _ => rfl).symm)
  rw [← List.map_map]
  simp only [List.length_map, ← List.map_take, ← List.map_drop, ← List.map_append, hany]
  split
  · rw [map_tidy_of_unlinked (unlinked_pair _)]
    exact (pairFrom_congr (map_kind_tidy _)).1.symm
  · split
    · rw [shiftLink_eq, map_tidy_relink]
    · rfl

theorem kind_splice_tidy (x : TermIndex) (start stop : Nat) (added : List Token) :
    ((x.splice start stop added).2.2.tokens.map tidy).map kind =
      ((TermIndex.mk (x.tokens.map tidy)).splice start stop
        (added.map tidy)).2.2.tokens.map kind := by
  rw [map_kind_tidy, map_splice (fun _ _ _ => rfl) (fun _ _ => rfl),
    map_splice (fun _ _ _ => rfl) (fun _ _ => rfl)]
  simp only [List.length_map, ← List.map_take, ← List.map_drop, ← List.map_append, map_kind_tidy]

/-- Terms are left without a link of their own where links are found anew, or where there was none.
-/
theorem unlinked_splice (x : TermIndex) (start stop : Nat) (added : List Token) :
    Unlinked (x.splice start stop added).2.2.tokens ↔
      (added ++ (x.splice start stop added).1).any (·.kind.isGrouping) = true ∨
        Unlinked (x.tokens.take (min start (min stop x.tokens.length)) ++ added ++
          x.tokens.drop (min stop x.tokens.length)) := by
  rw [splice]
  refine unlinked_locate.trans ?_
  split
  · rename_i h
    exact iff_of_true (unlinked_pair _) (.inl h)
  · rename_i h
    rw [or_iff_right h]
    split
    · exact unlinked_map_relink _
    · rfl

/-! ### Indices that are edited -/

/-- Indices that are made anew and edited, with any terms whatsoever. -/
inductive Made : TermIndex → Prop where
  | empty : Made empty
  | ofRule (r : Rule) : Made (ofRule r)
  | ofTokens (ts : List Token) : Made (ofTokens ts)
  | edit {x : TermIndex} (e : Edit) : Made x → Made (e.apply x)

/-- Links are what pairing makes of them but for those that terms brought along. -/
theorem Made.linked_tidy (H : Made x) : Linked (x.tokens.map tidy) := by
  have tidied {ts : List Token} (h : Linked ts) : Linked (ts.map tidy) := by
    rwa [map_tidy_of_unlinked h.unlinked]
  induction H with
  | empty => exact linked_nil
  | ofRule r => exact tidied (linked_pair _)
  | ofTokens ts => exact tidied (linked_pair ts).locate
  | @edit x e _ ih =>
    rcases e.apply_cases x with ⟨start, stop, he⟩ | ⟨-, he⟩
    · obtain ⟨ts, hts, hy⟩ := linked_splice ih (unlinked_map_tidy e.added) start stop
      have hk := kind_splice_tidy x start stop e.added
      have hc := counterpart_splice_tidy x start stop e.added
      rw [hy] at hk hc
      rw [he]
      exact hts.locate.congr hk hc
    · rwa [he]

/-- A parenthesis is linked to the one that it encloses balanced terms with. -/
theorem Made.link_iff (H : Made x) {t : Token} (ht : x.tokens[i]? = some t)
    (hk : t.kind.isGrouping = true) :
    t.counterpart = some j ↔ Encloses x.tokens i j ∨ Encloses x.tokens j i := by
  have hlinks : (pair x.tokens).map counterpart = (x.tokens.map tidy).map counterpart := by
    have h : pair (x.tokens.map tidy) = x.tokens.map tidy := H.linked_tidy
    rw [← h]
    exact (pairFrom_congr (map_kind_tidy _)).1.symm
  have hlink : link? (pair x.tokens) i = t.counterpart := by
    rw [link?_eq, hlinks, List.map_map, List.getElem?_map, ht]
    exact congrArg counterpart (tidy_of_grouping hk)
  rw [← hlink, link?_pair]

/-! ### Sound links -/

/-- Links point to terms that are there, only parentheses have one, an opening one is linked to a
closing one behind it, and links go both ways. -/
structure WellLinked (x : TermIndex) : Prop where
  lt : ∀ i j, link? x.tokens i = some j → j < x.size
  grouping : ∀ t ∈ x.tokens, t.counterpart ≠ none → t.kind.isGrouping = true
  opens : ∀ i j, x.tokens[i]?.map kind = some .groupOpen → link? x.tokens i = some j →
    i < j ∧ x.tokens[j]?.map kind = some .groupClose
  symm : ∀ i j, link? x.tokens i = some j ↔ link? x.tokens j = some i

theorem WellLinked.of_linked (H : Linked x.tokens) : x.WellLinked := by
  have hlink {i j : Nat} : link? x.tokens i = some j ↔
      Encloses x.tokens i j ∨ Encloses x.tokens j i := by
    rw [← link?_pair, show pair x.tokens = _ from H]
  constructor
  · intro i j h
    rcases hlink.1 h with h | h
    · exact h.lt_length
    · exact Nat.lt_trans h.lt h.lt_length
  · intro t ht hc
    cases hk : t.kind.isGrouping with
    | true => rfl
    | false => exact absurd (H.unlinked t ht hk) hc
  · intro i j ho h
    rcases hlink.1 h with h | h
    · exact ⟨h.lt, h.closes⟩
    · exact absurd (ho.symm.trans h.closes) nofun
  · intro i j
    rw [hlink, hlink, or_comm]

theorem WellLinked.unlinked (H : x.WellLinked) : Unlinked x.tokens := by
  intro t ht hk
  by_contra hc
  rw [H.grouping t ht hc] at hk
  cases hk

/-- **Links of an edited index.** Parentheses are linked to those that they go with, whatever the
terms were that came in. Links are sound exactly if no other term has one, which an edit brings
about if a parenthesis comes or goes, and else keeps as it was with the terms that come in; so they
are sound in all indices that are edited with terms that bring no link along. -/
theorem wellLinked_iff_of_made (H : Made x) :
    (∀ i j t, x.tokens[i]? = some t → t.kind.isGrouping = true →
      (t.counterpart = some j ↔ Encloses x.tokens i j ∨ Encloses x.tokens j i)) ∧
    (x.WellLinked ↔ Unlinked x.tokens) ∧
    (∀ start stop added, (x.splice start stop added).2.2.WellLinked ↔
      (added ++ (x.splice start stop added).1).any (·.kind.isGrouping) = true ∨
        Unlinked (x.tokens.take (min start (min stop x.tokens.length)) ++ added ++
          x.tokens.drop (min stop x.tokens.length))) ∧
    (∀ spliced, Built spliced x → x.WellLinked) := by
  have hiff {y : TermIndex} (hy : Made y) : y.WellLinked ↔ Unlinked y.tokens := by
    refine ⟨WellLinked.unlinked, fun h => .of_linked ?_⟩
    have := hy.linked_tidy
    rwa [map_tidy_of_unlinked h] at this
  refine ⟨fun i j t ht hk => H.link_iff ht hk, hiff H, fun start stop added => ?_,
    fun spliced h => .of_linked h.linked.1⟩
  exact (hiff (H.edit (.splice start stop added))).trans (unlinked_splice x start stop added)

/-- A column that brings a link along spoils the links of an index until a parenthesis comes. -/
theorem wellLinked_iff_of_made_mended :
    let x := Edit.apply
      (ofTokens [.symbol .groupOpen "(", .freeText .column "a", .symbol .groupClose ")"])
      (.insert 1 { Token.freeText .column "b" with counterpart := some 2 })
    Made x ∧ x.tokens.map counterpart = [some 3, some 3, none, some 0] ∧ Encloses x.tokens 0 3 ∧
      ¬ x.WellLinked ∧ (x.push (.symbol .groupClose ")")).2.WellLinked := by
  intro x
  have H : Made x := .edit _ (.ofTokens _)
  have hlinks : x.tokens.map counterpart = [some 3, some 3, none, some 0] := by decide +kernel
  obtain ⟨-, hiff, hsplice, -⟩ := wellLinked_iff_of_made H
  exact ⟨H, hlinks, ⟨by decide, by decide +kernel, by decide +kernel, by decide +kernel⟩,
    mt hiff.1 (by decide +kernel), (hsplice x.size x.size [_]).2 (.inl (by decide +kernel))⟩

/-- The link of a column that is the only term points nowhere, and would not be there if the index
were made anew. -/
theorem not_wellLinked_push :
    let x := (empty.push { Token.freeText .column "a" with counterpart := some 5 }).2
    Made x ∧ x.tokens.map counterpart = [some 6] ∧ ¬ x.WellLinked ∧ ofTokens x.tokens ≠ x := by
  intro x
  have hsize : x.size = 1 := by decide +kernel
  refine ⟨.edit (.push _) .empty, by decide +kernel, fun H => ?_, by decide +kernel⟩
  have h := H.lt 0 6 (by decide +kernel)
  omega

end TermIndex
end FilterQuery
