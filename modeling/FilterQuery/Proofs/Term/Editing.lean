import FilterQuery.Proofs.Term.Pairing

/-!
Indices that are edited. An edit keeps every parenthesis linked to the one that goes with it, and
finds all nodes and positions anew, so an edited index is the one that its terms make from scratch.
-/

namespace FilterQuery

namespace TermIndex

open Token

variable {ts us : List Token}

/-! ### Locating terms -/

theorem map_align {α : Type} {g : Token → α}
    (h : ∀ t p n, g { t with path := p, sourceOffset := n } = g t) (candidates : List Token) :
    (align ts candidates).map g = ts.map g := by
  have detached (us : List Token) : (us.map Token.detach).map g = us.map g := by
    rw [List.map_map]
    exact List.map_congr_left fun t _ => h t none none
  induction ts generalizing candidates with
  | nil => rfl
  | cons t ts ih =>
    rw [align]
    split
    · exact detached _
    · split
      · rw [List.map_cons, h, ih, List.map_cons]
      · exact detached _

theorem map_locate {α : Type} {g : Token → α}
    (h : ∀ t p n, g { t with path := p, sourceOffset := n } = g t) : (locate ts).map g = ts.map g :=
  map_align h _

/-- Nodes and positions depend on the kinds and texts of the terms alone. -/
theorem align_congr (h : ts.map word = us.map word) (candidates : List Token) :
    (align ts candidates).map place = (align us candidates).map place := by
  have detached {ts us : List Token} (h : ts.map word = us.map word) :
      (ts.map Token.detach).map place = (us.map Token.detach).map place := by
    have hl : ts.length = us.length := by simpa using congrArg List.length h
    have place_detach : place ∘ Token.detach = fun _ => (none, none) := rfl
    rw [List.map_map, List.map_map, place_detach, List.map_const', List.map_const', hl]
  induction ts generalizing us candidates with
  | nil =>
    obtain rfl : us = [] := by simpa using h
    rfl
  | cons t ts ih =>
    obtain _ | ⟨u, us⟩ := us
    · simp at h
    have hs (c : Token) : sameTerm c u = sameTerm c t := by
      have h := (List.cons.inj h).1
      simp only [word, Prod.mk.injEq] at h
      rw [sameTerm, sameTerm, h.1, h.2]
    rw [align, align]
    simp only [hs]
    split
    · exact detached h
    · split
      · rw [List.map_cons, List.map_cons, ih (List.cons.inj h).2]
        rfl
      · exact detached h

/-- Terms find the nodes and positions of candidates with the same kinds and texts. -/
theorem place_align (h : ts.map word = us.map word) : (align ts us).map place = us.map place := by
  induction ts generalizing us with
  | nil =>
    obtain rfl : us = [] := by simpa using h.symm
    rfl
  | cons t ts ih =>
    obtain _ | ⟨u, us⟩ := us
    · simp at h
    obtain ⟨hu, hus⟩ := List.cons.inj h
    have hs : sameTerm u t = true := by
      simp only [word, Prod.mk.injEq] at hu
      rw [sameTerm, hu.1, hu.2, beq_self_eq_true, beq_self_eq_true]
      rfl
    rw [align, List.dropWhile_cons_of_neg (by simp [hs])]
    simp only [hs, if_true, List.map_cons, ih hus]
    rfl

theorem rawOf_congr (h : ts.map word = us.map word) : rawOf ts = rawOf us := by
  have h := congrArg (List.map Prod.snd) h
  rw [List.map_map, List.map_map] at h
  exact congrArg String.join h

theorem locate_congr (h : ts.map word = us.map word) :
    (locate ts).map place = (locate us).map place := by
  rw [locate, locate, rawOf_congr h]
  exact align_congr h _

theorem Linked.locate (H : Linked ts) : Linked (locate ts) :=
  H.congr (map_locate fun _ _ _ => rfl) (map_locate fun _ _ _ => rfl)

/-- Linked terms that are located anew are what their own terms make from scratch. -/
theorem Linked.ofTokens_locate (H : Linked ts) :
    ofTokens (TermIndex.locate ts) = ⟨TermIndex.locate ts⟩ := by
  have hw : (TermIndex.locate ts).map word = ts.map word := map_locate fun _ _ _ => rfl
  rw [ofTokens, show pair (TermIndex.locate ts) = _ from H.locate]
  refine congrArg TermIndex.mk (ext_of_map ?_ ?_ (locate_congr hw) ?_)
  iterate 3 exact map_locate fun _ _ _ => rfl

/-! ### Replacing a range -/

/-- The terms that a range is cut out of. -/
theorem take_append_removed {start stop : Nat} (h : start ≤ stop) (ts : List Token) :
    ts.take start ++ ((ts.drop start).take (stop - start) ++ ts.drop stop) = ts := by
  have hd : ts.drop stop = (ts.drop start).drop (stop - start) := by
    rw [List.drop_drop, Nat.add_sub_cancel' h]
  rw [hd, List.take_append_drop, List.take_append_drop]

theorem shiftLink_eq (stop removed inserted : Nat) : shiftLink stop removed inserted =
    relink fun i => if stop ≤ i then i + inserted - removed else i := rfl

theorem shiftLink_self (stop n : Nat) : shiftLink stop n n = id := by
  funext t
  have h : (fun i => if stop ≤ i then i + n - n else i) = id := by
    funext i
    simp
  rw [shiftLink_eq, relink, h, Option.map_id]
  rfl

/-- As many terms are removed as there are in the range, so a link that points behind them can move
back that far. -/
theorem length_removed (x : TermIndex) (start stop : Nat) (added : List Token) :
    min start (min stop x.tokens.length) + (x.splice start stop added).1.length =
      min stop x.tokens.length := by
  simp only [splice, List.length_take, List.length_drop]
  omega

/-- The links that are shifted go with the parentheses, for they point behind what was removed. -/
theorem linked_shift {pre removed added post : List Token} (hr : Plain removed) (ha : Plain added)
    (hu : Unlinked added) (H : Linked (pre ++ (removed ++ post))) :
    Linked ((pre ++ (added ++ post)).map
      (shiftLink (pre.length + removed.length) removed.length added.length)) := by
  have H : pairFrom 0 [] (pre ++ (removed ++ post)) = (pre ++ (removed ++ post), _) := Prod.ext H rfl
  have H' := pairFrom_replace hr ha hu
    (f := fun i => if pre.length + removed.length ≤ i then i + added.length - removed.length else i)
    (fun n hn => if_neg (by omega)) (fun n => (if_pos (by omega)).trans (by omega))
    (Nat.zero_add _) (List.forall_mem_nil _) H
  have hp : pair (pre ++ (added ++ post)) = (pre ++ (added ++ post)).map (shiftLink _ _ _) :=
    congrArg Prod.fst H'
  rw [← hp]
  exact linked_pair _

/-- Whichever way links are kept, a replaced range leaves linked terms, which are located anew. -/
theorem linked_splice {x : TermIndex} (H : Linked x.tokens) {added : List Token}
    (hu : Unlinked added) (start stop : Nat) :
    ∃ ts, Linked ts ∧ (x.splice start stop added).2.2 = ⟨TermIndex.locate ts⟩ := by
  refine ⟨_, ?_, rfl⟩
  generalize hstop : min stop x.tokens.length = stop'
  generalize hstart : min start stop' = start'
  have hle : start' ≤ stop' := hstart ▸ Nat.min_le_right ..
  have hlen : stop' ≤ x.tokens.length := hstop ▸ Nat.min_le_right ..
  generalize hremoved : (x.tokens.drop start').take (stop' - start') = removed
  have htokens := take_append_removed hle x.tokens
  rw [hremoved] at htokens
  have hstop' : (x.tokens.take start').length + removed.length = stop' := by
    rw [← hremoved, List.length_take, List.length_take, List.length_drop]
    omega
  rw [List.append_assoc]
  split
  · exact linked_pair _
  -- No parenthesis comes or goes, so the links move with the terms, or stay where none moves.
  · rename_i hp
    simp only [List.any_append, Bool.or_eq_true, not_or, List.any_eq_true, not_exists, not_and,
      Bool.not_eq_true] at hp
    have hshift := linked_shift hp.2 hp.1 hu (by rwa [htokens])
    rw [hstop'] at hshift
    split
    · exact hshift
    · rename_i hl
      have hl : added.length = removed.length := by simpa using hl
      rwa [hl, shiftLink_self, List.map_id] at hshift

/-! ### What an edited index says -/

/-- Whatever does not depend on where terms belong and on their links, an edit keeps for all terms
but those that it replaces. -/
theorem map_splice {α : Type} {g : Token → α}
    (hp : ∀ t p n, g { t with path := p, sourceOffset := n } = g t)
    (hl : ∀ t l, g { t with counterpart := l } = g t) (x : TermIndex) (start stop : Nat)
    (added : List Token) : (x.splice start stop added).2.2.tokens.map g =
      (x.tokens.take (min start (min stop x.tokens.length)) ++ added ++
        x.tokens.drop (min stop x.tokens.length)).map g := by
  rw [splice]
  refine (map_locate hp).trans ?_
  split
  · exact map_pairFrom hl
  · split
    · rw [List.map_map]
      exact List.map_congr_left fun t _ => hl t _
    · rfl

theorem map_word_splice (x : TermIndex) (start stop : Nat) (added : List Token) :
    (x.splice start stop added).2.2.tokens.map Token.word =
      (x.tokens.take (min start (min stop x.tokens.length)) ++ added ++
        x.tokens.drop (min stop x.tokens.length)).map Token.word :=
  map_splice (fun _ _ _ => rfl) (fun _ _ => rfl) x start stop added

theorem map_word_push (x : TermIndex) (t : Token) :
    (x.push t).2.tokens.map Token.word = x.tokens.map Token.word ++ [t.word] := by
  rw [push, insert, map_word_splice]
  simp [size]

/-! ### Edits in a row -/

/-- A call that edits an index. -/
inductive Edit where
  | splice (start stop : Nat) (added : List Token)
  | insert (i : Nat) (t : Token)
  | push (t : Token)
  | remove (i : Nat)
  | pop
  | removeRange (start stop : Nat)

namespace Edit

/-- The terms that come in. -/
def added : Edit → List Token
  | splice _ _ ts => ts
  | insert _ t | push t => [t]
  | remove _ | pop | removeRange _ _ => []

/-- The index behind a call. A term that is not there cannot be removed, which changes nothing. -/
def apply (x : TermIndex) : Edit → TermIndex
  | splice start stop ts => (x.splice start stop ts).2.2
  | insert i t => (x.insert i t).2
  | push t => (x.push t).2
  | remove i => ((x.remove? i).map (·.2.2)).getD x
  | pop => (x.pop?.map (·.2)).getD x
  | removeRange start stop => (x.removeRange start stop).2.2

/-- Whether a call replaces a range, be it an empty one. -/
def splices (x : TermIndex) : Edit → Bool
  | remove i => (x.remove? i).isSome
  | pop => x.pop?.isSome
  | _ => true

/-- Every call replaces a range or leaves the index alone. -/
theorem apply_cases (x : TermIndex) (e : Edit) :
    (∃ start stop, e.apply x = (x.splice start stop e.added).2.2) ∨
      e.splices x = false ∧ e.apply x = x := by
  have removed (i : Nat) :
      (∃ t, x.remove? i = some (t, (x.splice i (i + 1) []).2)) ∨ x.remove? i = none := by
    rw [remove?]
    split
    · exact .inl ⟨_, rfl⟩
    · exact .inr rfl
  cases e with
  | remove i =>
    rcases removed i with ⟨t, h⟩ | h
    · exact .inl ⟨i, i + 1, by rw [apply, h]; rfl⟩
    · exact .inr ⟨by rw [splices, h]; rfl, by rw [apply, h]; rfl⟩
  | pop =>
    rcases removed (x.size - 1) with ⟨t, h⟩ | h
    · exact .inl ⟨x.size - 1, x.size - 1 + 1, by rw [apply, pop?, h]; rfl⟩
    · exact .inr ⟨by rw [splices, pop?, h]; rfl, by rw [apply, pop?, h]; rfl⟩
  | _ => exact .inl ⟨_, _, rfl⟩

end Edit

/-- Indices that are made anew and edited; the flag tells whether a range has been replaced since,
or the index was made from terms. -/
inductive Built : Bool → TermIndex → Prop where
  | empty : Built false empty
  | ofRule (r : Rule) : Built false (ofRule r)
  | ofTokens (ts : List Token) : Built true (ofTokens ts)
  | edit {spliced : Bool} {x : TermIndex} {e : Edit} : Built spliced x → Unlinked e.added →
    Built (spliced || e.splices x) (e.apply x)

theorem Built.linked {spliced : Bool} {x : TermIndex} (H : Built spliced x) :
    Linked x.tokens ∧ (spliced = true → ∃ ts, Linked ts ∧ x = ⟨TermIndex.locate ts⟩) := by
  induction H with
  | empty => exact ⟨linked_nil, fun h => nomatch h⟩
  | ofRule r => exact ⟨linked_pair _, fun h => nomatch h⟩
  | ofTokens ts => exact ⟨(linked_pair ts).locate, fun _ => ⟨_, linked_pair ts, rfl⟩⟩
  | @edit spliced x e _ hu ih =>
    obtain ⟨hx, hs⟩ := ih
    rcases e.apply_cases x with ⟨start, stop, he⟩ | ⟨hn, he⟩
    · obtain ⟨ts, hts, hy⟩ := linked_splice hx hu start stop
      rw [he, hy]
      exact ⟨hts.locate, fun _ => ⟨ts, hts, rfl⟩⟩
    · rw [hn, he, Bool.or_false]
      exact ⟨hx, hs⟩

theorem Built.edits {x : TermIndex} {es : List Edit} (H : Built true x)
    (h : ∀ e ∈ es, Unlinked e.added) : Built true (es.foldl Edit.apply x) := by
  induction es generalizing x with
  | nil => exact H
  | cons e es ih =>
    obtain ⟨he, h⟩ := List.forall_mem_cons.1 h
    exact ih (H.edit he) h

/-- **Editing an index is as good as making it anew.** Once a range has been replaced, the index is
the one that its terms make from scratch, in all fields of all terms. -/
theorem ofTokens_of_built {x : TermIndex} (H : Built true x) : ofTokens x.tokens = x := by
  obtain ⟨-, hx⟩ := H.linked
  obtain ⟨ts, hts, rfl⟩ := hx rfl
  exact hts.ofTokens_locate

theorem ofTokens_of_built_shifted :
    let x := Edit.apply
      (ofRule (.chain .any [.test "a" true, .chain .all [.test "b" true, .test "c" true]]))
      (.splice 0 1 [.symbol .logical "!", .freeText .column "x y"])
    let edits := [.removeRange 9 2,
      .insert 99 { Token.symbol .groupOpen "(" with counterpart := some 5 }, .remove 99,
      .splice 4 5 []]
    let y := edits.foldl Edit.apply x
    Built true y ∧ y.raw = "!x%20y|(&c)(" ∧
      y.tokens.map counterpart = [none, none, none, some 6, none, none, some 3, none] ∧
      ofTokens y.tokens = y := by
  intro x edits y
  have hx : Built true x := .edit (e := .splice 0 1 _) (.ofRule _) (by decide)
  have hy : Built true y := hx.edits (by decide)
  exact ⟨hy, by decide +kernel, by decide +kernel, ofTokens_of_built hy⟩

end TermIndex
end FilterQuery
