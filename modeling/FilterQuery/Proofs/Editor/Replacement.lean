import FilterQuery.Proofs.Editor.Action
import FilterQuery.Proofs.Term.Change
import FilterQuery.Proofs.Term.Legality

/-!
Terms that are replaced in an editor. The text has to be legal behind the terms in front; as what
may follow depends on kinds alone, the terms behind stay legal. So a replacement keeps an editor
without an error free of errors, and what may replace a term depends on that term alone.
-/

namespace FilterQuery

open Text

namespace Token

variable {t : Token} {e : Expect} {depth : Nat} {text : String}

/-- The term of a kind that typed text makes. -/
def typed (kind : TokenKind) (text : String) : Token :=
  if kind.isFreeText then .freeText kind (trimmed text) else .symbol kind text

/-- What may be typed in place of the term, wherever that may stand. -/
def Admits (t : Token) (text : String) : Prop :=
  match t.kind with
  | .column => trimmed text ≠ ""
  | .operator => ∃ op : Comparison, text = op.symbol
  | .value => True
  | .logical => if t.raw = "!" then text = "!" else text = "&" ∨ text = "|"
  | .groupOpen => text = "("
  | .groupClose => text = ")"

theorem kind_typed (kind : TokenKind) (text : String) : (typed kind text).kind = kind := by
  rw [typed]
  split <;> rfl

theorem raw_typed {kind : TokenKind} (hk : kind.isFreeText = false) (text : String) :
    (typed kind text).raw = text := by
  rw [typed, if_neg (by simp [hk])]
  rfl

theorem text_typed (kind : TokenKind) (text : String) :
    (typed kind text).text = if kind.isFreeText then trimmed text else text := by
  split <;> rename_i hk
  · refine text_of_raw ((congrArg _ (kind_typed kind text)).trans hk) ?_
    rw [typed, if_pos hk]
    rfl
  · have hk := eq_false_of_ne_true hk
    rw [text_of_symbol ((congrArg _ (kind_typed kind text)).trans hk), raw_typed hk]

/-- Blanks around typed text do not matter to the check. -/
theorem check_typed {m : Messages} {kind : TokenKind} :
    e.check m depth kind text = none ↔ (typed kind text).Fits e depth := by
  rw [← check_eq_none_iff (m := m), kind_typed, text_typed]
  split <;> rename_i hk
  · rw [Expect.check, Expect.check, if_pos hk, if_pos hk, trimmed_trimmed]
  · exact Iff.rfl

/-- Where a term may stand, the text alone decides whether it may be replaced. -/
theorem Fits.typed_iff (H : t.Fits e depth) :
    (typed t.kind text).Fits e depth ↔ t.Admits text := by
  rw [Fits] at H
  rw [Fits, Admits, kind_typed, text_typed]
  cases hk : t.kind with
  | column =>
    rw [hk] at H
    simp only [TokenKind.isFreeText, if_true, trimmed_trimmed]
    exact and_iff_right H.1
  | value =>
    rw [hk] at H
    exact iff_true_intro H
  | operator =>
    rw [hk] at H
    rw [raw_typed rfl]
    exact and_iff_right H.1
  | logical =>
    rw [hk] at H
    simp only [raw_typed (show TokenKind.logical.isFreeText = false from rfl)] at H ⊢
    by_cases he : e = .column
    · rw [if_pos he] at H
      rw [if_pos he, if_pos H]
    · rw [if_neg he] at H
      have hn : t.raw ≠ "!" := by
        rcases H with h | h
        · rw [h]
          decide
        · rw [h]
          decide
      rw [if_neg he, if_neg hn]
  | groupOpen =>
    rw [hk] at H
    rw [raw_typed rfl]
    exact and_iff_right H.1
  | groupClose =>
    rw [hk] at H
    rw [raw_typed rfl]
    exact (and_iff_right H.1).trans (and_iff_right H.2.1)

end Token

/-- A term that is replaced is set, whatever does not depend on where terms belong and on their
links. -/
theorem TermIndex.map_splice_singleton {α : Type} {g : Token → α}
    (hp : ∀ t p n, g { t with path := p, sourceOffset := n } = g t)
    (hl : ∀ t l, g { t with counterpart := l } = g t) {x : TermIndex} {i : Nat}
    (h : i < x.tokens.length) (u : Token) :
    (x.splice i (i + 1) [u]).2.2.tokens.map g = (x.tokens.set i u).map g := by
  have hstop : min (i + 1) x.tokens.length = i + 1 := Nat.min_eq_left h
  rw [map_splice hp hl, hstop, Nat.min_eq_left (Nat.le_succ i), List.append_assoc,
    List.singleton_append, List.set_eq_take_append_cons_drop, if_pos h]

theorem TermIndex.change_splice_singleton {x : TermIndex} {i : Nat} (h : i < x.tokens.length)
    (u : Token) : (x.splice i (i + 1) [u]).2.1 = ⟨i, 1, 1⟩ := by
  have hremoved := length_removed x i (i + 1) [u]
  have hstop : min (i + 1) x.tokens.length = i + 1 := Nat.min_eq_left h
  rw [hstop, Nat.min_eq_left (Nat.le_succ i)] at hremoved
  have hchange : (x.splice i (i + 1) [u]).2.1 =
      ⟨min i (min (i + 1) x.tokens.length), (x.splice i (i + 1) [u]).1.length, 1⟩ := rfl
  rw [hchange, hstop, Nat.min_eq_left (Nat.le_succ i), Nat.add_left_cancel hremoved]

namespace Editor

variable {ed : Editor} {i : Nat} {t : Token}

/-- Terms are as they were but for the one at an index, which says what was typed in its place. -/
structure Replaced (ed : Editor) (i : Nat) (text : String) (after : Editor) : Prop where
  validate_eq : after.validate = none
  map_kind : after.terms.tokens.map Token.kind = ed.terms.tokens.map Token.kind
  map_face : ∀ j, j ≠ i →
    after.terms.tokens[j]?.map Token.face = ed.terms.tokens[j]?.map Token.face
  term : ∃ u, after.terms.tokens[i]? = some u ∧
    if u.kind.isFreeText then Percent.decode u.raw = trimmed text else u.raw = text
  rest : after = ed.record ⟨i, 1, 1⟩ after.terms

/-- The terms in front do not matter to what may replace a term. -/
theorem validateTerm_eq_none_iff (H : ed.validate = none) (ht : ed.terms.tokens[i]? = some t)
    (text : String) : ed.validateTerm i t.kind text = none ↔ t.Admits text :=
  Token.check_typed.trans ((validate_eq_none_iff.1 H).fits_of_getElem? ht).typed_iff

theorem replaced_splice (H : ed.validate = none) (ht : ed.terms.tokens[i]? = some t)
    {text : String} (ha : t.Admits text) :
    Replaced ed i text
      (ed.record ⟨i, 1, 1⟩ (ed.terms.splice i (i + 1) [.typed t.kind text]).2.2) := by
  have H := validate_eq_none_iff.1 H
  have hi : i < ed.terms.tokens.length := (List.getElem?_eq_some_iff.1 ht).1
  have htext := Token.text_typed t.kind text
  have hk := Token.kind_typed t.kind text
  have hfits := (H.fits_of_getElem? ht).typed_iff.2 ha
  generalize Token.typed t.kind text = u at hk hfits htext ⊢
  have hface (j : Nat) := congrArg (·[j]?) (TermIndex.map_splice_singleton
    (g := Token.face) (fun _ _ _ => rfl) (fun _ _ => rfl) hi u)
  simp only [List.getElem?_map] at hface
  refine ⟨?_, ?_, fun j hj => ?_, ?_, rfl⟩
  · have hlegal := (H.set_iff ht hk).2 hfits
    exact validate_eq_none_iff.2 (hlegal.congr
      (TermIndex.map_splice_singleton (fun _ _ _ => rfl) (fun _ _ => rfl) hi u))
  · refine (TermIndex.map_splice_singleton (fun _ _ _ => rfl) (fun _ _ => rfl) hi u).trans ?_
    rw [List.map_set, hk]
    obtain ⟨hj, rfl⟩ := List.getElem?_eq_some_iff.1 ht
    rw [← List.getElem_map (f := Token.kind) (h := by simpa using hj), List.set_getElem_self]
  · refine (hface j).trans ?_
    rw [List.getElem?_set_ne (Ne.symm hj)]
  · have h := hface i
    rw [List.getElem?_set_self hi] at h
    obtain ⟨v, hv, hface⟩ := Option.map_eq_some_iff.1 h
    simp only [Token.face, Prod.mk.injEq] at hface
    refine ⟨v, hv, ?_⟩
    rw [Token.text, hk] at htext
    rw [hface.1, hface.2.1, hk]
    split <;> rename_i hf
    · rwa [if_pos hf, if_pos hf] at htext
    · rwa [if_neg hf, if_neg hf] at htext

/-- **Replacing a term** of an editor without an error succeeds exactly if the term admits the text.
Then the editor stays without an error, and only this term says something else. Otherwise an error
may be raised, and nothing else happens. -/
theorem replaceTerm_cases (H : ed.validate = none) (i : Nat) (text : String) :
    (∃ t, ed.terms.tokens[i]? = some t ∧ t.Admits text) ∧
      (∃ after, ed.replaceTerm i text = (.ok ⟨i, 1, 1⟩, after) ∧ Replaced ed i text after) ∨
    (¬ ∃ t, ed.terms.tokens[i]? = some t ∧ t.Admits text) ∧
      ∃ error shown, ed.replaceTerm i text = (.error error, { ed with syntaxError := shown }) := by
  rw [replaceTerm]
  cases ht : ed.terms.tokens[i]? with
  | none => exact .inr ⟨by simp, _, _, rfl⟩
  | some t =>
    have hv := validateTerm_eq_none_iff H ht text
    dsimp only
    cases he : ed.validateTerm i t.kind text with
    | none =>
      have hi := (List.getElem?_eq_some_iff.1 ht).1
      refine .inl ⟨⟨t, rfl, hv.1 he⟩, _, ?_, replaced_splice H ht (hv.1 he)⟩
      rw [← TermIndex.change_splice_singleton hi]
      rfl
    | some error =>
      refine .inr ⟨?_, _, _, rfl⟩
      rintro ⟨u, hu, ha⟩
      cases hu
      rw [hv.2 ha] at he
      cases he

theorem replaceTerm_cases_nested :
    let ed := ({} : Editor).typeText "!(a|b=)" 0
    ed.validate = none ∧
      (∃ after, ed.replaceTerm 3 "&" = (.ok ⟨3, 1, 1⟩, after) ∧ Replaced ed 3 "&" after) ∧
      ∃ error shown,
        ed.replaceTerm 3 "!" = (.error error, { ed with syntaxError := shown }) := by
  intro ed
  have H : ed.validate = none := by decide +kernel
  obtain ⟨t, ht, hw⟩ : ∃ t, ed.terms.tokens[3]? = some t ∧ t.word = (.logical, "|") :=
    Option.map_eq_some_iff.1 (by decide +kernel)
  obtain ⟨hk, hr⟩ := Prod.mk.inj hw
  refine ⟨H, ?_, ?_⟩
  · rcases replaceTerm_cases H 3 "&" with ⟨-, h⟩ | ⟨hn, -⟩
    · exact h
    · exact absurd ⟨t, ht, by simp [Token.Admits, hk, hr]⟩ hn
  · rcases replaceTerm_cases H 3 "!" with ⟨⟨u, hu, ha⟩, -⟩ | ⟨-, h⟩
    · rw [ht] at hu
      cases hu
      simp [Token.Admits, hk, hr] at ha
    · exact h

end Editor
end FilterQuery
