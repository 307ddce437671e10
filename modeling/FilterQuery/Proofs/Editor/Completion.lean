import FilterQuery.Proofs.Editor.Replacement
import FilterQuery.Proofs.Editor.Request

/-!
Suggestions that are taken over. Their text goes the way of a typed fragment, so text that begins
with a delimiter is refused, although the same text is legal as the next term and may replace one.
-/

namespace FilterQuery.Editor

open Text

variable {ed : Editor} {kind : TokenKind} {s : Suggestion}

/-- A completed suggestion. The fragment is gone, and one term that says its text comes last. -/
structure Completed (ed : Editor) (kind : TokenKind) (text : String) (after : Editor) : Prop where
  fragment_eq : after.fragment = ""
  term : ∃ t : Token, t.kind = kind ∧ Percent.decode t.raw = text ∧
    after.terms.tokens.map Token.face = ed.terms.tokens.map Token.face ++ [t.face]

theorem completed_pushTerm (ed : Editor) (kind : TokenKind) (text : String) :
    Completed ed kind text (ed.pushTerm (.freeText kind text)) := by
  refine ⟨rfl, .freeText kind text, rfl, Percent.decode_encode text, ?_⟩
  refine (TermIndex.map_splice (fun _ _ _ => rfl) (fun _ _ => rfl) _ _ _ _).trans ?_
  simp [TermIndex.size]

/-- Where free text is expected, a term may come next whatever it says, if it says something. -/
theorem validateTerm_size_eq_none (hf : ed.expect.freeText? = some kind) {text : String}
    (ht : trimmed text ≠ "") : ed.validateTerm ed.terms.size kind text = none := by
  have hfits (depth : Nat) : (Token.typed kind text).Fits ed.expect depth := by
    rw [Token.Fits, Token.kind_typed, Token.text_typed]
    cases he : ed.expect <;> rw [he] at hf <;> cases hf
    · simpa [TokenKind.isFreeText, trimmed_trimmed] using ht
    · rfl
  rw [validateTerm, TermIndex.size, List.take_length]
  exact Token.check_typed.2 (hfits _)

/-- A commit where free text is expected pushes the fragment, unless that is in error. -/
theorem commit_of_freeText? (ed : Editor) (hf : ed.expect.freeText? = some kind)
    (ht : trimmed ed.fragment ≠ "") :
    (ed.fragmentError = none ∧
      ed.commit = (true, ed.pushTerm (.freeText kind (trimmed ed.fragment)))) ∨
    (∃ error, ed.fragmentError = some error ∧ ed.commit = (false, ed.refresh)) := by
  have hsome : ed.expect.freeText?.isSome = true := Option.isSome_of_eq_some hf
  rw [commit, if_neg (mt trimmed_eq_empty_iff.2 ht), if_pos hsome, commitFreeText?]
  simp only [hf]
  cases he : ed.fragmentError with
  | none => exact .inl ⟨rfl, rfl⟩
  | some error => exact .inr ⟨error, rfl, rfl⟩

/-- **A suggestion** with some text, where a column or a value is expected, becomes that term unless
its text begins with a delimiter. Then it is refused with an error, though it is legal here. -/
theorem complete_cases (hf : ed.expect.freeText? = some kind) (ht : trimmed s.search ≠ "") :
    ed.validateTerm ed.terms.size kind s.search = none ∧
      ((∀ c ∈ s.search.toList.head?, c ∉ delimiters) ∧
        (∃ after, ed.complete s = (true, after) ∧
          Completed ed kind (trimmed s.search) after) ∨
      (∃ c ∈ s.search.toList.head?, c ∈ delimiters) ∧ ∃ error,
        ed.complete s = (false, { ed with fragment := s.search, syntaxError := some error })) := by
  refine ⟨validateTerm_size_eq_none hf ht, ?_⟩
  let typed : Editor := { ed with fragment := s.search }
  have hhead : typed.fragmentError = none ↔ ∀ c ∈ s.search.toList.head?, c ∉ delimiters :=
    fragmentError_eq_none_iff (Option.isSome_of_eq_some hf)
  rcases commit_of_freeText? typed hf ht with ⟨he, hc⟩ | ⟨error, he, hc⟩
  · exact .inl ⟨hhead.1 he, _, hc, completed_pushTerm ed kind (trimmed s.search)⟩
  · have hhead := mt hhead.2 (he ▸ Option.some_ne_none error)
    push Not at hhead
    refine .inr ⟨hhead, ed.termsError.getD error, hc.trans (congrArg (Prod.mk false) ?_)⟩
    rw [refresh, he]
    cases ed.termsError <;> rfl

theorem complete_cases_value :
    let ed := ({} : Editor).typeText "é=" 0
    ed.expect.freeText? = some .value ∧
      (∃ after, ed.complete (.ofText "50% (ü) ") = (true, after) ∧
        Completed ed .value "50% (ü)" after) ∧
      ∃ error, ed.complete (.ofText ">5") =
        (false, { ed with fragment := ">5", syntaxError := some error }) := by
  intro ed
  have hf : ed.expect.freeText? = some .value := by decide +kernel
  refine ⟨hf, ?_, ?_⟩
  · obtain ⟨-, ⟨-, h⟩ | ⟨hd, -⟩⟩ := complete_cases (s := .ofText "50% (ü) ") hf (by decide)
    · exact h
    · simp [Suggestion.ofText, delimiters] at hd
  · obtain ⟨-, ⟨hd, -⟩ | ⟨-, h⟩⟩ := complete_cases (s := .ofText ">5") hf (by decide)
    · simp [Suggestion.ofText, delimiters] at hd
    · exact h

/-- Text is refused that may replace a term, and that is taken over with a blank in front. -/
theorem complete_delimiter :
    let ed : Editor := {}
    let column := ed.typeText "a&" 0
    ed.expect.freeText? = some .column ∧ trimmed "(beta)" = "(beta)" ∧
      (ed.complete (.ofText "(beta)")).1 = false ∧
      (ed.complete (.ofText "(beta)")).2.terms = ed.terms ∧
      (ed.complete (.ofText " (beta)")).1 = true ∧
      (ed.complete (.ofText " (beta)")).2.query = "%28beta%29" ∧
      (column.replaceTerm 0 "(beta)").2.query = "%28beta%29&" := by
  decide +kernel

end FilterQuery.Editor
