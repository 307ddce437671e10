import FilterQuery.Editor.Typing
import FilterQuery.Proofs.Rule.Annotation
import FilterQuery.Proofs.Rule.Depth
import FilterQuery.Proofs.Rule.Terms
import FilterQuery.Proofs.Term.Editing

/-!
Queries that are opened in an editor. The editor holds the canonical text of the query and raises an
error only for a blank column. Without one the canonical text can be submitted as it is, unless it
nests too deep to be read.
-/

namespace FilterQuery

open Text

namespace Editor

variable {ed : Editor}

/-! ### Submitting -/

theorem syntaxError_refresh (h : ed.fragment = "") : ed.refresh.syntaxError = ed.termsError := by
  have hn : ed.fragmentError = none := by
    rw [fragmentError, h]
    rfl
  rw [refresh, hn, Option.or_none]

theorem commit_of_fragment_eq (h : ed.fragment = "") : ed.commit = (true, ed.refresh) := by
  obtain ⟨terms, fragment, syntaxError, session, suggestions, fallback, notice, changes, messages,
    openGroups, termsError⟩ := ed
  obtain rfl : fragment = "" := h
  rfl

theorem submit_invalid (h : ed.fragment = "") {message : String}
    (ht : ed.termsError = some message) : ed.submit.1 = .error (.invalid message) := by
  rw [submit, commit_of_fragment_eq h]
  simp only [syntaxError_refresh h, ht]

theorem submit_ok (h : ed.fragment = "") (ht : ed.termsError = none) {r : Rule}
    (hr : Rule.parse ed.query = .ok r) : ed.submit.1 = .ok r.render := by
  have hq : ed.refresh.query = ed.query := rfl
  rw [submit, commit_of_fragment_eq h]
  simp only [syntaxError_refresh h, ht, hq, hr]

theorem submit_error (h : ed.fragment = "") (ht : ed.termsError = none) {e : SyntaxError}
    (he : Rule.parse ed.query = .error e) : ed.submit.1 = .error (.parse e) := by
  have hq : ed.refresh.query = ed.query := rfl
  rw [submit, commit_of_fragment_eq h]
  simp only [syntaxError_refresh h, ht, hq, he]

/-- An editor that holds the canonical text of a normal rule without an error submits that text, if
it can be read. -/
theorem submit_canonical {r : Rule} (H : r = .empty ∨ r.Normal) (h : ed.fragment = "")
    (ht : ed.termsError = none) (hq : ed.query = r.render) (hm : maxOpen r.render ≤ maxNesting) :
    ed.submit.1 = .ok r.render := by
  obtain ⟨r', hr, hw⟩ := Rule.Normal.render_of_parse_render H hm
  rw [submit_ok h ht (hq ▸ hr), hw]

/-! ### Opening -/

variable (r : Rule)

theorem word_ofRule : (ofRule r).terms.tokens.map Token.word = r.terms.map Token.word :=
  (TermIndex.map_locate fun _ _ _ => rfl).trans (TermIndex.map_pairFrom fun _ _ => rfl)

theorem query_ofRule : (ofRule r).query = r.render :=
  (TermIndex.rawOf_congr (word_ofRule r)).trans r.rawOf_terms

theorem termsError_ofRule : (ofRule r).termsError = none ↔
    ∀ c ∈ r.conditions, trimmed c.column ≠ "" := by
  rw [← r.legal_terms_iff]
  refine validate_eq_none_iff.trans ⟨fun H => ?_, fun H => ?_⟩
  · exact H.congr (word_ofRule r).symm
  · exact H.congr (word_ofRule r)

theorem syntaxError_ofRule : (ofRule r).syntaxError = (ofRule r).termsError :=
  syntaxError_refresh rfl

/-- **Opening a query that is accepted.** The editor holds the canonical text. It raises an error
exactly if a column is blank, and that error is what submitting gives. Otherwise submitting gives
the canonical text, or the refusal to read it where it nests too deep. -/
theorem opened_of_parse {query : String} {r : Rule} (h : Rule.parse query = .ok r) :
    ∃ ed, ofQuery query = .ok ed ∧ ed.query = r.render ∧
      (ed.syntaxError = none ↔ ∀ c ∈ r.conditions, trimmed c.column ≠ "") ∧
      (∀ message, ed.syntaxError = some message → ed.submit.1 = .error (.invalid message)) ∧
      (ed.syntaxError = none → maxOpen r.render ≤ maxNesting → ed.submit.1 = .ok r.render) ∧
      (ed.syntaxError = none → maxNesting < maxOpen r.render →
        ∃ e, ed.submit.1 = .error (.parse e) ∧ e.reason = .nestingTooDeep) := by
  have hq := query_ofRule r
  have hs := syntaxError_ofRule r
  refine ⟨ofRule r, by rw [ofQuery, h]; rfl, hq, ?_, fun message he => ?_, fun he hm => ?_,
    fun he hm => ?_⟩
  · rw [hs]
    exact termsError_ofRule r
  · exact submit_invalid rfl (hs ▸ he)
  · have H : r = .empty ∨ r.Normal := (Rule.derives_of_parse h).imp_right Derives.normal
    exact submit_canonical H rfl (hs ▸ he) hq hm
  · obtain ⟨e, he', hr⟩ := Rule.parse_render_error (Rule.wellFormed_of_parse h) hm
    exact ⟨e, submit_error rfl (hs ▸ he) (hq ▸ he'), hr⟩

theorem opened_of_parse_mended :
    ∃ r ed, Rule.parse "!!(a b>) & | !(c=(1|)" = .ok r ∧
      ofQuery "!!(a b>) & | !(c=(1|)" = .ok ed ∧ ed.query = r.render ∧ ed.syntaxError = none ∧
      ed.submit.1 = .ok r.render := by
  have h : (Rule.parse "!!(a b>) & | !(c=(1|)").toOption.map (fun r =>
      (decide (maxOpen r.render ≤ maxNesting),
        decide (∀ c ∈ r.conditions, trimmed c.column ≠ ""))) = some (true, true) := by
    decide +kernel
  obtain ⟨r, hr, hd⟩ := Option.map_eq_some_iff.1 h
  obtain ⟨hm, hc⟩ := Prod.mk.inj hd
  have hp := Rule.parse_eq_ok_of_toOption hr
  obtain ⟨ed, ho, hq, hs, -, hok, -⟩ := opened_of_parse hp
  have he := hs.2 (of_decide_eq_true hc)
  exact ⟨r, ed, hp, ho, hq, he, hok he (of_decide_eq_true hm)⟩

/-- A column can be blank where it is percent coded, and the canonical text of 33 negations is
refused; neither query can be submitted as it was opened. -/
theorem opened_not_submitted :
    (∃ r ed, Rule.parse "%20=1" = .ok r ∧ ofQuery "%20=1" = .ok ed ∧ ed.query = r.render ∧
      ∃ message, ed.syntaxError = some message ∧ ed.submit.1 = .error (.invalid message)) ∧
    ∃ r ed e, Rule.parse "!!!!!!!!!!!!!!!!!!!!!!!!!!!!!!!!!a=1" = .ok r ∧
      ofQuery "!!!!!!!!!!!!!!!!!!!!!!!!!!!!!!!!!a=1" = .ok ed ∧ ed.query = r.render ∧
      ed.syntaxError = none ∧ ed.submit.1 = .error (.parse e) ∧ e.reason = .nestingTooDeep := by
  constructor
  · have h : (Rule.parse "%20=1").toOption.map (·.conditions.map (trimmed ·.column)) =
        some [""] := by
      decide +kernel
    obtain ⟨r, hr, hc⟩ := Option.map_eq_some_iff.1 h
    have hp := Rule.parse_eq_ok_of_toOption hr
    obtain ⟨c, hmem, hblank⟩ : ∃ c ∈ r.conditions, trimmed c.column = "" :=
      List.mem_map.1 (hc ▸ List.mem_cons_self)
    have hne : (ofRule r).termsError ≠ none := fun he => (termsError_ofRule r).1 he c hmem hblank
    obtain ⟨message, he⟩ := Option.ne_none_iff_exists'.1 hne
    exact ⟨r, ofRule r, hp, by rw [ofQuery, hp]; rfl, query_ofRule r, message,
      (syntaxError_ofRule r).trans he, submit_invalid rfl he⟩
  · have h : (Rule.parse "!!!!!!!!!!!!!!!!!!!!!!!!!!!!!!!!!a=1").toOption.map (fun r =>
        (maxOpen r.render, r.conditions.map (trimmed ·.column))) = some (maxNesting + 1, ["a"]) := by
      decide +kernel
    obtain ⟨r, hr, hd⟩ := Option.map_eq_some_iff.1 h
    obtain ⟨hm, hc⟩ := Prod.mk.inj hd
    have hp := Rule.parse_eq_ok_of_toOption hr
    have he : (ofRule r).termsError = none := by
      refine (termsError_ofRule r).2 fun c hmem => ?_
      have := List.mem_map_of_mem (f := fun c : Condition => trimmed c.column) hmem
      rw [hc, List.mem_singleton] at this
      rw [this]
      decide
    obtain ⟨e, hpe, hreason⟩ := Rule.parse_render_error (Rule.wellFormed_of_parse hp)
      (hm ▸ Nat.lt_succ_self maxNesting)
    exact ⟨r, ofRule r, e, hp, by rw [ofQuery, hp]; rfl, query_ofRule r,
      (syntaxError_ofRule r).trans he, submit_error rfl he (query_ofRule r ▸ hpe), hreason⟩

end Editor
end FilterQuery
