import FilterQuery.Proofs.Editor.Action
import FilterQuery.Proofs.Editor.Typing

/-!
Submitting along a run of actions. The fragment is committed first, and what that leaves decides:
submitting is blocked by illegal terms and by a fragment that is no term. An error that was raised
before blocks nothing by itself, so one that the commit takes back is passed over.
-/

namespace FilterQuery

open Text

/-- Free text is never among the symbols. -/
theorem Expect.isFreeText_of_mem_symbols {e : Expect} {depth : Nat} {s : TermSymbol}
    (h : s ∈ e.symbols depth) : s.2.isFreeText = false := by
  have H : ∀ s ∈ e.symbols depth, s.2.isFreeText = false := by
    refine e.symbols_of (P := fun symbols => ∀ s ∈ symbols, s.2.isFreeText = false) ?_ ?_ depth
    all_goals cases e <;> decide
  exact H s h

/-- A symbol that is spelled out is one that the text begins. -/
theorem matchSymbol_ne_none {text : String} {symbols : List TermSymbol} {s : TermSymbol}
    (h : exactSymbol? text symbols = some s) : matchSymbol text symbols ≠ .none := by
  have hmem : s ∈ symbols.filter fun s => text.toList <+: s.1.toList := by
    have hs : s.1 = text := by simpa using List.find?_some h
    rw [List.mem_filter, hs]
    exact ⟨List.mem_of_find?_eq_some h, by simp⟩
  rw [matchSymbol]
  split
  · rename_i hf
    rw [hf] at hmem
    cases hmem
  · split
    · intro hn
      cases hn
    · intro hn
      cases hn
  · intro hn
    cases hn

namespace Editor

variable {ed ed' : Editor} {t : Token}

/-! ### What depends on the terms and the fragment -/

/-- What depends on the terms alone is up to date. -/
structure Synced (ed : Editor) : Prop where
  openGroups_eq : ed.openGroups = FilterQuery.openGroups ed.terms.tokens
  termsError_eq : ed.termsError = ed.validate

theorem Synced.step (H : ed.Synced) (h : Step ed ed') : ed'.Synced := by
  cases h with
  | fragment => exact ⟨H.openGroups_eq, H.termsError_eq⟩
  | terms => exact ⟨rfl, rfl⟩
  | rest => exact ⟨H.openGroups_eq, H.termsError_eq⟩

theorem Synced.steps (H : ed.Synced) (h : Steps ed ed') : ed'.Synced :=
  of_steps (fun _ _ hs hp => hp.step hs) h H

theorem Synced.apply (H : ed.Synced) (a : Action) : (a.apply ed).Synced := by
  by_cases ha : a.Fails ed
  · obtain ⟨error, he⟩ := a.apply_of_fails ha
    rw [he]
    exact ⟨H.openGroups_eq, H.termsError_eq⟩
  · exact H.steps (a.steps ha)

theorem Opened.synced (h : ed.Opened) : ed.Synced := by
  induction h with
  | new | ofRule | withMessages => exact ⟨rfl, rfl⟩
  | withDebounce _ _ ih => exact ⟨ih.openGroups_eq, ih.termsError_eq⟩

theorem Synced.run (H : ed.Synced) (actions : List Action) : (ed.run actions).Synced :=
  run_of_apply H (fun _ a _ h => h.apply a) actions List.prefix_rfl

/-- The error that is raised is the one of the terms or, if they have none, of the fragment. -/
def Derived (ed : Editor) : Prop := ed.syntaxError = ed.termsError.or ed.fragmentError

theorem Derived.step (H : ed.Derived) (h : Step ed ed') : ed'.Derived := by
  cases h with
  | fragment | terms => rfl
  | rest => exact H

theorem Opened.derived (h : ed.Opened) : ed.Derived := by
  induction h with
  | new | ofRule | withMessages => rfl
  | withDebounce _ _ ih => exact ih

/-- Only a term that is not replaced raises an error of its own. -/
theorem Derived.run (H : ed.Derived) {actions : List Action}
    (h : ∀ as a, as ++ [a] <+: actions → ¬ a.Fails (ed.run as)) : (ed.run actions).Derived := by
  refine run_of_apply H (fun as a ha hd => ?_) actions List.prefix_rfl
  exact of_steps (fun _ _ hs hp => hp.step hs) (a.steps (h as a ha)) hd

/-! ### The fragment -/

/-- The fragment is no term here, and not blank. -/
def Refused (ed : Editor) : Prop := ed.pendingTerm? = none ∧ trimmed ed.fragment ≠ ""

/-- The pending term may stand behind the others. -/
theorem fits_of_pendingTerm? (h : ed.pendingTerm? = some t) : t.Fits ed.expect ed.openGroups := by
  rw [pendingTerm?] at h
  split at h
  · cases h
  rename_i hb
  split at h
  · rename_i kind hk
    split at h
    · cases h
    obtain rfl := Option.some.inj h
    have hfree := Expect.isFreeText_of_freeText? hk
    have htext : (Token.freeText kind (trimmed ed.fragment)).text = trimmed ed.fragment :=
      Token.text_of_raw hfree rfl
    cases he : ed.expect with
    | column =>
      rw [he] at hk
      obtain rfl := Option.some.inj hk
      refine ⟨rfl, ?_⟩
      rw [htext, trimmed_trimmed]
      exact hb
    | value =>
      rw [he] at hk
      obtain rfl := Option.some.inj hk
      exact rfl
    | operator | connective =>
      rw [he] at hk
      cases hk
  · obtain ⟨s, hs, rfl⟩ := Option.map_eq_some_iff.1 h
    obtain ⟨hmem, -⟩ := Expect.exactSymbol?_eq_some_iff.1 hs
    exact (Token.fits_iff_mem_symbols (Expect.isFreeText_of_mem_symbols hmem)).2 hmem

theorem validate_pushTerm (H : ed.Synced) (h : ed.pendingTerm? = some t) :
    (ed.pushTerm t).validate = none ↔ ed.validate = none := by
  have hw : (ed.pushTerm t).terms.tokens.map Token.word =
      (ed.terms.tokens ++ [t]).map Token.word := by
    rw [List.map_append]
    exact TermIndex.map_word_push ..
  have hfit := fits_of_pendingTerm? h
  rw [H.openGroups_eq] at hfit
  rw [validate_eq_none_iff, validate_eq_none_iff]
  refine ⟨fun hl => ?_, fun hl => ?_⟩
  · exact (Legal.append_singleton_iff.1 (hl.congr hw.symm)).1
  · exact (Legal.append_singleton_iff.2 ⟨hl, hfit⟩).congr hw

/-- A fragment in error makes no term, unless it is a symbol with blanks around it. -/
theorem refused_of_fragmentError (h : ed.fragmentError ≠ none)
    (ht : trimmed ed.fragment = ed.fragment) : ed.Refused := by
  have hn : trimmed ed.fragment ≠ "" := by
    rw [ht]
    intro he
    rw [fragmentError, he] at h
    exact h rfl
  refine ⟨?_, hn⟩
  rw [pendingTerm?, if_neg hn]
  split
  · rw [if_pos (Option.isSome_iff_ne_none.2 h)]
  · rename_i hk
    rw [Option.map_eq_none_iff, ht]
    cases hs : exactSymbol? ed.fragment (ed.expect.symbols ed.openGroups) with
    | none => rfl
    | some s =>
      refine absurd ?_ h
      rw [fragmentError]
      split
      · rfl
      · rw [hk, if_neg (by simp)]
        split
        · exact absurd ‹_› (matchSymbol_ne_none hs)
        · rfl

/-! ### Submitting -/

/-- Submitting is blocked by a commit that fails or leaves an error. -/
theorem blocked_iff_commit : (∃ message, ed.submit.1 = .error (.invalid message)) ↔
    ed.commit.1 = false ∨ ed.commit.2.syntaxError ≠ none := by
  rw [submit]
  obtain ⟨done, after⟩ := ed.commit
  cases hs : after.syntaxError with
  | none =>
    cases done with
    | false => simp [hs]
    | true => cases hp : Rule.parse after.query <;> simp [hs, hp]
  | some message => cases done <;> simp [hs]

theorem submit_snd (ed : Editor) : ed.submit.2 = ed.commit.2 := by
  rw [submit]
  obtain ⟨done, after⟩ := ed.commit
  cases hs : after.syntaxError with
  | none =>
    cases done with
    | false => rfl
    | true => cases hp : Rule.parse after.query <;> simp [hs, hp]
  | some message => cases done <;> simp [hs]

/-- Submitting is blocked exactly by illegal terms and by a fragment that is refused. -/
theorem blocked_iff (H : ed.Synced) : (∃ message, ed.submit.1 = .error (.invalid message)) ↔
    ed.validate ≠ none ∨ ed.Refused := by
  rw [blocked_iff_commit, Refused]
  rcases ed.commit_cases with ⟨t, ht, hc⟩ | ⟨ht, hb, hc⟩ | ⟨ht, hb, hc⟩
  · have hsync := H.steps (steps_pushTerm ed t)
    rw [hc, syntaxError_pushTerm, hsync.termsError_eq, ne_eq, validate_pushTerm H ht]
    simp [ht]
  · rw [hc, syntaxError_refresh rfl, ← H.termsError_eq]
    simp [hb]
  · rw [hc]
    simp [ht, hb]

theorem terms_submit (ed : Editor) : ed.submit.2.terms =
    match ed.pendingTerm? with
    | none => ed.terms
    | some t => (ed.terms.push t).2 := by
  rw [submit_snd]
  rcases ed.commit_cases with ⟨t, ht, hc⟩ | ⟨ht, -, hc⟩ | ⟨ht, -, hc⟩
  · rw [hc, ht]
    rfl
  · rw [hc, ht]
    rfl
  · rw [hc, ht]
    rfl

/-- **Submitting along a run.** It is blocked exactly if the terms are illegal or the fragment is
refused, and pushes the pending term first if there is one. An error that is raised means one of the
two, unless it comes from a term that is not replaced, or from blanks around the fragment. -/
theorem submit_of_run (h : ed.Opened) (actions : List Action) :
    ((∃ message, (ed.run actions).submit.1 = .error (.invalid message)) ↔
      (ed.run actions).validate ≠ none ∨ (ed.run actions).Refused) ∧
    ((ed.run actions).submit.2.terms =
      match (ed.run actions).pendingTerm? with
      | none => (ed.run actions).terms
      | some t => ((ed.run actions).terms.push t).2) ∧
    ((∀ as a, as ++ [a] <+: actions → ¬ a.Fails (ed.run as)) → (ed.run actions).Derived) ∧
    ((ed.run actions).Derived → trimmed (ed.run actions).fragment = (ed.run actions).fragment →
      (ed.run actions).syntaxError ≠ none →
      (ed.run actions).validate ≠ none ∨ (ed.run actions).Refused) := by
  have H := h.synced.run actions
  refine ⟨blocked_iff H, terms_submit _, h.derived.run, fun hd ht he => ?_⟩
  rw [hd, ne_eq, Option.or_eq_none_iff, not_and_or, H.termsError_eq] at he
  exact he.imp_right fun hf => refused_of_fragmentError hf ht

/-- Text behind a column that is no operator. -/
theorem submit_of_run_refused :
    let after := run {} [.typeChar 'a' 0, .commit, .typeChar 'x' 0]
    Opened {} ∧ after.syntaxError ≠ none ∧
      (∃ message, after.submit.1 = .error (.invalid message)) ∧
      after.submit.2.terms = after.terms := by
  intro after
  have he : after.syntaxError ≠ none := by decide +kernel
  have hp : after.pendingTerm? = none := by decide +kernel
  obtain ⟨H, ht, hd, hr⟩ := submit_of_run .new [.typeChar 'a' 0, .commit, .typeChar 'x' 0]
  refine ⟨.new, he, H.2 (hr (hd ?_) (by decide +kernel) he), ?_⟩
  · intro as a ha hf
    have hmem : a ∈ _ := ha.subset (List.mem_append_right _ List.mem_cons_self)
    simp only [List.mem_cons, List.not_mem_nil, or_false] at hmem
    rcases hmem with rfl | rfl | rfl <;> exact hf
  · rw [show (run {} _).pendingTerm? = none from hp] at ht
    exact ht

/-- An error that is raised does not block submitting if the commit takes it back: the error of a
term that is not replaced, and that of a parenthesis with a blank behind it. Illegal terms block
submitting, but a pending term is pushed all the same. -/
theorem submit_unblocked :
    let unreplaced := run {} [.typeChar 'a' 0, .commit, .replaceTerm 0 " "]
    let padded := run {} [.typeChar 'a' 0, .commit, .typeChar ')' 0, .typeChar ' ' 0,
      .insert 0 (.symbol .groupOpen "(")]
    let illegal := run {} [.typeChar 'a' 0, .commit, .typeChar '=' 0, .remove 0, .typeChar '1' 0]
    (unreplaced.syntaxError ≠ none ∧ unreplaced.submit.1.toOption = some "a") ∧
      (padded.syntaxError ≠ none ∧ padded.submit.1.toOption = some "a" ∧
        padded.submit.2.query = "(a)") ∧
      illegal.syntaxError ≠ none ∧ illegal.submit.1.toOption = none ∧
        illegal.query = "=" ∧ illegal.submit.2.query = "=1" := by
  decide +kernel

end Editor
end FilterQuery
