import FilterQuery.Proofs.Editor.Submission

/-!
What an editor remembers of its terms, the open groups and the first error, is what the terms give at
any time. The error is found in one pass: the expectation and the depth that it carries along are
those of the terms before each one.
-/

namespace FilterQuery

namespace Editor

variable {ed : Editor}

/-! ### One pass over the terms -/

/-- The first error that is found when each term is checked at its own index. -/
def firstTermError (ed : Editor) : Option String :=
  ed.terms.tokens.zipIdx.findSome? fun (t, i) => ed.validateTerm i t.kind t.text

theorem validateTerm_length {before after : List Token} (h : ed.terms.tokens = before ++ after)
    (kind : TokenKind) (text : String) : ed.validateTerm before.length kind text =
      (Expect.after before).check ed.messages (FilterQuery.openGroups before) kind text := by
  rw [validateTerm, h, List.take_left]

/-- What the pass carries along to a term is what is expected behind the terms before it. -/
theorem firstError_after {before after : List Token} (h : ed.terms.tokens = before ++ after) :
    (Expect.after before).firstError ed.messages (FilterQuery.openGroups before) after =
      (after.zipIdx before.length).findSome? fun (t, i) => ed.validateTerm i t.kind t.text := by
  -- One term moves over from `after` to `before`, and the index with it.
  induction after generalizing before with
  | nil => rfl
  | cons t ts ih =>
    have hopen : FilterQuery.openGroups (before ++ [t]) =
        depthAfter (FilterQuery.openGroups before) t.kind := List.foldl_append
    have ih := @ih (before ++ [t]) (by rw [h, List.append_assoc]; rfl)
    rw [Expect.after_append_singleton, hopen, List.length_append, List.length_singleton] at ih
    simp only [Expect.firstError, List.zipIdx_cons, List.findSome?_cons, validateTerm_length h, ih]
    cases (Expect.after before).check ed.messages (FilterQuery.openGroups before) t.kind t.text with
    | none => rfl
    | some error => rfl

theorem validate_eq_firstTermError (ed : Editor) : ed.validate = ed.firstTermError :=
  firstError_after (List.nil_append _).symm

/-! ### Editors in use -/

/-- Editors that can come about: newly made ones, taken through anything that can be done with an
editor. A source that fails to answer is a `poll` with a `receive` of the failure. -/
inductive Reached : Editor → Prop where
  | new : Reached {}
  | ofRule (r : Rule) : Reached (ofRule r)
  | ofQuery {query : String} {ed : Editor} : ofQuery query = .ok ed → Reached ed
  | withDebounce {ed : Editor} (debounce : Nat) : Reached ed → Reached (ed.withDebounce debounce)
  | withMessages {ed : Editor} (messages : Messages) : Reached ed →
    Reached (ed.withMessages messages)
  | action {ed : Editor} (a : Action) : Reached ed → Reached (a.apply ed)
  | typeText {ed : Editor} (text : String) (now : Nat) : Reached ed →
    Reached (ed.typeText text now)
  | submit {ed : Editor} : Reached ed → Reached ed.submit.2
  | fetch {ed : Editor} (source : SuggestionRequest → SuggestionResponse) (now : Nat) :
    Reached ed → Reached (ed.fetch source now).2
  | takeChanges {ed : Editor} : Reached ed → Reached ed.takeChanges.2

theorem Reached.run (H : ed.Reached) (actions : List Action) : (ed.run actions).Reached :=
  run_of_apply H (fun _ a _ h => h.action a) actions List.prefix_rfl

theorem fetch_eq_run (ed : Editor) (source : SuggestionRequest → SuggestionResponse) (now : Nat) :
    ∃ actions, (ed.fetch source now).2 = ed.run actions := by
  rw [fetch]
  cases hp : ed.poll? now with
  | none => exact ⟨[], rfl⟩
  | some p =>
    obtain ⟨version, request, sent⟩ := p
    refine ⟨[.poll now, .receive version (.response (source request))], ?_⟩
    have hsent : Action.apply ed (.poll now) = sent := by rw [Action.apply, hp]; rfl
    rw [Editor.run, List.foldl_cons, hsent]
    rfl

theorem typeText_eq_run (ed : Editor) (text : String) (now : Nat) :
    ed.typeText text now = ed.run (text.toList.map (.typeChar · now)) := by
  rw [Editor.run, List.foldl_map]
  rfl

theorem exists_of_ofQuery {query : String} (h : ofQuery query = .ok ed) : ∃ r, ed = ofRule r := by
  rw [Editor.ofQuery] at h
  cases hr : Rule.parse query with
  | error e =>
    rw [hr] at h
    cases h
  | ok r =>
    rw [hr] at h
    exact ⟨r, (Except.ok.inj h).symm⟩

theorem Reached.synced (H : ed.Reached) : ed.Synced := by
  induction H with
  | new => exact Opened.new.synced
  | ofRule r => exact (Opened.ofRule r).synced
  | ofQuery h =>
    obtain ⟨r, rfl⟩ := exists_of_ofQuery h
    exact (Opened.ofRule r).synced
  | withDebounce | takeChanges => rename_i ih; exact ⟨ih.openGroups_eq, ih.termsError_eq⟩
  | withMessages => exact ⟨rfl, rfl⟩
  | action a _ ih => exact ih.apply a
  | typeText text now _ ih =>
    rw [typeText_eq_run]
    exact ih.run _
  | submit _ ih =>
    rw [submit_snd]
    exact ih.apply .commit
  | @fetch ed source now _ ih =>
    obtain ⟨actions, hrun⟩ := ed.fetch_eq_run source now
    rw [hrun]
    exact ih.run actions

/-- **What an editor remembers** is up to date whatever was done with it, and the check in one pass
finds the same error as checking one term after the other, for all terms whatsoever. -/
theorem synced_of_reached (H : ed.Reached) :
    (ed.openGroups = FilterQuery.openGroups ed.terms.tokens ∧ ed.termsError = ed.validate) ∧
      ∀ ed' : Editor, ed'.validate = ed'.firstTermError :=
  ⟨⟨H.synced.openGroups_eq, H.synced.termsError_eq⟩, validate_eq_firstTermError⟩

/-- A closing parenthesis that nothing opened is passed over, and an open group stays open. -/
theorem synced_of_reached_unbalanced :
    let ed := (run {} [.insert 0 (.symbol .groupClose ")"), .insert 1 (.symbol .groupOpen "("),
      .typeChar 'a' 0]).submit.2
    ed.Reached ∧ ed.query = ")(a" ∧ ed.openGroups = 1 ∧ ed.termsError = ed.firstTermError := by
  intro ed
  have H : ed.Reached := (Reached.new.run _).submit
  obtain ⟨⟨hopen, herror⟩, hpass⟩ := synced_of_reached H
  have hdepth : FilterQuery.openGroups ed.terms.tokens = 1 := by decide +kernel
  exact ⟨H, by decide +kernel, hopen.trans hdepth, herror.trans (hpass ed)⟩

end Editor
end FilterQuery
