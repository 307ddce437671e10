import FilterQuery.Proofs.Editor.Cache
import FilterQuery.Proofs.Editor.Request
import FilterQuery.Proofs.Term.Change

/-!
The changes that an editor records account for everything that was done to its terms. Replayed in
order they lead from the terms before an action to the terms behind it, so no term comes or goes
without a record, whether the changes are taken out in between or not.
-/

namespace FilterQuery

namespace Editor

open Change (Replay)

variable {ed ed' : Editor}

/-! ### What is recorded -/

/-- The changes that are recorded on the way from one editor to another lead from its terms to
those of the other. -/
def Accounts (ed ed' : Editor) : Prop :=
  ∃ cs, ed'.changes = ed.changes ++ cs ∧ Replay cs ed.terms.tokens ed'.terms.tokens

theorem Accounts.of_eq (hc : ed'.changes = ed.changes) (ht : ed'.terms = ed.terms) :
    ed.Accounts ed' :=
  ⟨[], by rw [hc, List.append_nil], by rw [ht]; exact .nil⟩

theorem Accounts.trans {ed'' : Editor} (H : ed.Accounts ed') (H' : ed'.Accounts ed'') :
    ed.Accounts ed'' := by
  obtain ⟨cs, hc, hr⟩ := H
  obtain ⟨ds, hd, hs⟩ := H'
  exact ⟨cs ++ ds, by rw [hd, hc, List.append_assoc], hr.append hs⟩

theorem Accounts.replay (H : ed.Accounts ed') {taken : List Change} {ts : List Token}
    (h : Replay (taken ++ ed.changes) ts ed.terms.tokens) :
    Replay (taken ++ ed'.changes) ts ed'.terms.tokens := by
  obtain ⟨cs, hc, hr⟩ := H
  rw [hc, ← List.append_assoc]
  exact h.append hr

theorem Step.accounts (h : Step ed ed') : ed.Accounts ed' := by
  cases h with
  | fragment | rest => exact .of_eq rfl rfl
  | terms _ start stop added => exact ⟨_, rfl, .single (ed.terms.leads_splice start stop added)⟩

theorem accounts_of_steps (h : Steps ed ed') : ed.Accounts ed' := by
  induction h with
  | refl => exact .of_eq rfl rfl
  | tail _ hs ih => exact ih.trans hs.accounts

theorem Action.accounts (a : Action) (ed : Editor) : ed.Accounts (a.apply ed) := by
  by_cases ha : a.Fails ed
  · obtain ⟨error, he⟩ := a.apply_of_fails ha
    rw [he]
    exact .of_eq rfl rfl
  · exact accounts_of_steps (a.steps ha)

theorem accounts_run (ed : Editor) (actions : List Action) : ed.Accounts (ed.run actions) :=
  run_of_apply (.of_eq rfl rfl) (fun as a _ h => h.trans (a.accounts (ed.run as))) actions
    List.prefix_rfl

/-! ### Changes in place -/

/-- A change of the terms in place can be made: the terms that it is about are there, and text that
replaces one is legal. -/
def Action.Applies (ed : Editor) : Action → Prop
  | insert .. | removeRange .. => True
  | remove i => i < ed.terms.size
  | replaceTerm i text => ∃ t, ed.terms.tokens[i]? = some t ∧ ed.validateTerm i t.kind text = none
  | wrapInGroup start stop => start < stop ∧ stop ≤ ed.terms.size
  | negateGroup i => ∃ t, ed.terms.tokens[i]? = some t ∧ t.kind = .groupOpen
  | _ => False

/-- A change in place replaces one range of terms if it can be made, and else leaves everything but
the error as it is. -/
theorem Action.edit_cases {a : Action} (h : a.editsTerms = true) (ed : Editor) :
    (a.Applies ed ∧ ∃ start stop added, a.apply ed =
      ed.record (ed.terms.splice start stop added).2.1 (ed.terms.splice start stop added).2.2) ∨
    (¬ a.Applies ed ∧ ∃ error, a.apply ed = { ed with syntaxError := error }) := by
  cases a with
  | insert i t => exact .inl ⟨trivial, i, i, [t], rfl⟩
  | removeRange start stop => exact .inl ⟨trivial, start, stop, [], rfl⟩
  | remove i =>
    rw [Applies, apply, remove?, TermIndex.remove?]
    cases ht : ed.terms.tokens[i]? with
    | none => exact .inr ⟨by simpa [TermIndex.size] using ht, ed.syntaxError, rfl⟩
    | some t => exact .inl ⟨(List.getElem?_eq_some_iff.1 ht).1, i, i + 1, [], rfl⟩
  | replaceTerm i text =>
    rw [Applies, apply, Editor.replaceTerm]
    split
    · rename_i ht
      exact .inr ⟨by simp [ht], ed.syntaxError, rfl⟩
    · rename_i t ht
      split
      · rename_i error he
        exact .inr ⟨by simp [ht, he], some error, rfl⟩
      · rename_i he
        exact .inl ⟨⟨t, ht, he⟩, i, i + 1, _, rfl⟩
  | wrapInGroup start stop =>
    rw [Applies, apply, wrapInGroup?]
    split
    · rename_i hn
      exact .inr ⟨by simp at hn; omega, ed.syntaxError, rfl⟩
    · rename_i hn
      exact .inl ⟨by simp at hn; omega, start, stop, _, rfl⟩
  | negateGroup i =>
    rw [Applies, apply, negateGroup?]
    split
    · rename_i ht
      refine .inl ⟨⟨_, ht, rfl⟩, ?_⟩
      cases negatedBefore ed.terms.tokens i with
      | false => exact ⟨i, i, [_], rfl⟩
      | true => exact ⟨i - 1, i, [], rfl⟩
    · rename_i hn
      refine .inr ⟨?_, ed.syntaxError, rfl⟩
      rintro ⟨⟨_, _, _, _, _, _⟩, ht, rfl⟩
      exact hn _ _ _ _ _ ht
  | _ => cases h

/-- It is recorded as one change if it is made, and not at all if it is not. -/
theorem Action.accounts_edit {a : Action} (h : a.editsTerms = true) (ed : Editor) :
    (a.Applies ed → ∃ c : Change, (a.apply ed).changes = ed.changes ++ [c]) ∧
      (¬ a.Applies ed → (a.apply ed).changes = ed.changes) := by
  rcases a.edit_cases h ed with ⟨ha, start, stop, added, he⟩ | ⟨ha, error, he⟩
  · rw [he]
    exact ⟨fun _ => ⟨_, rfl⟩, fun hn => absurd ha hn⟩
  · rw [he]
    exact ⟨fun h => absurd h ha, fun _ => rfl⟩

/-! ### Editors in use -/

/-- Editors in use, with the terms that they had at first and the changes that have been taken out
of them since. -/
inductive History : List Token → List Change → Editor → Prop where
  | opened {ed : Editor} : ed.Opened → History ed.terms.tokens [] ed
  | action {ts : List Token} {taken : List Change} {ed : Editor} (a : Action) :
    History ts taken ed → History ts taken (a.apply ed)
  | typeText {ts : List Token} {taken : List Change} {ed : Editor} (text : String) (now : Nat) :
    History ts taken ed → History ts taken (ed.typeText text now)
  | submit {ts : List Token} {taken : List Change} {ed : Editor} :
    History ts taken ed → History ts taken ed.submit.2
  | fetch {ts : List Token} {taken : List Change} {ed : Editor}
    (source : SuggestionRequest → SuggestionResponse) (now : Nat) :
    History ts taken ed → History ts taken (ed.fetch source now).2
  | withDebounce {ts : List Token} {taken : List Change} {ed : Editor} (debounce : Nat) :
    History ts taken ed → History ts taken (ed.withDebounce debounce)
  | withMessages {ts : List Token} {taken : List Change} {ed : Editor} (messages : Messages) :
    History ts taken ed → History ts taken (ed.withMessages messages)
  | takeChanges {ts : List Token} {taken : List Change} {ed : Editor} :
    History ts taken ed → History ts (taken ++ ed.takeChanges.1) ed.takeChanges.2

theorem Opened.changes_eq (h : ed.Opened) : ed.changes = [] := by
  induction h with
  | new | ofRule => rfl
  | withDebounce _ _ ih | withMessages _ _ ih => exact ih

theorem History.run {ts : List Token} {taken : List Change} (H : History ts taken ed)
    (actions : List Action) : History ts taken (ed.run actions) :=
  run_of_apply H (fun _ a _ h => h.action a) actions List.prefix_rfl

theorem Reached.history (H : ed.Reached) : ∃ ts taken, History ts taken ed := by
  induction H with
  | new => exact ⟨_, _, .opened .new⟩
  | ofRule r => exact ⟨_, _, .opened (.ofRule r)⟩
  | ofQuery h =>
    obtain ⟨r, rfl⟩ := exists_of_ofQuery h
    exact ⟨_, _, .opened (.ofRule r)⟩
  | withDebounce debounce _ ih => exact ⟨_, _, ih.choose_spec.choose_spec.withDebounce debounce⟩
  | withMessages messages _ ih => exact ⟨_, _, ih.choose_spec.choose_spec.withMessages messages⟩
  | action a _ ih => exact ⟨_, _, ih.choose_spec.choose_spec.action a⟩
  | typeText text now _ ih => exact ⟨_, _, ih.choose_spec.choose_spec.typeText text now⟩
  | submit _ ih => exact ⟨_, _, ih.choose_spec.choose_spec.submit⟩
  | fetch source now _ ih => exact ⟨_, _, ih.choose_spec.choose_spec.fetch source now⟩
  | takeChanges _ ih => exact ⟨_, _, ih.choose_spec.choose_spec.takeChanges⟩

/-- All changes since the beginning, those that have been taken out and those that have not. -/
theorem History.replay {ts : List Token} {taken : List Change} (H : History ts taken ed) :
    Replay (taken ++ ed.changes) ts ed.terms.tokens := by
  induction H with
  | opened h => rw [h.changes_eq]; exact .nil
  | action a _ ih => exact (a.accounts _).replay ih
  | typeText text now _ ih =>
    rw [typeText_eq_run]
    exact (accounts_run _ _).replay ih
  | submit _ ih =>
    rw [submit_snd]
    exact (Action.commit.accounts _).replay ih
  | @fetch _ _ ed source now _ ih =>
    obtain ⟨actions, hrun⟩ := ed.fetch_eq_run source now
    rw [hrun]
    exact (accounts_run _ _).replay ih
  | withDebounce | withMessages => assumption
  | takeChanges _ ih => rwa [Editor.takeChanges, List.append_nil]

/-- **Changes account for the terms.** The changes that an action records lead from the terms before
it to the terms behind it, one change for each change in place that is made and none for one that is
not. All changes since the beginning lead from the terms at first to the terms at present. -/
theorem replay_of_reached (H : ed.Reached) :
    (∀ a : Action, ∃ cs, (a.apply ed).changes = ed.changes ++ cs ∧
      Replay cs ed.terms.tokens (a.apply ed).terms.tokens ∧
      (a.editsTerms = true → (a.Applies ed → cs.length = 1) ∧ (¬ a.Applies ed → cs = []))) ∧
    (∃ ts taken, History ts taken ed) ∧
    ∀ ts taken, History ts taken ed → Replay (taken ++ ed.changes) ts ed.terms.tokens ∧
      ed.terms.size + ((taken ++ ed.changes).map Change.removed).sum =
        ts.length + ((taken ++ ed.changes).map Change.inserted).sum := by
  refine ⟨fun a => ?_, H.history, fun ts taken h => ⟨h.replay, h.replay.length_eq⟩⟩
  obtain ⟨cs, hc, hr⟩ := a.accounts ed
  refine ⟨cs, hc, hr, fun h => ⟨fun ha => ?_, fun ha => ?_⟩⟩
  · obtain ⟨c, he⟩ := (a.accounts_edit h ed).1 ha
    rw [List.append_cancel_left (hc.symm.trans he), List.length_singleton]
  · have he := (a.accounts_edit h ed).2 ha
    exact List.self_eq_append_right.1 (he.symm.trans hc)

/-- Alternatives are put in parentheses, nothing is taken away by a range that is reversed, and the
changes are taken out. One character then commits two terms. -/
theorem replay_of_reached_wrapped :
    let first := ofRule (.chain .any [.test "a" true, .test "b" true])
    let taken := (first.run [.wrapInGroup 0 3, .removeRange 9 2]).takeChanges
    let ed := taken.2.run [.typeChar '&' 0, .typeChar 'c' 0, .typeChar '&' 0]
    ed.Reached ∧ ed.query = "(a|b)&c&" ∧
      taken.1 ++ ed.changes = [⟨0, 3, 5⟩, ⟨2, 0, 0⟩, ⟨5, 0, 1⟩, ⟨6, 0, 1⟩, ⟨7, 0, 1⟩] ∧
      Replay (taken.1 ++ ed.changes) first.terms.tokens ed.terms.tokens ∧ ed.terms.size = 8 := by
  intro first taken ed
  have H : ed.Reached := (((Reached.ofRule _).run _).takeChanges).run _
  have hist : History first.terms.tokens taken.1 ed :=
    ((History.opened (.ofRule _)).run [.wrapInGroup 0 3, .removeRange 9 2]).takeChanges.run _
  have hchanges : taken.1 ++ ed.changes =
      [⟨0, 3, 5⟩, ⟨2, 0, 0⟩, ⟨5, 0, 1⟩, ⟨6, 0, 1⟩, ⟨7, 0, 1⟩] := by decide +kernel
  obtain ⟨hr, hsize⟩ := (replay_of_reached H).2.2 _ _ hist
  have hfirst : first.terms.tokens.length = 3 := by decide +kernel
  rw [hchanges, hfirst] at hsize
  exact ⟨H, by decide +kernel, hchanges, hr, by simpa using hsize⟩

end Editor
end FilterQuery
