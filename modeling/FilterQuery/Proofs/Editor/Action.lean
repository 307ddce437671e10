import FilterQuery.Editor.Terms
import FilterQuery.Editor.Typing
import FilterQuery.Proofs.Text.Trim
import Mathlib.Data.List.Induction
import Mathlib.Logic.Relation

/-!
Editors along a run of actions, and what a commit makes of the fragment: a term that may come next,
nothing where it is blank, or an error.
-/

namespace FilterQuery

namespace Editor

open Text

/-! ### Runs -/

/-- What can be done with an editor once it is open. -/
inductive Action where
  | typeChar (c : Char) (now : Nat)
  | backspace (now : Nat)
  | commit
  | complete (s : Suggestion)
  | blur
  | insert (i : Nat) (t : Token)
  | remove (i : Nat)
  | removeRange (start stop : Nat)
  | replaceTerm (i : Nat) (text : String)
  | wrapInGroup (start stop : Nat)
  | negateGroup (i : Nat)
  | poll (now : Nat)
  | receive (version : Nat) (outcome : Outcome)

/-- The editor behind an action. One that does not apply changes nothing. -/
def Action.apply (ed : Editor) : Action → Editor
  | typeChar c now => ed.typeChar c now
  | backspace now => ed.backspace now
  | commit => ed.commit.2
  | complete s => (ed.complete s).2
  | blur => ed.blur
  | insert i t => (ed.insert i t).2
  | remove i => ((ed.remove? i).map (·.2)).getD ed
  | removeRange start stop => (ed.removeRange start stop).2
  | replaceTerm i text => (ed.replaceTerm i text).2
  | wrapInGroup start stop => ((ed.wrapInGroup? start stop).map (·.2)).getD ed
  | negateGroup i => ((ed.negateGroup? i).map (·.2)).getD ed
  | poll now => ((ed.poll? now).map (·.2.2)).getD ed
  | receive version outcome => (ed.receive version outcome).2

/-- The editor behind a run of actions. -/
def run (ed : Editor) (actions : List Action) : Editor := actions.foldl Action.apply ed

theorem run_append_singleton (ed : Editor) (as : List Action) (a : Action) :
    ed.run (as ++ [a]) = a.apply (ed.run as) := List.foldl_append

/-- What each action of a run preserves holds all along the run. -/
theorem run_of_apply {P : Editor → Prop} {ed : Editor} {actions : List Action} (h : P ed)
    (H : ∀ as a, as ++ [a] <+: actions → P (ed.run as) → P (a.apply (ed.run as))) :
    ∀ as, as <+: actions → P (ed.run as) := by
  intro as
  induction as using List.reverseRecOn with
  | nil => exact fun _ => h
  | append_singleton as a ih =>
    intro ha
    rw [run_append_singleton]
    exact H as a ha (ih ((List.prefix_append as [a]).trans ha))

/-- An editor with which nothing has been done yet. -/
inductive Opened : Editor → Prop where
  | new : Opened {}
  | ofRule (r : Rule) : Opened (ofRule r)
  | withDebounce {ed : Editor} (debounce : Nat) : Opened ed → Opened (ed.withDebounce debounce)
  | withMessages {ed : Editor} (messages : Messages) : Opened ed → Opened (ed.withMessages messages)

/-! ### The pending term -/

/-- The term that the fragment makes if it is committed. -/
def pendingTerm? (ed : Editor) : Option Token :=
  if trimmed ed.fragment = "" then none
  else
    match ed.expect.freeText? with
    | some kind =>
      if ed.fragmentError.isSome then none else some (.freeText kind (trimmed ed.fragment))
    | none =>
      (exactSymbol? (trimmed ed.fragment) (ed.expect.symbols ed.openGroups)).map
        fun (symbol, kind) => .symbol kind symbol

/-- A commit pushes the pending term. Without one it clears a blank fragment and refuses any
other. -/
theorem commit_cases (ed : Editor) :
    (∃ t, ed.pendingTerm? = some t ∧ ed.commit = (true, ed.pushTerm t)) ∨
    (ed.pendingTerm? = none ∧ trimmed ed.fragment = "" ∧
      ed.commit = (true, ({ ed with fragment := "" } : Editor).refresh)) ∨
    (ed.pendingTerm? = none ∧ trimmed ed.fragment ≠ "" ∧ ed.commit = (false, ed.refresh)) := by
  by_cases hb : trimmed ed.fragment = ""
  · exact .inr (.inl ⟨if_pos hb, hb, if_pos (trimmed_eq_empty_iff.1 hb)⟩)
  · rw [pendingTerm?, if_neg hb, commit, if_neg (mt trimmed_eq_empty_iff.2 hb), commitFreeText?]
    cases hf : ed.expect.freeText? with
    | some kind =>
      cases he : ed.fragmentError with
      | none => exact .inl ⟨_, rfl, rfl⟩
      | some error => exact .inr (.inr ⟨rfl, hb, rfl⟩)
    | none =>
      cases hs : exactSymbol? (trimmed ed.fragment) (ed.expect.symbols ed.openGroups) with
      | none => exact .inr (.inr ⟨rfl, hb, rfl⟩)
      | some s => exact .inl ⟨_, rfl, rfl⟩

/-! ### Steps -/

/-- What actions are made of. A replaced fragment and replaced terms bring with them what depends on
them; nothing depends on the rest. -/
inductive Step (ed : Editor) : Editor → Prop where
  | fragment (fragment : String) : Step ed ({ ed with fragment } : Editor).refresh
  | terms (fragment : String) (start stop : Nat) (added : List Token) :
    Step ed (({ ed with fragment } : Editor).record (ed.terms.splice start stop added).2.1
      (ed.terms.splice start stop added).2.2)
  | rest (session : Session) (suggestions : List Suggestion) (fallback : Option Suggestion)
    (notice : Option String) : Step ed { ed with session, suggestions, fallback, notice }

/-- Steps one after another. -/
abbrev Steps : Editor → Editor → Prop := Relation.ReflTransGen Step

/-- What one step preserves is preserved by steps. -/
theorem of_steps {P : Editor → Prop} {ed ed' : Editor}
    (H : ∀ ed ed', Step ed ed' → P ed → P ed') (h : Steps ed ed') (hp : P ed) : P ed' := by
  induction h with
  | refl => exact hp
  | tail _ hs ih => exact H _ _ hs ih

/-- A term is not replaced, as the text is illegal in its place. -/
def Action.Fails (ed : Editor) : Action → Prop
  | replaceTerm i text => ∃ t, ed.terms.tokens[i]? = some t ∧ ed.validateTerm i t.kind text ≠ none
  | _ => False

open Relation (ReflTransGen)

theorem steps_pushTerm (ed : Editor) (t : Token) : Steps ed (ed.pushTerm t) :=
  .tail (.single (.terms "" ed.terms.size ed.terms.size [t])) (.rest _ _ _ _)

theorem steps_extend (ed : Editor) (fragment : String) (now : Nat) :
    Steps ed (ed.extend fragment now) :=
  .tail (.single (.fragment fragment)) (.rest _ _ _ _)

theorem steps_refuse (ed : Editor) (fragment : String) : Steps ed (ed.refuse fragment) :=
  .tail (.single (.fragment fragment)) (.rest ed.session.cancel _ _ _)

theorem steps_beginSymbol (ed : Editor) (fragment : String) (c : Char) (now : Nat) :
    Steps ed (({ ed with fragment } : Editor).beginSymbol c now) := by
  rw [beginSymbol]
  split
  · exact steps_pushTerm ed _
  · exact steps_extend ed _ now
  · exact steps_refuse ed _

theorem steps_beginTerm (ed : Editor) (c : Char) (now : Nat) : Steps ed (ed.beginTerm c now) := by
  rw [beginTerm]
  split
  · exact .refl
  · split
    · exact steps_extend ed _ now
    · exact steps_beginSymbol ed ed.fragment c now

theorem steps_typeChar (ed : Editor) (c : Char) (now : Nat) : Steps ed (ed.typeChar c now) := by
  rw [typeChar]
  split
  · exact steps_beginTerm ed c now
  split
  · rw [continueSymbol]
    split
    · exact steps_pushTerm ed _
    · exact steps_extend ed _ now
    · split
      · exact (steps_pushTerm ed _).trans (steps_beginTerm _ c now)
      · exact steps_refuse ed _
  split
  · split
    · exact steps_beginSymbol ed "" c now
    · rw [endFreeText, commitFreeText?]
      cases ed.expect.freeText? with
      | none => exact .single (.fragment _)
      | some kind =>
        cases ed.fragmentError with
        | none => exact (steps_pushTerm ed _).trans (steps_beginTerm _ c now)
        | some error => exact .single (.fragment _)
  · exact steps_extend ed _ now

theorem steps_backspace (ed : Editor) (now : Nat) : Steps ed (ed.backspace now) := by
  have settle {ed' : Editor} (H : Steps ed ed'.refresh) :
      Steps ed (if ed'.refresh.fragment.isEmpty then ed'.refresh.cancel
        else ed'.refresh.schedule now) := by
    split
    · exact H.tail (.rest _ _ _ _)
    · exact H.tail (.rest _ _ _ _)
  rw [backspace]
  split
  · exact settle (.single (.fragment _))
  · rw [TermIndex.remove?]
    cases ed.terms.tokens[ed.terms.size - 1]? with
    | none => exact .refl
    | some t => exact settle (.single (.terms _ _ _ []))

theorem step_release (ed : Editor) : Step ed ed.cancel.clearSuggestions :=
  .rest ed.session.cancel [] none ed.notice

theorem steps_commit (ed : Editor) (fragment : String) :
    Steps ed ({ ed with fragment } : Editor).commit.2 := by
  rcases commit_cases { ed with fragment } with ⟨t, -, hc⟩ | ⟨-, -, hc⟩ | ⟨-, -, hc⟩
  · rw [hc]
    exact steps_pushTerm ed t
  · rw [hc]
    exact .single (.fragment "")
  · rw [hc]
    exact .single (.fragment fragment)

/-- **What an action does** to an editor is done in steps, unless it raises the error of a term that
is not replaced. -/
theorem Action.steps {a : Action} (h : ¬ a.Fails ed) : Steps ed (a.apply ed) := by
  cases a with
  | typeChar c now => exact steps_typeChar ed c now
  | backspace now => exact steps_backspace ed now
  | commit => exact steps_commit ed ed.fragment
  | complete s => exact steps_commit ed s.search
  | blur => exact (steps_commit ed ed.fragment).tail (step_release ed.commit.2)
  | insert i t => exact .single (.terms _ i i [t])
  | remove i =>
    rw [apply, remove?, TermIndex.remove?]
    cases ed.terms.tokens[i]? with
    | none => exact .refl
    | some t => exact .single (.terms _ i (i + 1) [])
  | removeRange start stop => exact .single (.terms _ start stop [])
  | replaceTerm i text =>
    rw [apply, Editor.replaceTerm]
    split
    · exact .refl
    · rename_i t ht
      split
      · rename_i error he
        exact absurd ⟨t, ht, he ▸ Option.some_ne_none error⟩ h
      · exact .single (.terms _ i (i + 1) _)
  | wrapInGroup start stop =>
    rw [apply, wrapInGroup?]
    split
    · exact .refl
    · exact .single (.terms _ start stop _)
  | negateGroup i =>
    rw [apply, negateGroup?]
    split
    · cases negatedBefore ed.terms.tokens i with
      | false => exact .single (.terms _ i i [_])
      | true => exact .single (.terms _ (i - 1) i [])
    · exact .refl
  | poll now =>
    rw [apply, poll?]
    cases ed.session.poll? now with
    | none => exact .refl
    | some p => exact .single (.rest _ _ _ _)
  | receive version outcome =>
    rw [apply, Editor.receive]
    cases ed.session.complete? version with
    | none => exact .refl
    | some session => cases outcome <;> exact .single (.rest _ _ _ _)

theorem Action.apply_of_fails {a : Action} (h : a.Fails ed) :
    ∃ error, a.apply ed = { ed with syntaxError := some error } := by
  cases a with
  | replaceTerm i text =>
    obtain ⟨t, ht, he⟩ := h
    obtain ⟨error, he⟩ := Option.ne_none_iff_exists'.1 he
    refine ⟨error, ?_⟩
    rw [apply, Editor.replaceTerm, ht]
    simp only [he]
  | _ => exact h.elim

end Editor
end FilterQuery
