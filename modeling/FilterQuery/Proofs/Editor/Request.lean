import FilterQuery.Proofs.Editor.Action
import FilterQuery.Proofs.Suggestion.Session
import FilterQuery.Proofs.Term.Symbol

/-!
Whether the request for suggestions that an editor holds is about what the editor shows. It is when
it is scheduled. It stays so until an action changes the fragment or the terms without a word to the
session: a change of terms, a suggestion that is no term here, or a delimiter behind text that begins
with one.
-/

namespace FilterQuery

open Text

namespace Session

/-- The request that waits or is in flight. -/
def request? (s : Session) : Option SuggestionRequest :=
  match s.state with
  | .idle => none
  | .debouncing _ request | .inFlight _ request => some request

variable {s t : Session} {request : SuggestionRequest} {version now : Nat}

@[simp] theorem request?_cancel (s : Session) : s.cancel.request? = none := by
  obtain ⟨active, -, hc⟩ := s.cancel_eq
  rw [hc]
  rfl

theorem request?_of_poll? (h : s.poll? now = some (version, request, t)) :
    t.request? = s.request? := by
  obtain ⟨due, hs, -, rfl, rfl⟩ := poll?_eq_some_iff.1 h
  rw [request?, request?, hs]

theorem request?_of_complete? (h : s.complete? version = some t) : t.request? = none := by
  obtain ⟨request, -, -, rfl⟩ := complete?_eq_some_iff.1 h
  rfl

end Session

namespace Editor

variable {ed ed' : Editor} {c : Char} {now : Nat}

/-! ### What suggestions are asked for -/

/-- The kind of the next term, and the column that a value is compared with. -/
def place (ed : Editor) : TokenKind × Option String :=
  (ed.suggestionRequest.kind, ed.suggestionRequest.column)

/-- The request that is held, if any, is the one of the fragment and the terms at present. -/
def Current (ed : Editor) : Prop := ∀ request ∈ ed.session.request?, request = ed.suggestionRequest

instance (ed : Editor) : Decidable ed.Current :=
  inferInstanceAs (Decidable (∀ request ∈ ed.session.request?, request = ed.suggestionRequest))

theorem suggestionRequest_eq_iff : ed'.suggestionRequest = ed.suggestionRequest ↔
    trimmed ed'.fragment = trimmed ed.fragment ∧ ed'.place = ed.place := by
  rw [place, place, suggestionRequest, suggestionRequest]
  simp only [SuggestionRequest.mk.injEq, Prod.mk.injEq]
  tauto

theorem place_congr (h : ed'.terms = ed.terms) : ed'.place = ed.place := by
  rw [place, place, suggestionRequest, suggestionRequest, expect, expect, h]

theorem current_of_request? (h : ed.session.request? = none) : ed.Current := by
  intro request hr
  rw [h] at hr
  cases hr

/-- What is done without a word to the session leaves the request up to date exactly if it does not
change what suggestions are asked for. -/
theorem Current.iff_of_session (H : ed.Current) (h : ed'.session = ed.session) :
    ed'.Current ↔
      ¬ (ed.session.request? ≠ none ∧ ed'.suggestionRequest ≠ ed.suggestionRequest) := by
  rw [Current, h]
  cases hr : ed.session.request? with
  | none => simp
  | some request =>
    obtain rfl := H request hr
    simp [eq_comm]

theorem Current.iff_of_fragment (H : ed.Current) (h : ed'.session = ed.session)
    (ht : ed'.terms = ed.terms) : ed'.Current ↔
      ¬ (ed.session.request? ≠ none ∧ trimmed ed'.fragment ≠ trimmed ed.fragment) := by
  rw [H.iff_of_session h, ne_eq _ ed.suggestionRequest, suggestionRequest_eq_iff,
    and_iff_left (place_congr ht)]

/-! ### Typing -/

theorem current_schedule (ed : Editor) (now : Nat) : (ed.schedule now).Current := by
  intro request hr
  exact (Option.some.inj hr).symm

theorem current_cancel (ed : Editor) : ed.cancel.Current :=
  current_of_request? (Session.request?_cancel _)

theorem current_pushTerm (ed : Editor) (t : Token) : (ed.pushTerm t).Current :=
  current_of_request? (Session.request?_cancel _)

theorem current_extend (ed : Editor) (fragment : String) (now : Nat) :
    (ed.extend fragment now).Current :=
  current_schedule _ now

theorem current_refuse (ed : Editor) (fragment : String) : (ed.refuse fragment).Current :=
  current_of_request? (Session.request?_cancel _)

theorem current_beginSymbol (ed : Editor) (c : Char) (now : Nat) :
    (ed.beginSymbol c now).Current := by
  rw [beginSymbol]
  split
  · exact current_pushTerm ed _
  · exact current_extend ed _ now
  · exact current_refuse ed _

theorem Current.beginTerm (H : ed.Current) (c : Char) (now : Nat) :
    (ed.beginTerm c now).Current := by
  rw [Editor.beginTerm]
  split
  · exact H
  · split
    · exact current_extend ed _ now
    · exact current_beginSymbol ed c now

theorem current_continueSymbol (ed : Editor) (c : Char) (now : Nat) :
    (ed.continueSymbol c now).Current := by
  rw [continueSymbol]
  split
  · exact current_pushTerm ed _
  · exact current_extend ed _ now
  · split
    · exact (current_pushTerm ed _).beginTerm c now
    · exact current_refuse ed _

/-- Free text is in error exactly if it begins with a delimiter. -/
theorem fragmentError_eq_none_iff (hf : ed.expect.freeText?.isSome = true) :
    ed.fragmentError = none ↔ ∀ d ∈ ed.fragment.toList.head?, d ∉ delimiters := by
  rw [fragmentError]
  cases hc : ed.fragment.toList with
  | nil => simp
  | cons d cs => simp [hf]

theorem not_isBlank_of_mem_delimiters (h : c ∈ delimiters) : isBlank c = false := by
  have H : delimiters.all (fun d => !isBlank d) = true := by decide
  simpa using List.all_eq_true.1 H c h

/-- A delimiter behind free text commits it, unless the text is in error. -/
theorem Current.endFreeText_iff (H : ed.Current) (hf : ed.expect.freeText?.isSome = true)
    (hc : c ∈ delimiters) : (ed.endFreeText c now).Current ↔
      ¬ (ed.session.request? ≠ none ∧ ∃ d ∈ ed.fragment.toList.head?, d ∈ delimiters) := by
  obtain ⟨kind, hk⟩ := Option.isSome_iff_exists.1 hf
  rw [endFreeText, commitFreeText?]
  simp only [hk]
  cases he : ed.fragmentError with
  | none =>
    have hd := (fragmentError_eq_none_iff hf).1 he
    refine iff_of_true ((current_pushTerm ed _).beginTerm c now) ?_
    rintro ⟨-, d, hm, hd'⟩
    exact hd d hm hd'
  | some error =>
    have hd : ∃ d ∈ ed.fragment.toList.head?, d ∈ delimiters := by
      by_contra hn
      have hnone := (fragmentError_eq_none_iff hf).2 fun d hm hd' => hn ⟨d, hm, hd'⟩
      rw [he] at hnone
      cases hnone
    let after : Editor := ({ ed with fragment := ed.fragment.push c } : Editor).refresh
    have ha : after.Current ↔ _ := H.iff_of_fragment rfl rfl
    have hp := trimmed_push_ne ed.fragment (not_isBlank_of_mem_delimiters hc)
    exact ha.trans (not_congr (and_congr_right fun _ => iff_of_true hp hd))

/-- **A typed character** leaves the request out of date exactly if it is a delimiter that is put
behind text which begins with one. -/
theorem Current.typeChar_iff (H : ed.Current) : (ed.typeChar c now).Current ↔
    ¬ (ed.session.request? ≠ none ∧ ed.expect.freeText?.isSome = true ∧ c ∈ delimiters ∧
      ∃ d ∈ ed.fragment.toList.head?, d ∈ delimiters) := by
  rw [typeChar]
  split
  · rename_i hf
    refine iff_of_true (H.beginTerm c now) ?_
    rintro ⟨-, -, -, d, hd, -⟩
    rw [String.isEmpty_iff] at hf
    rw [hf] at hd
    cases hd
  rename_i hn
  split
  · rename_i hf
    refine iff_of_true (current_continueSymbol ed c now) ?_
    rintro ⟨-, hs, -⟩
    rw [Option.isNone_iff_eq_none] at hf
    rw [hf] at hs
    cases hs
  rename_i hf
  have hf : ed.expect.freeText?.isSome = true := by
    rwa [Bool.not_eq_true, Option.isNone_eq_false_iff] at hf
  split
  · rename_i hc
    have hc : c ∈ delimiters := by simpa using hc
    split
    · rename_i hb
      refine iff_of_true (current_beginSymbol _ c now) ?_
      rintro ⟨-, -, -, d, hd, hd'⟩
      have hn := trimmed_ne_empty (List.mem_of_mem_head? hd) (not_isBlank_of_mem_delimiters hd')
      exact hn (trimmed_eq_empty_iff.2 hb)
    · rw [H.endFreeText_iff hf hc]
      simp [hf, hc]
  · rename_i hc
    refine iff_of_true (current_extend ed _ now) ?_
    rintro ⟨-, -, hc', -⟩
    exact hc (by simpa using hc')

/-! ### Other actions -/

theorem Current.backspace (H : ed.Current) (now : Nat) : (ed.backspace now).Current := by
  have settle (ed : Editor) : (if ed.refresh.fragment.isEmpty then ed.refresh.cancel
      else ed.refresh.schedule now).Current := by
    split
    · exact current_cancel ed.refresh
    · exact current_schedule ed.refresh now
  rw [Editor.backspace]
  split
  · exact settle _
  · split
    · exact settle _
    · exact H

theorem Current.commit (H : ed.Current) : ed.commit.2.Current := by
  rcases ed.commit_cases with ⟨t, -, hc⟩ | ⟨-, hb, hc⟩ | ⟨-, -, hc⟩
  · rw [hc]
    exact current_pushTerm ed t
  · rw [hc]
    let after : Editor := ({ ed with fragment := "" } : Editor).refresh
    have ha : after.Current ↔ _ := H.iff_of_fragment rfl rfl
    exact ha.2 fun h => h.2 hb.symm
  · rw [hc]
    exact H

/-- **A suggestion that is taken over** leaves the request out of date exactly if it makes no term
here, and another text than the fragment. -/
theorem Current.complete_iff (H : ed.Current) (s : Suggestion) : (ed.complete s).2.Current ↔
    ¬ (ed.session.request? ≠ none ∧
      ({ ed with fragment := s.search } : Editor).pendingTerm? = none ∧
      trimmed s.search ≠ trimmed ed.fragment) := by
  rw [complete]
  rcases commit_cases { ed with fragment := s.search } with ⟨t, ht, hc⟩ | ⟨ht, hb, hc⟩ | ⟨ht, -, hc⟩
  · rw [hc, ht]
    exact iff_of_true (current_pushTerm _ t) (by simp)
  · let after : Editor := ({ ed with fragment := "" } : Editor).refresh
    have ha : after.Current ↔ _ := H.iff_of_fragment rfl rfl
    rw [hc, ht, eq_self, true_and, show trimmed s.search = trimmed after.fragment from hb]
    exact ha
  · let after : Editor := ({ ed with fragment := s.search } : Editor).refresh
    have ha : after.Current ↔ _ := H.iff_of_fragment rfl rfl
    rw [hc, ht, eq_self, true_and]
    exact ha

theorem Current.poll (H : ed.Current) (now : Nat) : ((Action.poll now).apply ed).Current := by
  rw [Action.apply, poll?]
  cases hp : ed.session.poll? now with
  | none => exact H
  | some p =>
    obtain ⟨version, request, session⟩ := p
    intro r hr
    exact H r (Session.request?_of_poll? hp ▸ hr)

theorem Current.receive (H : ed.Current) (version : Nat) (outcome : Outcome) :
    (ed.receive version outcome).2.Current := by
  rw [Editor.receive]
  cases hc : ed.session.complete? version with
  | none => exact H
  | some session =>
    have hr := Session.request?_of_complete? hc
    cases outcome with
    | _ => exact current_of_request? hr

/-- The actions that change the terms in place. -/
def Action.editsTerms : Action → Bool
  | insert .. | remove _ | removeRange .. | replaceTerm .. | wrapInGroup .. | negateGroup _ => true
  | _ => false

/-- A change of the terms in place leaves the session and the fragment alone. -/
theorem Action.apply_of_editsTerms {a : Action} (h : a.editsTerms = true) (ed : Editor) :
    (a.apply ed).session = ed.session ∧ (a.apply ed).fragment = ed.fragment := by
  cases a with
  | insert | removeRange => exact ⟨rfl, rfl⟩
  | remove i =>
    rw [apply, remove?]
    cases ed.terms.remove? i <;> exact ⟨rfl, rfl⟩
  | replaceTerm i text =>
    rw [apply, Editor.replaceTerm]
    split
    · exact ⟨rfl, rfl⟩
    · split <;> exact ⟨rfl, rfl⟩
  | wrapInGroup start stop =>
    rw [apply, wrapInGroup?]
    split <;> exact ⟨rfl, rfl⟩
  | negateGroup i =>
    rw [apply, negateGroup?]
    split <;> exact ⟨rfl, rfl⟩
  | _ => cases h

/-- The action changes what suggestions are asked for without a word to the session, which holds a
request. -/
def Action.Outdates (ed : Editor) (a : Action) : Prop :=
  ed.session.request? ≠ none ∧
    match a with
    | typeChar c _ => ed.expect.freeText?.isSome = true ∧ c ∈ delimiters ∧
      ∃ d ∈ ed.fragment.toList.head?, d ∈ delimiters
    | complete s => ({ ed with fragment := s.search } : Editor).pendingTerm? = none ∧
      trimmed s.search ≠ trimmed ed.fragment
    | insert .. | remove _ | removeRange .. | replaceTerm .. | wrapInGroup .. | negateGroup _ =>
      (a.apply ed).place ≠ ed.place
    | backspace _ | commit | blur | poll _ | receive .. => False

/-- **One action.** A request that is up to date stays so unless the action outdates it. -/
theorem Current.apply_iff (H : ed.Current) (a : Action) :
    (a.apply ed).Current ↔ ¬ a.Outdates ed := by
  have edit (h : a.editsTerms = true) : (a.apply ed).Current ↔
      ¬ (ed.session.request? ≠ none ∧ (a.apply ed).place ≠ ed.place) := by
    obtain ⟨hs, hf⟩ := a.apply_of_editsTerms h ed
    rw [H.iff_of_session hs, ne_eq _ ed.suggestionRequest, suggestionRequest_eq_iff, hf,
      and_iff_right rfl]
  cases a with
  | typeChar c now => exact H.typeChar_iff
  | complete s => exact H.complete_iff s
  | insert | remove | removeRange | replaceTerm | wrapInGroup | negateGroup => exact edit rfl
  | backspace now => exact iff_of_true (H.backspace now) And.right
  | commit => exact iff_of_true H.commit And.right
  | blur => exact iff_of_true (current_of_request? (Session.request?_cancel _)) And.right
  | poll now => exact iff_of_true (H.poll now) And.right
  | receive version outcome => exact iff_of_true (H.receive version outcome) And.right

/-! ### Runs -/

theorem Opened.request?_eq_none (h : ed.Opened) : ed.session.request? = none := by
  induction h with
  | new | ofRule | withDebounce => rfl
  | withMessages _ _ ih => exact ih

/-- An answer that is shown is the answer to the request in flight. -/
theorem Current.of_receive (H : ed.Current) {version : Nat} {outcome : Outcome}
    (h : (ed.receive version outcome).1 = true) :
    ed.session.state = .inFlight version ed.suggestionRequest := by
  rw [Editor.receive] at h
  cases hc : ed.session.complete? version with
  | none =>
    rw [hc] at h
    cases h
  | some session =>
    obtain ⟨request, hs, -⟩ := Session.complete?_eq_some_iff.1 hc
    have hr : request ∈ ed.session.request? := by
      rw [Session.request?, hs]
      rfl
    rw [hs, H request hr]

/-- **Requests that are out of date.** Along a run of actions the request that is held is always the
one of the fragment and the terms at present, exactly if no action outdates it. An answer that is
then shown is the answer to what the editor shows. -/
theorem current_of_run (h : ed.Opened) (actions : List Action) :
    ((∀ as, as <+: actions → (ed.run as).Current) ↔
      ∀ as a, as ++ [a] <+: actions → ¬ a.Outdates (ed.run as)) ∧
    ((∀ as a, as ++ [a] <+: actions → ¬ a.Outdates (ed.run as)) →
      ∀ version outcome, ((ed.run actions).receive version outcome).1 = true →
        (ed.run actions).session.state = .inFlight version (ed.run actions).suggestionRequest) := by
  have H : (∀ as, as <+: actions → (ed.run as).Current) ↔
      ∀ as a, as ++ [a] <+: actions → ¬ a.Outdates (ed.run as) := by
    constructor
    · intro H as a ha
      have hc := H as ((List.prefix_append as [a]).trans ha)
      rw [← hc.apply_iff, ← run_append_singleton]
      exact H _ ha
    · intro H
      exact run_of_apply (current_of_request? h.request?_eq_none) fun as a ha hc =>
        (hc.apply_iff a).2 (H as a ha)
  refine ⟨H, fun hn version outcome hr => ?_⟩
  exact (H.2 hn actions List.prefix_rfl).of_receive hr

theorem current_of_run_typed :
    let actions : List Action :=
      [.typeChar 'h' 0, .poll 250, .typeChar 'o' 300, .poll 400, .backspace 450, .poll 700]
    Opened {} ∧ (run {} actions).Current ∧
      (run {} actions).session.state = .inFlight 3 (run {} actions).suggestionRequest := by
  intro actions
  have hn : ∀ as a, as ++ [a] <+: actions → ¬ a.Outdates (run {} as) := by
    rintro as a ha ⟨-, h⟩
    have hmem : a ∈ actions := ha.subset (List.mem_append_right _ List.mem_cons_self)
    simp only [actions, List.mem_cons, List.not_mem_nil, or_false] at hmem
    rcases hmem with rfl | rfl | rfl | rfl | rfl | rfl
    · exact absurd h.2.1 (by decide)
    · exact h
    · exact absurd h.2.1 (by decide)
    · exact h
    · exact h
    · exact h
  have shown : ((run {} actions).receive 3 (.response { items := [] })).1 = true := by
    decide +kernel
  obtain ⟨H, hr⟩ := current_of_run .new actions
  exact ⟨.new, H.2 hn actions List.prefix_rfl, hr hn 3 _ shown⟩

/-- A request can be left behind by a term that is put in, by a suggestion that is refused, and by a
delimiter that is refused. The answer to it is shown even so. -/
theorem current_outrun :
    let inserted := run {} [.typeChar 'h' 0, .poll 250, .insert 0 (.freeText .column "a")]
    (¬ inserted.Current ∧ (inserted.receive 1 (.response { items := [.ofText "host"] })).1 = true) ∧
      ¬ (run {} [.typeChar 'h' 0, .complete (.ofText "&")]).Current ∧
      ¬ (run {} [.typeChar '&' 0, .typeChar 'a' 0, .typeChar '&' 0]).Current := by
  decide +kernel

end Editor
end FilterQuery
