import FilterQuery.Proofs.Query.Lookahead
import FilterQuery.Proofs.Query.Reading

/-!
Queries that are refused. Reading stops at the first lexeme that does not fit, and what comes behind
its first character is of no account. So the text in front of an error is accepted, and all text
that goes on from there with the same character is refused in the same way.
-/

namespace FilterQuery

open Text

/-! ### Parts of a text -/

/-- A part of a text that ends behind a character has that character. -/
theorem exists_of_isPrefix {cs u after : List Char} {c : Char} (h : cs <+: u ++ c :: after)
    (hlt : byteSize u < byteSize cs) : ∃ after', cs = u ++ c :: after' ∧ after' <+: after := by
  rcases List.prefix_or_prefix_of_prefix h (List.prefix_append u (c :: after)) with hp | hp
  · obtain ⟨v, rfl⟩ := hp
    rw [byteSize_append] at hlt
    omega
  · obtain ⟨v, rfl⟩ := hp
    cases v with
    | nil =>
      rw [List.append_nil] at hlt
      exact absurd hlt (Nat.lt_irrefl _)
    | cons d after' =>
      obtain ⟨rfl, hafter⟩ := List.cons_prefix_cons.1 (List.prefix_append_right_inj u |>.1 h)
      exact ⟨after', rfl, hafter⟩

theorem Rule.charsBefore_append (u rest : List Char) :
    charsBefore (byteSize u) (u ++ rest) = u := by
  induction u with
  | nil =>
    cases rest with
    | nil => rfl
    | cons c rest => exact if_neg (Nat.not_le.2 c.utf8Size_pos)
  | cons c u ih =>
    rw [List.cons_append, charsBefore, byteSize_cons, if_pos (Nat.le_add_right _ _),
      Nat.add_sub_cancel_left, ih]

/-! ### Where reading stops -/

namespace Lexeme

variable {c : Char} {l : Lexeme}

theorem Starts.of_deepens (H : l.Starts c) (h : l.deepens = true) : c = '!' ∨ c = '(' := by
  rw [Starts] at H
  cases hc : ofChar? c with
  | none =>
    rw [hc] at H
    obtain ⟨condition, rfl⟩ := H
    cases h
  | some l' =>
    rw [hc] at H
    subst H
    unfold ofChar? at hc
    split at hc <;> cases hc
    · cases h
    · cases h
    · exact .inr rfl
    · cases h
    · exact .inl rfl

theorem Starts.of_beginsOperand (H : l.Starts c) (h : l.beginsOperand = true) :
    c ∉ ['&', '|', ')'] := by
  intro hc
  simp only [List.mem_cons, List.not_mem_nil, or_false] at hc
  rcases hc with rfl | rfl | rfl
  · obtain rfl : l = conj := H
    cases h
  · obtain rfl : l = disj := H
    cases h
  · obtain rfl : l = groupClose := H
    cases h

end Lexeme

namespace Parse.State

variable {s t : State} {os : List Occurrence} {reason : SyntaxError.Reason}

theorem run_append (h : s.run os = .ok t) (os' : List Occurrence) :
    s.run (os ++ os') = t.run os' := by
  induction os generalizing s with
  | nil =>
    cases h
    rfl
  | cons o os ih =>
    rw [run] at h
    cases hs : s.step o.lexeme with
    | error reason =>
      rw [hs] at h
      cases h
    | ok s' =>
      rw [hs] at h
      rw [List.cons_append, run, hs]
      exact ih h

/-- Reading stops at the first lexeme that does not fit. -/
theorem exists_of_run_eq_error {o : Occurrence} (h : s.run os = .error (o, reason)) :
    ∃ before after t, os = before ++ o :: after ∧ s.run before = .ok t ∧
      t.step o.lexeme = .error reason := by
  induction os generalizing s with
  | nil => cases h
  | cons o' os ih =>
    rw [run] at h
    cases hs : s.step o'.lexeme with
    | error reason' =>
      rw [hs] at h
      cases h
      exact ⟨[], os, s, rfl, rfl, hs⟩
    | ok s' =>
      rw [hs] at h
      obtain ⟨before, after, t, rfl, ht, he⟩ := ih h
      refine ⟨o' :: before, after, t, rfl, ?_, he⟩
      rw [run, hs]
      exact ht

/-- Whether a lexeme fits depends on the character that it begins with. -/
theorem step_eq_error_of_starts {l l' : Lexeme} {c : Char} (h : s.step l = .error reason)
    (hl : l.Starts c) (hl' : l'.Starts c) : s.step l' = .error reason := by
  rw [Lexeme.Starts] at hl hl'
  cases hc : Lexeme.ofChar? c with
  | some l₀ =>
    rw [hc] at hl hl'
    rwa [hl', ← hl]
  | none =>
    rw [hc] at hl hl'
    obtain ⟨condition, rfl⟩ := hl
    obtain ⟨condition', rfl⟩ := hl'
    rw [step, open?] at h ⊢
    split at h
    · rw [if_pos ‹_›]
      exact h
    · cases h

end Parse.State

/-! ### Queries that are refused -/

namespace Rule

open Parse

variable {query : String} {e : SyntaxError}

theorem parse_of_run {s : State} (h : State.run {} (lexemes query) = .ok s) :
    parse query = .ok (s.finish.getD empty) := by
  rw [parse, h]

/-- The text in front of an error and the character there settle it. -/
theorem exists_of_parse_eq_error (h : parse query = .error e) :
    e.filter = query ∧ ∃ before after s l,
      query.toList = before ++ e.character :: after ∧
      e.position = byteSize before + e.character.utf8Size ∧
      isBlank e.character = false ∧
      State.run {} (lexemes (.ofList before)) = .ok s ∧
      l.Starts e.character ∧ s.step l = .error e.reason ∧
      ∀ text after', text.toList = before ++ e.character :: after' →
        Resembles (e.character :: after) (e.character :: after') →
          parse text = .error { e with filter := text } := by
  rw [parse] at h
  cases hr : State.run {} (lexemes query) with
  | ok s =>
    rw [hr] at h
    cases h
  | error r =>
    obtain ⟨o, reason⟩ := r
    rw [hr] at h
    cases h
    obtain ⟨os, os', s, hos, hs, hstep⟩ := State.exists_of_run_eq_error hr
    obtain ⟨before, after, hq, hstart, hl, hb, hbefore, H⟩ := Scanner.lexemes_split hos
    rw [Nat.zero_add] at hstart
    refine ⟨rfl, before, after, s, o.lexeme, hq, by rw [hstart], hb, ?_, hl, hstep,
      fun text after' ht hres => ?_⟩
    · rw [lexemes, Scanner.ofString, String.toList_ofList, hbefore]
      exact hs
    · obtain ⟨l, os'', hlex, hl'⟩ := H after' hres
      have hrun : State.run {} (lexemes text) = .error (⟨l, o.first, o.start⟩, reason) := by
        rw [lexemes, Scanner.ofString, ht, hlex, State.run_append hs, State.run]
        simp only [State.step_eq_error_of_starts hstep hl hl']
      rw [parse, hrun]

/-- **A refused query.** The text in front of the error is accepted. All text that goes on from
there with the same character is refused with the same error, unless that is a `!` which becomes
part of a `!=`; so is every longer part of the query itself. -/
theorem parse_eq_error_local (h : parse query = .error e) :
    e.filter = query ∧ ∃ before after,
      query.toList = before ++ e.character :: after ∧
      byteSize before = e.offset ∧
      e.position = e.offset + e.character.utf8Size ∧
      (e.reason = .nestingTooDeep → e.character = '!' ∨ e.character = '(') ∧
      (e.reason = .expectedConnective →
        isBlank e.character = false ∧ e.character ∉ ['&', '|', ')']) ∧
      (∃ r, parse (.ofList before) = .ok r ∧ parseLenient query = (r, some e)) ∧
      (∀ text after', text.toList = before ++ e.character :: after' →
        ¬ (e.character = '!' ∧ after'.head? = some '=') →
          parse text = .error { e with filter := text }) ∧
      ∀ text : String, text.toList <+: query.toList → e.offset < byteSize text.toList →
        parse text = .error { e with filter := text } := by
  obtain ⟨hf, before, after, s, l, hq, hp, hb, hs, hl, hstep, H⟩ := exists_of_parse_eq_error h
  have hoffset : byteSize before = e.offset := by rw [SyntaxError.offset, hp, Nat.add_sub_cancel]
  refine ⟨hf, before, after, hq, hoffset, hoffset ▸ hp, fun hr => ?_, fun hr => ⟨hb, ?_⟩, ?_,
    fun text after' ht hn => H text after' ht ?_, fun text ht hlt => ?_⟩
  · rw [hr] at hstep
    rcases s.step_cases l with ⟨-, -, he⟩ | ⟨-, hd, -, -⟩ | ⟨-, -, he⟩
    · cases he.symm.trans hstep
    · exact hl.of_deepens hd
    · cases he.symm.trans hstep
  · rw [hr] at hstep
    rcases s.step_cases l with ⟨-, -, he⟩ | ⟨-, -, -, he⟩ | ⟨ho, -, -⟩
    · cases he.symm.trans hstep
    · cases he.symm.trans hstep
    · exact hl.of_beginsOperand ho
  · have hbefore := parse_of_run hs
    refine ⟨_, hbefore, ?_⟩
    simp only [parseLenient, h]
    rw [hq, ← hoffset, charsBefore_append, hbefore]
    rfl
  · exact .cons fun hc he => absurd ⟨hc, he⟩ hn
  · rw [hq] at ht
    obtain ⟨after', htext, hafter⟩ := exists_of_isPrefix ht (hoffset ▸ hlt)
    exact H text after' htext (.of_isPrefix (List.cons_prefix_cons.2 ⟨rfl, hafter⟩))

theorem parse_eq_error_local_nested :
    let e : SyntaxError := ⟨"!(a=b|c=)d>=1", 'd', 10, .expectedConnective⟩
    parse "!(a=b|c=)d>=1" = .error e ∧
      (∃ r, parse "!(a=b|c=)" = .ok r ∧ parseLenient "!(a=b|c=)d>=1" = (r, some e)) ∧
      parse "!(a=b|c=)d&(" = .error { e with filter := "!(a=b|c=)d&(" } := by
  intro e
  have he : parse "!(a=b|c=)d>=1" = .error e := by
    have h : (parse "!(a=b|c=)d>=1").map (fun _ => ()) = .error e := by decide +kernel
    cases hp : parse "!(a=b|c=)d>=1" with
    | ok r =>
      rw [hp] at h
      cases h
    | error e' =>
      rw [hp] at h
      cases h
      rfl
  obtain ⟨-, before, after, hq, hoffset, -, -, -, hbefore, H, -⟩ := parse_eq_error_local he
  have hb : before = "!(a=b|c=)".toList := by
    have hc := charsBefore_append before (e.character :: after)
    rw [hoffset, ← hq] at hc
    rw [← hc]
    decide +kernel
  subst hb
  rw [String.ofList_toList] at hbefore
  exact ⟨he, hbefore, H "!(a=b|c=)d&(" ['&', '('] (by decide) (by decide)⟩

end Rule
end FilterQuery
