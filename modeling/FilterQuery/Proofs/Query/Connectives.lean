import FilterQuery.Proofs.Query.FlatPass
import FilterQuery.Proofs.Query.Position
import FilterQuery.Proofs.Query.Rejection

/-!
Connectives in a row. No unit reaches over a `&`, so the text in front of it and the text behind it
are read apart; and behind a connective all further ones, with blanks between them, change nothing
but the positions of what follows.
-/

namespace FilterQuery

open Text

namespace Scanner

/-! ### The text in front of a conjunction -/

/-- The `&` that the text ends with is still ahead. -/
def Pending (s : Scanner) : Prop := s.rest.getLast? = some '&'

namespace Pending

variable {s t : Scanner}

theorem of_append {u rest : List Char} {n m : Nat} (H : Pending ⟨n, u ++ rest⟩)
    (hu : u.getLast? ≠ some '&') : Pending ⟨m, rest⟩ := by
  rw [Pending, List.getLast?_append] at H
  cases h : rest.getLast? with
  | none =>
    rw [h] at H
    exact absurd H hu
  | some c =>
    rw [h] at H
    exact h.trans H

theorem skipWhile (H : s.Pending) {p : Char → Bool} (hp : p '&' = false) :
    (s.skipWhile p).Pending := by
  obtain ⟨n, cs⟩ := s
  obtain ⟨u, rest, rfl, hu, hr⟩ := exists_span p cs
  rw [skipWhile_append hu hr]
  refine H.of_append fun hl => ?_
  rw [hu '&' (List.mem_of_getLast? hl)] at hp
  cases hp

theorem advance (H : s.Pending) {c : Char} (hp : s.peek = some c) (hc : c ≠ '&') :
    s.advance.Pending := by
  obtain ⟨n, cs⟩ := s
  obtain ⟨cs, rfl⟩ := List.head?_eq_some_iff.1 hp
  exact of_append (u := [c]) H (by simpa using hc)

theorem readRun (H : s.Pending) : (s.readRun delimiters).2.Pending :=
  H.skipWhile rfl

theorem readComparison? (H : s.Pending) {op : Comparison} (h : s.readComparison? = some (op, t)) :
    t.Pending := by
  obtain ⟨n, cs⟩ := s
  obtain ⟨rfl, -⟩ := readComparison?_of_resembles h
  exact of_append H (by cases op <;> decide)

theorem readItems (H : s.Pending) : s.readItems.2.Pending := by
  induction h : s.rest.length using Nat.strongRecOn generalizing s with
  | ind n ih =>
    have hr := readRun_rest_length delimiters s
    rw [Scanner.readItems]
    dsimp only
    split
    · rename_i hp
      have hl := advance_lt hp
      exact ih _ (by omega) (H.readRun.advance hp (by decide)) rfl
    · split
      · rename_i hp
        exact H.readRun.advance hp (by decide)
      · exact H.readRun

theorem readValue (H : s.Pending) : s.readValue.2.2.Pending := by
  have hs : s.skipBlanks.Pending := H.skipWhile (by decide)
  rw [Scanner.readValue]
  cases he : s.skipBlanks.eat? '(' with
  | some t =>
    simp only [eat?, Option.ite_none_right_eq_some, Option.some.injEq] at he
    obtain ⟨hp, rfl⟩ := he
    exact (hs.advance hp (by decide)).readItems
  | none =>
    dsimp only
    split <;> exact hs.readRun

theorem readUnit (H : s.Pending) : s.readUnit.2.Pending := by
  rw [Scanner.readUnit]
  dsimp only
  split
  · exact H.readRun
  · rename_i h
    exact (H.readRun.readComparison? h).readValue

end Pending

/-- A unit in front of a `&` is read as if nothing came behind. -/
theorem readUnit_conj (n : Nat) (cs : List Char) : ∃ u tail condition, cs = u ++ tail ∧
    (⟨n, cs⟩ : Scanner).readUnit = (condition, ⟨n + byteSize u, tail⟩) ∧
    ∀ rest, (⟨n, cs ++ '&' :: rest⟩ : Scanner).readUnit =
      (condition, ⟨n + byteSize u, tail ++ '&' :: rest⟩) := by
  obtain ⟨u, tail, condition, hcs, hread⟩ := local_readUnit n (cs ++ ['&'])
  have hpending : Pending ⟨n + byteSize u, tail⟩ := by
    have h : Pending ⟨n, cs ++ ['&']⟩ := by simp [Pending]
    have h := h.readUnit
    rwa [hcs, hread tail (.refl tail)] at h
  obtain ⟨tail, rfl⟩ := List.getLast?_eq_some_iff.1 hpending
  rw [← List.append_assoc] at hcs
  obtain rfl := List.append_cancel_right hcs
  refine ⟨u, tail, condition, rfl, hread _ (.of_isPrefix (List.prefix_append _ _)), fun rest => ?_⟩
  rw [List.append_assoc]
  exact hread _ (.append (.cons (by simp)) tail)

/-- **A conjunction keeps apart** the lexemes in front of it and those behind it. -/
theorem lexemes_conj (n : Nat) (cs rest : List Char) : (⟨n, cs ++ '&' :: rest⟩ : Scanner).lexemes =
    (⟨n, cs⟩ : Scanner).lexemes ++
      ⟨.conj, '&', n + byteSize cs⟩ :: (⟨n + byteSize cs + 1, rest⟩ : Scanner).lexemes := by
  induction h : cs.length using Nat.strongRecOn generalizing n cs with
  | ind k ih =>
    cases cs with
    | nil =>
      have hp : (⟨n, '&' :: rest⟩ : Scanner).peek = some '&' := rfl
      rw [lexemes_eq_nil (readLexeme?_blanks (List.forall_mem_nil _) n)]
      exact lexemes_of_not_isBlank hp (by decide)
    | cons c cs =>
      have hlt : cs.length < k := by rw [← h]; exact Nat.lt_succ_self _
      have H := ih _ hlt (n + c.utf8Size) cs rfl
      rw [Nat.add_assoc n, ← byteSize_cons] at H
      have hp (cs : List Char) : (⟨n, c :: cs⟩ : Scanner).peek = some c := rfl
      cases hb : isBlank c with
      | true =>
        rw [List.cons_append, lexemes_of_isBlank (hp _) hb, lexemes_of_isBlank (hp cs) hb]
        exact H
      | false =>
        rw [List.cons_append, lexemes_of_not_isBlank (hp _) hb, lexemes_of_not_isBlank (hp cs) hb]
        cases hl : Lexeme.ofChar? c with
        | some l => exact congrArg (_ :: ·) H
        | none =>
          obtain ⟨u, tail, condition, hu, hread, hread'⟩ := readUnit_conj n (c :: cs)
          have hlt : tail.length < (c :: cs).length := by
            have hlt := readUnit_rest_length (hp cs) (Lexeme.not_mem_of_ofChar?_eq_none hl)
            rwa [hread] at hlt
          have H := ih _ (h ▸ hlt) (n + byteSize u) tail rfl
          rw [Nat.add_assoc n, ← byteSize_append, ← hu] at H
          have hread' := hread' rest
          rw [List.cons_append] at hread'
          simp only [hread, hread', H]
          rfl

/-- Where the lexemes of a text begin. -/
theorem start_of_mem_lexemes {n : Nat} {cs : List Char} {o : Occurrence}
    (h : o ∈ (⟨n, cs⟩ : Scanner).lexemes) : n ≤ o.start ∧ o.start < n + byteSize cs := by
  obtain ⟨os, os', hos⟩ := List.append_of_mem h
  obtain ⟨u, rest, rfl, hstart, -⟩ := lexemes_split hos
  have hpos := o.first.utf8Size_pos
  rw [byteSize_append, byteSize_cons]
  omega

end Scanner

/-! ### Connectives and blanks -/

/-- Connectives and the blanks between them. -/
def isConnecting (c : Char) : Bool := isBlank c || c == '&' || c == '|'

/-- Lexemes that connect operands. -/
def Lexeme.connects : Lexeme → Bool
  | conj | disj => true
  | _ => false

/-- The connectives of a text that has nothing but them and blanks. -/
def marks (w : List Char) : List Lexeme := w.filterMap Lexeme.ofChar?

theorem ofChar?_of_isBlank {c : Char} (h : isBlank c = true) : Lexeme.ofChar? c = none := by
  have H : ['&', '|', '(', ')', '!'].all (!isBlank ·) = true := by decide
  refine Lexeme.ofChar?_eq_none fun hc => ?_
  have H := List.all_eq_true.1 H c hc
  simp [h] at H

theorem connects_of_isConnecting {c : Char} (h : isConnecting c = true) (hb : isBlank c = false) :
    ∃ l, Lexeme.ofChar? c = some l ∧ l.connects = true := by
  simp only [isConnecting, hb, Bool.false_or, Bool.or_eq_true, beq_iff_eq] at h
  rcases h with rfl | rfl
  · exact ⟨.conj, rfl, rfl⟩
  · exact ⟨.disj, rfl, rfl⟩

theorem connects_of_mem_marks {w : List Char} (hw : ∀ c ∈ w, isConnecting c = true) :
    ∀ l ∈ marks w, l.connects = true := by
  intro l hl
  obtain ⟨c, hc, hl⟩ := List.mem_filterMap.1 hl
  cases hb : isBlank c with
  | true => rw [ofChar?_of_isBlank hb] at hl; cases hl
  | false =>
    obtain ⟨l', hl', h⟩ := connects_of_isConnecting (hw c hc) hb
    obtain rfl := Option.some.inj (hl'.symm.trans hl)
    exact h

/-- Connectives and blanks are read as connectives, whatever is behind them. -/
theorem Scanner.lexemes_connecting {w : List Char} (hw : ∀ c ∈ w, isConnecting c = true) (n : Nat)
    (rest : List Char) : ∃ os : List Occurrence, os.map (·.lexeme) = marks w ∧
      (⟨n, w ++ rest⟩ : Scanner).lexemes =
        os ++ (⟨n + byteSize w, rest⟩ : Scanner).lexemes := by
  induction w generalizing n with
  | nil => exact ⟨[], rfl, rfl⟩
  | cons c w ih =>
    obtain ⟨hc, hw⟩ := List.forall_mem_cons.1 hw
    obtain ⟨os, hos, H⟩ := ih hw (n + c.utf8Size)
    rw [Nat.add_assoc, ← byteSize_cons] at H
    have hp : (⟨n, c :: (w ++ rest)⟩ : Scanner).peek = some c := rfl
    rw [List.cons_append, marks]
    cases hb : isBlank c with
    | true =>
      rw [List.filterMap_cons, ofChar?_of_isBlank hb]
      exact ⟨os, hos, (lexemes_of_isBlank hp hb).trans H⟩
    | false =>
      obtain ⟨l, hl, -⟩ := connects_of_isConnecting hc hb
      rw [List.filterMap_cons, hl, lexemes_of_not_isBlank hp hb, hl]
      exact ⟨⟨l, c, n⟩ :: os, congrArg (l :: ·) hos, congrArg (_ :: ·) H⟩

namespace Parse.State

/-- An operand may begin, and nothing waits for it. -/
structure Fresh (s : State) : Prop where
  filled : s.filled = false
  negations : s.group.negations = 0

namespace Fresh

variable {s : State} {l : Lexeme}

theorem settle (H : s.Fresh) : s.settle = s := by
  simp [State.settle, H.negations]

theorem of_connects (h : s.Settled) (hl : l.connects = true) : (s.advance l).Fresh := by
  cases l with
  | conj => exact ⟨rfl, settle_negations h⟩
  | disj =>
    rw [State.advance]
    split
    · exact ⟨rfl, settle_negations h⟩
    · rename_i hf
      exact ⟨by simpa using hf, settle_negations h⟩
  | _ => cases hl

/-- One more connective is of no account. -/
theorem advance (H : s.Fresh) (hl : l.connects = true) : s.advance l = s := by
  obtain ⟨group, outer, filled⟩ := s
  obtain rfl : filled = false := H.filled
  cases l with
  | conj => rw [State.advance, H.settle]
  | disj => rw [State.advance, H.settle]; rfl
  | _ => cases hl

end Fresh

variable {s s' t : State}

theorem step_of_connects (s : State) {l : Lexeme} (hl : l.connects = true) :
    s.step l = .ok (s.advance l) := by
  rcases s.step_cases l with ⟨-, -, hs⟩ | ⟨-, hd, -, -⟩ | ⟨hb, -, -⟩
  · exact hs
  · cases l <;> simp [Lexeme.connects, Lexeme.deepens] at hl hd
  · cases l <;> simp [Lexeme.connects, Lexeme.beginsOperand] at hl hb

theorem Fresh.run_connecting (H : s.Fresh) {os : List Occurrence}
    (h : ∀ l ∈ os.map (·.lexeme), l.connects = true) (os' : List Occurrence) :
    s.run (os ++ os') = s.run os' := by
  induction os with
  | nil => rfl
  | cons o os ih =>
    obtain ⟨ho, h⟩ := List.forall_mem_cons.1 h
    rw [List.cons_append, run, step_of_connects s ho, H.advance ho]
    exact ih h

/-! ### Reading without annotations -/

theorem nesting_bare (s : State) : s.bare.nesting = s.nesting := by
  rw [nesting, bare, List.foldl_map]
  rfl

/-- Annotations play no part in whether a lexeme fits. -/
theorem step_bare (s : State) (l : Lexeme) : s.bare.step l.bare = (s.step l).map bare := by
  have hb : l.bare.beginsOperand = l.beginsOperand := by cases l <;> rfl
  have hd : l.bare.deepens = l.deepens := by cases l <;> rfl
  have h := s.bare.step_cases l.bare
  rw [hb, hd, filled_bare, nesting_bare] at h
  rcases s.step_cases l with ⟨hf, hn, hs⟩ | ⟨hf, ho, hn, hs⟩ | ⟨ho, hf, hs⟩
  · rcases h with ⟨-, -, h⟩ | ⟨-, ho, hn', -⟩ | ⟨ho, hf', -⟩
    · rw [hs, h, ← bare_advance]
      rfl
    · exact absurd (hn ho) (Nat.not_lt_of_le hn')
    · exact absurd (hf ho) (by simp [hf'])
  · rcases h with ⟨-, hn', -⟩ | ⟨-, -, -, h⟩ | ⟨ho', hf', -⟩
    · exact absurd (hn' ho) (Nat.not_lt_of_le hn)
    · rw [hs, h]
      rfl
    · exact absurd (hf ho') (by simp [hf'])
  · rcases h with ⟨hf', -, -⟩ | ⟨hf', -, -, -⟩ | ⟨-, -, h⟩
    · exact absurd (hf' ho) (by simp [hf])
    · exact absurd (hf' ho) (by simp [hf])
    · rw [hs, h]
      rfl

theorem step_congr (hs : s.bare = s'.bare) {l l' : Lexeme} (hl : l.bare = l'.bare) :
    (∃ t t', s.step l = .ok t ∧ s'.step l' = .ok t' ∧ t.bare = t'.bare) ∨
      ∃ reason, s.step l = .error reason ∧ s'.step l' = .error reason := by
  have h := (step_bare s l).symm.trans ((congrArg₂ step hs hl).trans (step_bare s' l'))
  cases ht : s.step l <;> cases ht' : s'.step l' <;> rw [ht, ht'] at h
  · cases h
    exact .inr ⟨_, rfl, rfl⟩
  · cases h
  · cases h
  · exact .inl ⟨_, _, rfl, rfl, Except.ok.inj h⟩

/-- Reading goes the same way wherever the lexemes stand. -/
theorem run_map (hs : s.bare = s'.bare) {f : Occurrence → Occurrence}
    (hf : ∀ o, (f o).lexeme.bare = o.lexeme.bare) (os : List Occurrence) :
    (∃ t t', s.run os = .ok t ∧ s'.run (os.map f) = .ok t' ∧ t.bare = t'.bare) ∨
      ∃ o reason, o ∈ os ∧ s.run os = .error (o, reason) ∧
        s'.run (os.map f) = .error (f o, reason) := by
  induction os generalizing s s' with
  | nil => exact .inl ⟨s, s', rfl, rfl, hs⟩
  | cons o os ih =>
    rw [List.map_cons, run, run]
    rcases step_congr hs (hf o).symm with ⟨t, t', ht, ht', h⟩ | ⟨reason, ht, ht'⟩
    · rw [ht, ht']
      rcases ih h with H | ⟨o', reason, hm, H⟩
      · exact .inl H
      · exact .inr ⟨o', reason, List.mem_cons_of_mem _ hm, H⟩
    · rw [ht, ht']
      exact .inr ⟨o, reason, List.mem_cons_self, rfl, rfl⟩

theorem run_append_error {os : List Occurrence} {e : Occurrence × SyntaxError.Reason}
    (h : s.run os = .error e) (os' : List Occurrence) : s.run (os ++ os') = .error e := by
  obtain ⟨o, reason⟩ := e
  obtain ⟨before, after, t, rfl, ht, hstep⟩ := exists_of_run_eq_error h
  rw [List.append_assoc, run_append ht, List.cons_append, run, hstep]

/-- Behind a `&` that is read, connectives in a row are read without an effect. -/
theorem run_conj {before os : List Occurrence} {o : Occurrence} (hs : run {} before = .ok s)
    (ho : o.lexeme = .conj) (h : ∀ l ∈ os.map (·.lexeme), l.connects = true)
    (behind : List Occurrence) :
    run {} (before ++ o :: (os ++ behind)) = (s.advance .conj).run behind := by
  have hsettled : s.Settled :=
    ((run_eq_ok_iff settled_start (Nat.zero_le _)).1 hs).1.settled settled_start
  have hfresh : (s.advance .conj).Fresh := .of_connects hsettled rfl
  rw [run_append hs, run, ho, step_of_connects s rfl]
  exact hfresh.run_connecting h behind

end Parse.State

theorem Rule.parse_of_run_error {query : String} {o : Occurrence} {reason : SyntaxError.Reason}
    (h : Parse.State.run {} (lexemes query) = .error (o, reason)) :
    parse query = .error ⟨query, o.first, o.start + o.first.utf8Size, reason⟩ := by
  rw [parse, h]

theorem Rule.parse_eq_error_of_map {query : String} {e : SyntaxError}
    (h : (parse query).map (fun _ => ()) = .error e) : parse query = .error e := by
  cases hp : parse query with
  | ok r =>
    rw [hp] at h
    cases h
  | error e' =>
    rw [hp] at h
    exact congrArg Except.error (Except.error.inj h)

theorem Rule.bare_getD (r : Option Rule) : (r.getD empty).bare = (r.map bare).getD empty := by
  cases r <;> rfl

section
variable {w : String} (hw : ∀ c ∈ w.toList, isConnecting c = true)
include hw

/-- The lexemes of a query with more connectives behind one: those in front of it stay as they are,
and those behind them move along. -/
theorem exists_lexemes_connecting (s t : String) : ∃ before os behind,
    lexemes (s ++ "&" ++ t) = before ++ ⟨.conj, '&', byteSize s.toList⟩ :: behind ∧
    lexemes (s ++ "&" ++ w ++ t) = before ++ ⟨.conj, '&', byteSize s.toList⟩ ::
      (os ++ behind.map (·.shift (byteSize w.toList))) ∧
    os.map (·.lexeme) = marks w.toList ∧ (∀ o ∈ before, o.start < byteSize s.toList) ∧
    ∀ o ∈ behind, byteSize s.toList < o.start := by
  obtain ⟨os, hos, H⟩ := Scanner.lexemes_connecting hw (byteSize s.toList + 1) t.toList
  have hamp : "&".toList = ['&'] := rfl
  have hshift := Scanner.shift_lexemes (byteSize w.toList) ⟨byteSize s.toList + 1, t.toList⟩
  refine ⟨(⟨0, s.toList⟩ : Scanner).lexemes, os,
    (⟨byteSize s.toList + 1, t.toList⟩ : Scanner).lexemes, ?_, ?_, hos, fun o ho => ?_,
    fun o ho => (Scanner.start_of_mem_lexemes ho).1⟩
  · have h := Scanner.lexemes_conj 0 s.toList t.toList
    rw [Nat.zero_add] at h
    rw [lexemes, Scanner.ofString, String.toList_append, String.toList_append, hamp,
      List.append_assoc]
    exact h
  · have h := Scanner.lexemes_conj 0 s.toList (w.toList ++ t.toList)
    rw [Nat.zero_add, H] at h
    rw [← hshift, lexemes, Scanner.ofString, String.toList_append, String.toList_append,
      String.toList_append, hamp, List.append_assoc, List.append_assoc]
    exact h
  · have h := (Scanner.start_of_mem_lexemes ho).2
    rwa [Nat.zero_add] at h

namespace Rule

open Parse

/-- **Connectives in a row.** Behind a `&`, be it in any text whatsoever, more connectives and
blanks leave the rule as it is. They leave an error as it is, too, and move it along if it is behind
them. -/
theorem parse_connecting (s t : String) :
    (∃ r r', parse (s ++ "&" ++ t) = .ok r ∧ parse (s ++ "&" ++ w ++ t) = .ok r' ∧ r'.Same r) ∨
    (∃ e e', parse (s ++ "&" ++ t) = .error e ∧ parse (s ++ "&" ++ w ++ t) = .error e' ∧
      e'.character = e.character ∧ e'.reason = e.reason ∧
      e'.offset = if e.offset < byteSize s.toList then e.offset
        else e.offset + byteSize w.toList) := by
  obtain ⟨before, os, behind, hplain, hmore, hos, hbefore, hbehind⟩ :=
    exists_lexemes_connecting hw s t
  cases hr : State.run {} before with
  | error e =>
    obtain ⟨o, reason⟩ := e
    have hlt : o.start < byteSize s.toList := by
      obtain ⟨os, os', t, rfl, -⟩ := State.exists_of_run_eq_error hr
      exact hbefore o (by simp)
    refine .inr ⟨_, _, parse_of_run_error (hplain ▸ State.run_append_error hr _),
      parse_of_run_error (hmore ▸ State.run_append_error hr _), rfl, rfl, ?_⟩
    simp [SyntaxError.offset, hlt]
  | ok q =>
    have hos := hos ▸ connects_of_mem_marks hw
    have hnil : ∀ l ∈ ([] : List Occurrence).map (·.lexeme), l.connects = true :=
      List.forall_mem_nil _
    have hplain := (congrArg (State.run {}) hplain).trans (State.run_conj hr rfl hnil behind)
    have hmore := (congrArg (State.run {}) hmore).trans (State.run_conj hr rfl hos _)
    -- Behind the connectives both queries are in one state, with the same lexemes before them.
    rcases State.run_map (s := q.advance .conj) (f := (·.shift (byteSize w.toList))) rfl
        (fun o => o.lexeme.bare_shift _) behind with
      ⟨u, u', hu, hu', hbare⟩ | ⟨o, reason, hmem, hu, hu'⟩
    · refine .inl ⟨_, _, parse_of_run (hplain.trans hu), parse_of_run (hmore.trans hu'), ?_⟩
      rw [Same, bare_getD, bare_getD, ← State.finish_bare, ← State.finish_bare, hbare]
    · refine .inr ⟨_, _, parse_of_run_error (hplain.trans hu),
        parse_of_run_error (hmore.trans hu'), rfl, rfl, ?_⟩
      have hlt := hbehind o hmem
      simp [SyntaxError.offset, Occurrence.shift, Nat.not_lt_of_lt hlt]

end Rule

end

namespace Rule

/-- The first connective ends a list, and the error comes behind the last one. -/
theorem parse_connecting_list : ∃ e e', parse ("a!=(1|" ++ "&" ++ "é=2)b") = .error e ∧
    parse ("a!=(1|" ++ "&" ++ " |&" ++ "é=2)b") = .error e' ∧
    e = ⟨"a!=(1|&é=2)b", 'b', 13, .expectedConnective⟩ ∧ e'.character = 'b' ∧
    e'.reason = .expectedConnective ∧ e'.offset = 15 := by
  have he : parse ("a!=(1|" ++ "&" ++ "é=2)b") =
      .error ⟨"a!=(1|&é=2)b", 'b', 13, .expectedConnective⟩ :=
    parse_eq_error_of_map (by decide +kernel)
  have hw : " |&".toList.all isConnecting = true := by decide +kernel
  rcases parse_connecting (List.all_eq_true.1 hw) "a!=(1|" "é=2)b" with
    ⟨r, -, hr, -⟩ | ⟨e, e', h, h', hc, hreason, hoffset⟩
  · cases he.symm.trans hr
  · obtain rfl := Except.error.inj (he.symm.trans h)
    exact ⟨_, e', h, h', rfl, hc, hreason, hoffset.trans (by decide)⟩

end Rule
end FilterQuery
