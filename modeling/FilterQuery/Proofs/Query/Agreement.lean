import FilterQuery.Proofs.Query.Descent
import FilterQuery.Proofs.Rule.Reading

/-!
Reading by descent and reading lexeme by lexeme come to the same rule, or to the same error. While a
part is read by descent, the state of the other reading moves from where the part begins to where
it ends, and what a call of the descent has gathered is then found in the innermost group.
-/

namespace FilterQuery
namespace Parse

/-! ### Lexeme by lexeme -/

/-- No operand begins. -/
def Cursor.atMark (c : Cursor) : Bool := c.rest.head?.all (!·.lexeme.beginsOperand)

namespace State

/-- What the rest of a query comes to, read lexeme by lexeme. -/
def answer (s : State) (os : List Occurrence) : Answer := (s.run os).map finish

variable {s t : State} {l : Lexeme} {o : Occurrence} {os : List Occurrence} {depth : Nat}
  {c d : Cursor}

theorem answer_cons (hb : o.lexeme.beginsOperand = true → s.filled = false)
    (hd : o.lexeme.deepens = true → s.nesting < maxNesting) :
    s.answer (o :: os) = (s.advance o.lexeme).answer os := by
  rcases s.step_cases o.lexeme with ⟨-, -, hs⟩ | ⟨-, ho, hn, -⟩ | ⟨ho, hf, -⟩
  · rw [answer, run, hs]
    rfl
  · exact absurd (hd ho) (Nat.not_lt.2 hn)
  · exact absurd (hb ho) (by simp [hf])

theorem answer_mark (hb : o.lexeme.beginsOperand = false) :
    s.answer (o :: os) = (s.advance o.lexeme).answer os := by
  refine answer_cons (fun h => absurd h (by simp [hb])) fun hd => absurd hb ?_
  cases hl : o.lexeme <;> simp [hl, Lexeme.deepens, Lexeme.beginsOperand] at hd ⊢

theorem answer_of_filled (hf : s.filled = true) (hb : o.lexeme.beginsOperand = true) :
    s.answer (o :: os) = .error (o, .expectedConnective) := by
  rcases s.step_cases o.lexeme with ⟨h, -, -⟩ | ⟨h, -, -, -⟩ | ⟨-, -, hs⟩
  · exact absurd (h hb) (by simp [hf])
  · exact absurd (h hb) (by simp [hf])
  · rw [answer, run, hs]
    rfl

theorem answer_of_le_nesting (hf : s.filled = false) (hd : o.lexeme.deepens = true)
    (hn : maxNesting ≤ s.nesting) : s.answer (o :: os) = .error (o, .nestingTooDeep) := by
  rcases s.step_cases o.lexeme with ⟨-, h, -⟩ | ⟨-, -, -, hs⟩ | ⟨-, h, -⟩
  · exact absurd (h hd) (Nat.not_lt.2 hn)
  · rw [answer, run, hs]
    rfl
  · exact absurd h (by simp [hf])

theorem settle_of_negations (h : s.group.negations = 0) : s.settle = s := by
  simp [settle, h]

theorem settle_settle (s : State) : s.settle.settle = s.settle := by
  by_cases h : (!s.filled && s.group.negations != 0) = true
  · have hs : s.settle = s.operand none := by rw [settle, if_pos h]
    rw [hs]
    exact settle_of_filled rfl
  · have hs : s.settle = s := by rw [settle, if_neg h]
    rw [hs, hs]

theorem advance_settle (hb : l.beginsOperand = false) : s.settle.advance l = s.advance l := by
  cases l with
  | conj | disj | groupClose => simp only [advance, settle_settle]
  | _ => cases hb

/-- Negations that no operand follows may be dropped at once. -/
theorem answer_settle (h : c.atMark = true) : s.settle.answer c.rest = s.answer c.rest := by
  rw [Cursor.atMark] at h
  cases hr : c.rest with
  | nil =>
    change Except.ok s.settle.finish = Except.ok s.finish
    rw [finish, finish, settle_settle, settle_outer]
  | cons o os =>
    have hb : o.lexeme.beginsOperand = false := by simpa [hr] using h
    rw [answer_mark hb, answer_mark hb, advance_settle hb]

/-- Lexemes that leave a state as it is may be skipped there. -/
theorem answer_dropWhile {p : Occurrence → Bool}
    (h : ∀ o, p o = true → o.lexeme.beginsOperand = false ∧ s.advance o.lexeme = s)
    (os : List Occurrence) : s.answer (os.dropWhile p) = s.answer os := by
  induction os with
  | nil => rfl
  | cons o os ih =>
    cases ho : p o with
    | false => rw [List.dropWhile_cons_of_neg (by simp [ho])]
    | true =>
      obtain ⟨hb, hs⟩ := h o ho
      rw [List.dropWhile_cons_of_pos ho, ih, answer_mark hb, hs]

theorem advance_groupClose (hs : s.settle = s) (ho : s.outer = []) : s.advance .groupClose = s := by
  rw [advance, hs, close, ho]

theorem answer_skipClosing (hn : s.group.negations = 0) (ho : depth = 0 → s.outer = [])
    (c : Cursor) : s.answer (c.skipClosing depth).rest = s.answer c.rest := by
  refine answer_dropWhile (fun o h => ?_) c.rest
  obtain ⟨hd, hl⟩ : depth = 0 ∧ o.lexeme = .groupClose := by simpa using h
  rw [hl]
  exact ⟨rfl, advance_groupClose (settle_of_negations hn) (ho hd)⟩

theorem answer_skipMarks (H : s.Fresh) (ho : depth = 0 → s.outer = []) (c : Cursor) :
    s.answer (c.skipMarks depth).rest = s.answer c.rest := by
  refine answer_dropWhile (fun o h => ?_) c.rest
  cases hc : o.lexeme.connects with
  | true =>
    refine ⟨?_, H.advance hc⟩
    cases hl : o.lexeme <;> simp [hl, Lexeme.connects] at hc <;> rfl
  | false =>
    obtain ⟨hd, hl⟩ : depth = 0 ∧ o.lexeme = .groupClose := by simpa [hc] using h
    rw [hl]
    exact ⟨rfl, advance_groupClose H.settle (ho hd)⟩

/-- The end of a group, whether its `)` is there or missing. -/
theorem answer_close (hn : s.group.negations = 0) (ho : s.outer ≠ []) (h : c.atEnd = true) :
    s.answer c.rest = s.close.answer c.skipGroupClose.rest := by
  have hs := settle_of_negations hn
  obtain ⟨g, outer, ho⟩ := List.exists_cons_of_ne_nil ho
  obtain ⟨_ | ⟨⟨l, first, start⟩, os⟩, n, m⟩ := c
  · change Except.ok s.finish = Except.ok s.close.finish
    rw [finish, finish, hs, ho, close, ho, settle_of_filled rfl]
    rfl
  · obtain rfl : l = .groupClose := by simpa [Cursor.atEnd] using h
    rw [answer_mark rfl, advance, hs]
    rfl

theorem operands_operand (hn : s.group.negations = 0) (q : Option Rule) :
    (s.operand q).group.operands = s.group.operands ++ q.toList := by
  cases q <;> simp [operand, Group.add, hn, Nat.repeat]

/-! ### States at cursors -/

/-- An operand may begin at the cursor, with `depth` groups around it. -/
structure At (depth : Nat) (c : Cursor) (s : State) : Prop where
  filled : s.filled = false
  nesting : s.nesting = c.nesting
  outer : s.outer = [] ↔ depth = 0

/-- An alternative may begin at the cursor, or go on there. -/
structure Begins (depth : Nat) (c : Cursor) (s : State) : Prop extends s.At depth c where
  negations : s.group.negations = 0

theorem At.negation (H : s.At depth c) (rest : List Occurrence) :
    (s.advance .negation).At depth (c.enter rest) where
  filled := H.filled
  nesting := by
    have h := H.nesting
    rw [nesting_eq] at h ⊢
    exact congrArg (· + 1) h
  outer := H.outer

theorem At.groupOpen (H : s.At depth c) (rest : List Occurrence) :
    (s.advance .groupOpen).Begins (depth + 1) (c.enter rest) where
  filled := rfl
  nesting := by
    have h := H.nesting
    rw [nesting_eq] at h ⊢
    simp only [advance, Cursor.enter, openingsOf_cons, List.length_cons, List.length_append,
      List.length_replicate]
    omega
  outer := by simp [advance]
  negations := rfl

/-- What opens something is read as long as the limit is not reached. -/
theorem At.answer_cons (H : s.At depth c) (hr : c.rest = o :: os)
    (hn : ¬(o.lexeme.deepens && maxNesting ≤ c.nesting) = true) :
    s.answer c.rest = (s.advance o.lexeme).answer os := by
  rw [hr, State.answer_cons fun _ => H.filled]
  intro hd
  exact H.nesting ▸ lt_of_deepens hd hn

theorem Begins.next (H : s.Begins depth c) (ho : t.outer = s.outer) (hn : t.group.negations = 0)
    (hf : t.filled = false) (hd : d.nesting = c.nesting) : t.Begins depth d where
  filled := hf
  nesting := by
    have h := H.nesting
    rw [nesting_eq, H.negations] at h
    rw [nesting_eq, ho, hn, hd, h]
  outer := ho ▸ H.outer
  negations := hn

theorem Begins.skipMarks (H : s.Begins depth c) : s.Begins depth (c.skipMarks depth) :=
  H.next rfl H.negations H.filled rfl

theorem Begins.answer_eq (H : s.Begins depth c) :
    s.answer c.rest = s.answer (c.skipMarks depth).rest :=
  (answer_skipMarks ⟨H.filled, H.negations⟩ H.outer.2 c).symm

end State

/-! ### What is next behind what was skipped -/

namespace Cursor

variable {depth : Nat} {c : Cursor} {o : Occurrence}

theorem not_of_mem_head?_dropWhile {p : Occurrence → Bool} {os : List Occurrence}
    (h : o ∈ (os.dropWhile p).head?) : p o = false := by
  have H := List.head?_dropWhile_not p os
  rw [Option.mem_def.1 h] at H
  exact H

theorem skipClosing_eq_self (h : ∀ o ∈ c.rest.head?, depth = 0 → o.lexeme ≠ .groupClose) :
    c.skipClosing depth = c := by
  obtain ⟨_ | ⟨o, os⟩, n, m⟩ := c
  · rfl
  · have ho : (depth == 0 && o.lexeme == .groupClose) = false := by simpa using h o rfl
    rw [skipClosing, List.dropWhile_cons_of_neg (by simp [ho])]
    rfl

theorem skipClosing_skipClosing (depth : Nat) (c : Cursor) :
    (c.skipClosing depth).skipClosing depth = c.skipClosing depth :=
  skipClosing_eq_self fun _ ho => by simpa using not_of_mem_head?_dropWhile ho

theorem of_mem_skipMarks (h : o ∈ (c.skipMarks depth).rest.head?) :
    o.lexeme.connects = false ∧ (depth = 0 → o.lexeme ≠ .groupClose) := by
  simpa using not_of_mem_head?_dropWhile h

theorem skipClosing_skipMarks (depth : Nat) (c : Cursor) :
    (c.skipMarks depth).skipClosing depth = c.skipMarks depth :=
  skipClosing_eq_self fun _ ho => (of_mem_skipMarks ho).2

theorem atMark_skipMarks (h : ¬(c.skipMarks depth).atEnd = true) :
    (c.skipMarks depth).atMark = false := by
  rw [atEnd] at h
  rw [atMark]
  cases hr : (c.skipMarks depth).rest.head? with
  | none => simp [hr] at h
  | some o =>
    have hc := (of_mem_skipMarks hr).1
    have hl : o.lexeme ≠ .groupClose := by simpa [hr] using h
    cases hl' : o.lexeme <;> simp_all [Lexeme.connects, Lexeme.beginsOperand]

theorem ne_conj_of_atEnd (h : c.atEnd = true) : ∀ o ∈ c.rest.head?, o.lexeme ≠ .conj := by
  intro o ho
  rw [atEnd, ho] at h
  rw [show o.lexeme = .groupClose by simpa using h]
  decide

/-- Outside of all groups there is no end but that of the query. -/
theorem rest_of_atEnd (h : c.skipClosing 0 = c) (he : c.atEnd = true) : c.rest = [] := by
  cases hr : c.rest.head? with
  | none => exact List.head?_eq_none_iff.1 hr
  | some o =>
    have hl : o.lexeme = .groupClose := by simpa [atEnd, hr] using he
    rw [← h] at hr
    have hp := not_of_mem_head?_dropWhile hr
    simp [hl] at hp

end Cursor

/-! ### Agreement -/

open State

section
variable {s s' : State} {c d stop : Cursor} {depth : Nat} {q : Option Rule} {answer : Answer}
  {o : Occurrence} {first : Char} {start : Nat} {rest : List Occurrence}
  {P P' : Option Rule → Cursor → State → Prop}

/-- Lexeme by lexeme, what is left at the cursor comes to the error that a part has, or to what is
left behind the part in a state with `P`. -/
inductive Leads (s : State) (c : Cursor) (P : Option Rule → Cursor → State → Prop) :
    Answer → Cursor → Prop where
  | error {e : Occurrence × SyntaxError.Reason} {stop : Cursor} :
    s.answer c.rest = .error e → Leads s c P (.error e) stop
  | ok {q : Option Rule} {stop : Cursor} {t : State} :
    P q stop t → s.answer c.rest = t.answer stop.rest → Leads s c P (.ok q) stop

namespace Leads

theorem of_eq (h : s.answer c.rest = s'.answer d.rest) (H : Leads s' d P' answer stop)
    (hP : ∀ q stop t, P' q stop t → P q stop t) : Leads s c P answer stop := by
  cases H with
  | error he => exact .error (h.trans he)
  | ok ht he => exact .ok (hP _ _ _ ht) (h.trans he)

theorem failed {e : Occurrence × SyntaxError.Reason} {stop' : Cursor}
    (h : s.answer c.rest = s'.answer d.rest) (H : Leads s' d P' (.error e) stop') :
    Leads s c P (.error e) stop := by
  obtain ⟨he⟩ := H
  exact .error (h.trans he)

theorem exists_state (H : Leads s c P (.ok q) stop) :
    ∃ t, P q stop t ∧ s.answer c.rest = t.answer stop.rest := by
  obtain _ | ⟨ht, he⟩ := H
  exact ⟨_, ht, he⟩

end Leads

/-- `t` is behind the operand `q` that begins in `s`. -/
def BehindOperand (s : State) (q : Option Rule) (_ : Cursor) (t : State) : Prop := t = s.operand q

/-- `t` is behind the alternative `q` that begins in `s`, or goes on there. -/
structure BehindAlternative (depth : Nat) (s : State) (q : Option Rule) (stop : Cursor)
    (t : State) : Prop where
  outer : t.outer = s.outer
  terms : t.group.terms = s.group.terms
  negations : t.group.negations = 0
  operands : Rule.join? .all t.group.operands = q
  skipped : stop.skipClosing depth = stop
  filled : t.filled = false → stop.atEnd = true
  notConj : ∀ o ∈ stop.rest.head?, o.lexeme ≠ .conj

/-- `t` is behind the content `q` that begins in `s`, or goes on there. -/
structure BehindContent (depth : Nat) (s : State) (q : Option Rule) (stop : Cursor)
    (t : State) : Prop where
  outer : t.outer = s.outer
  negations : t.group.negations = 0
  result : t.group.result = q
  skipped : stop.skipClosing depth = stop
  atEnd : stop.atEnd = true

/-- From any state in which the part may begin, reading it by descent agrees with reading it lexeme
by lexeme. -/
def Agrees (depth : Nat) : Part → List Rule → (c : Cursor) → Reading c → Prop
  | .operand, _, c, r => ∀ s : State, s.At depth c → (s.group.negations = 0 → c.atMark = false) →
    Leads s c (BehindOperand s) r.answer r.stop
  | .alternative, operands, c, r => ∀ s : State, s.Begins depth c → s.group.operands = operands →
    Leads s c (BehindAlternative depth s) r.answer r.stop
  | .content, terms, c, r => ∀ s : State, s.Begins depth c → s.group.operands = [] →
    s.group.terms = terms → Leads s c (BehindContent depth s) r.answer r.stop

namespace Leads

theorem missing (H : s.At depth c) (hm : s.group.negations = 0 → c.atMark = false)
    (h : c.atMark = true) : Leads s c (BehindOperand s) (.ok none) c := by
  have hn : s.group.negations ≠ 0 := fun hn => absurd (hm hn) (by simp [h])
  have hs : s.settle = s.operand none := by simp [settle, H.filled, hn]
  exact .ok rfl (hs ▸ answer_settle h).symm

theorem negation (h : s.answer c.rest = (s.advance .negation).answer d.rest)
    (H : Leads (s.advance .negation) d (BehindOperand (s.advance .negation)) answer stop) :
    Leads s c (BehindOperand s) (answer.map (·.map Rule.negate)) stop.leave := by
  cases H with
  | error he => exact .error (h.trans he)
  | ok ht he => exact .ok (ht.trans (operand_negation s _)) (h.trans he)

theorem group (h : s.answer c.rest = (s.advance .groupOpen).answer d.rest)
    (H : Leads (s.advance .groupOpen) d (BehindContent (depth + 1) (s.advance .groupOpen))
      (.ok q) stop) :
    Leads s c (BehindOperand s) (.ok q) stop.skipGroupClose.leave := by
  obtain ⟨t, ht, he⟩ := H.exists_state
  have ho : t.outer = s.group :: s.outer := ht.outer
  have hc : t.close = s.operand q := by
    rw [close, ho, ht.result]
    rfl
  have ha := answer_close ht.negations (by simp [ho]) ht.atEnd
  exact .ok rfl (h.trans (he.trans (hc ▸ ha)))

theorem skipClosing (H : s.Begins depth c) (h : Leads s c (BehindOperand s) (.ok q) stop) :
    s.answer c.rest = (s.operand q).answer (stop.skipClosing depth).rest := by
  obtain ⟨t, rfl, he⟩ := h.exists_state
  have ho : depth = 0 → (s.operand q).outer = [] := H.outer.2
  exact he.trans (answer_skipClosing rfl ho stop).symm

/-- Another operand of the alternative may follow. -/
theorem conj (H : s.Begins depth c) (h : Leads s c (BehindOperand s) (.ok q) stop)
    (hn : stop.nesting = c.nesting)
    (hr : (stop.skipClosing depth).rest = ⟨.conj, first, start⟩ :: rest) :
    ∃ t : State, t.Begins depth ((stop.skipClosing depth).goOn rest) ∧ t.outer = s.outer ∧
      t.group.terms = s.group.terms ∧ t.group.operands = s.group.operands ++ q.toList ∧
      s.answer c.rest = t.answer rest := by
  have hs : (s.operand q).advance .conj = { s.operand q with filled := false } := by
    rw [advance, settle_of_filled rfl]
  refine ⟨{ s.operand q with filled := false }, H.next rfl rfl rfl hn, rfl, rfl,
    operands_operand H.negations q, ?_⟩
  rw [h.skipClosing H, hr, answer_mark rfl, hs]

/-- The alternative ends with the operand. -/
theorem alternative (H : s.Begins depth c) (h : Leads s c (BehindOperand s) (.ok q) stop)
    (hr : ∀ first start rest,
      (stop.skipClosing depth).rest = ⟨.conj, first, start⟩ :: rest → False) :
    Leads s c (BehindAlternative depth s) (.ok (Rule.join? .all (s.group.operands ++ q.toList)))
      (stop.skipClosing depth) := by
  have hc : ∀ o ∈ (stop.skipClosing depth).rest.head?, o.lexeme ≠ .conj := by
    rintro ⟨l, first, start⟩ ho rfl
    obtain ⟨rest, hrest⟩ := List.head?_eq_some_iff.1 ho
    exact hr first start rest hrest
  have hf : (s.operand q).filled = true := rfl
  have ht : BehindAlternative depth s _ (stop.skipClosing depth) (s.operand q) :=
    ⟨rfl, rfl, rfl, rfl, stop.skipClosing_skipClosing depth, fun h => absurd h (by simp [hf]), hc⟩
  rw [← operands_operand H.negations]
  exact .ok ht (h.skipClosing H)

theorem filled_of_not_atEnd {t : State} (ht : BehindAlternative depth s q stop t)
    (h : stop.atEnd = false) : t.filled = true := by
  by_contra hf
  exact absurd (ht.filled (by simpa using hf)) (by simp [h])

/-- Another alternative of the content may follow. -/
theorem disj (H : s.Begins depth c) (h : Leads s c (BehindAlternative depth s) (.ok q) stop)
    (hn : stop.nesting = c.nesting)
    (hr : (stop.skipClosing depth).rest = ⟨.disj, first, start⟩ :: rest) :
    ∃ t : State, t.Begins depth ((stop.skipClosing depth).goOn rest) ∧ t.outer = s.outer ∧
      t.group.operands = [] ∧ t.group.terms = s.group.terms ++ q.toList ∧
      s.answer c.rest = t.answer rest := by
  obtain ⟨t, ht, he⟩ := h.exists_state
  rw [ht.skipped] at hr ⊢
  have hf : t.filled = true := filled_of_not_atEnd ht (by simp [Cursor.atEnd, hr])
  have hs : t.advance .disj = { t with group := t.group.next, filled := false } := by
    rw [advance, settle_of_filled hf, if_pos hf]
  refine ⟨{ t with group := t.group.next, filled := false },
    H.next ht.outer ht.negations rfl hn, ht.outer, rfl, ?_, ?_⟩
  · rw [← ht.terms, ← ht.operands]
    rfl
  · rw [he, hr, answer_mark rfl, hs]

/-- The content ends with the alternative. -/
theorem content (h : Leads s c (BehindAlternative depth s) (.ok q) stop)
    (he : (stop.skipClosing depth).atEnd = true) :
    Leads s c (BehindContent depth s) (.ok (Rule.join? .any (s.group.terms ++ q.toList)))
      (stop.skipClosing depth) := by
  obtain ⟨t, ht, ha⟩ := h.exists_state
  rw [ht.skipped] at he ⊢
  refine .ok ⟨ht.outer, ht.negations, ?_, ht.skipped, he⟩ ha
  rw [← ht.terms, ← ht.operands]
  rfl

/-- No operand stands right behind an alternative. -/
theorem unexpected (h : Leads s c (BehindAlternative depth s) (.ok q) stop)
    (hr : (stop.skipClosing depth).rest = o :: rest) (hc : o.lexeme ≠ .groupClose)
    (hd : o.lexeme ≠ .disj) : s.answer c.rest = .error (o, .expectedConnective) := by
  obtain ⟨t, ht, he⟩ := h.exists_state
  rw [ht.skipped] at hr
  have hf : t.filled = true := filled_of_not_atEnd ht (by simp [Cursor.atEnd, hr, hc])
  have hl := ht.notConj o (by rw [hr]; rfl)
  rw [he, hr]
  refine answer_of_filled hf ?_
  cases ho : o.lexeme <;> first | rfl | contradiction

end Leads
end

theorem agrees_descend (depth : Nat) (part : Part) (done : List Rule) (c : Cursor) :
    Agrees depth part done c (descend depth part done c) := by
  fun_induction descend depth part done c with
  -- An operand.
  | case1 depth _ c hr =>
    intro s H hm
    exact .missing H hm (by simp [Cursor.atMark, hr])
  | case2 depth _ c o rest hr _ hd =>
    intro s H hm
    obtain ⟨hd, hn⟩ : o.lexeme.deepens = true ∧ maxNesting ≤ c.nesting := by simpa using hd
    refine .error ?_
    rw [hr]
    exact answer_of_le_nesting H.filled hd (H.nesting ▸ hn)
  | case3 depth _ c o rest hr _ hn ho answer stop _ h ih =>
    intro s H hm
    have ih := ih (s.advance .negation) (H.negation rest) fun h => absurd h (Nat.succ_ne_zero _)
    rw [h] at ih
    exact ih.negation (ho ▸ H.answer_cons hr hn)
  | case4 depth _ c o rest hr _ hn ho e stop _ h ih =>
    intro s H hm
    have ih := ih (s.advance .groupOpen) (H.groupOpen rest) rfl rfl
    rw [h] at ih
    exact ih.failed (ho ▸ H.answer_cons hr hn)
  | case5 depth _ c o rest hr _ hn ho r stop _ h ih =>
    intro s H hm
    have ih := ih (s.advance .groupOpen) (H.groupOpen rest) rfl rfl
    rw [h] at ih
    exact ih.group (ho ▸ H.answer_cons hr hn)
  | case6 depth _ c o rest hr _ hn condition ho =>
    intro s H hm
    have h := H.answer_cons hr hn
    rw [ho] at h
    exact .ok rfl h
  | case7 depth _ c o rest hr _ _ ho | case8 depth _ c o rest hr _ _ ho
  | case9 depth _ c o rest hr _ _ ho =>
    intro s H hm
    exact .missing H hm (by simp [Cursor.atMark, hr, ho, Lexeme.beginsOperand])
  -- An alternative: its end, an error in an operand, one more operand, the last one.
  | case10 depth operands c _ he =>
    rintro s H rfl
    exact .ok ⟨rfl, rfl, H.negations, rfl, c.skipClosing_skipMarks depth, fun _ => he,
      Cursor.ne_conj_of_atEnd he⟩ H.answer_eq
  | case11 depth operands c _ hm e stop _ h ih =>
    rintro s H rfl
    have ih := ih s H.skipMarks.toAt fun _ => Cursor.atMark_skipMarks hm
    rw [h] at ih
    exact ih.failed H.answer_eq
  | case12 depth operands c _ hm r stop _ h _ first start rest hr _ ih ih' =>
    rintro s H rfl
    have ih := ih s H.skipMarks.toAt fun _ => Cursor.atMark_skipMarks hm
    have hb := (balanced_descend depth .operand [] (c.skipMarks depth)).nesting
    rw [h] at ih hb
    obtain ⟨t, ht, ho, hterms, hoper, ha⟩ := Leads.conj H.skipMarks ih hb hr
    refine (ih' t ht hoper).of_eq (H.answer_eq.trans ha) fun q stop u hu => ?_
    exact { hu with outer := hu.outer.trans ho, terms := hu.terms.trans hterms }
  | case13 depth operands c _ hm r stop _ h _ hr ih =>
    rintro s H rfl
    have ih := ih s H.skipMarks.toAt fun _ => Cursor.atMark_skipMarks hm
    rw [h] at ih
    exact (Leads.alternative H.skipMarks ih hr).of_eq H.answer_eq fun _ _ _ => id
  -- A content, in the same way, and at last an operand with no connective before it.
  | case14 depth terms c _ he =>
    rintro s H hs rfl
    refine .ok ⟨rfl, H.negations, ?_, c.skipClosing_skipMarks depth, he⟩ H.answer_eq
    rw [Group.result, Group.next, hs]
    simp [Rule.join?]
  | case15 depth terms c _ _ e stop _ h ih =>
    rintro s H hs rfl
    have ih := ih s H.skipMarks hs
    rw [h] at ih
    exact ih.failed H.answer_eq
  | case16 depth terms c _ _ r stop _ h _ hr ih
  | case17 depth terms c _ _ r stop _ h _ _ _ _ hr ih =>
    rintro s H hs rfl
    have ih := ih s H.skipMarks hs
    rw [h] at ih
    exact (Leads.content ih (by simp [Cursor.atEnd, hr])).of_eq H.answer_eq fun _ _ _ => id
  | case18 depth terms c _ _ r stop _ h _ first start rest hr _ ih ih' =>
    rintro s H hs rfl
    have ih := ih s H.skipMarks hs
    have hb := (balanced_descend depth .alternative [] (c.skipMarks depth)).nesting
    rw [h] at ih hb
    obtain ⟨t, ht, ho, hoper, hterms, ha⟩ := Leads.disj H.skipMarks ih hb hr
    refine (ih' t ht hoper hterms).of_eq (H.answer_eq.trans ha) fun q stop u hu => ?_
    exact { hu with outer := hu.outer.trans ho }
  | case19 depth terms c _ _ r stop _ h _ o rest hc hd hr ih =>
    rintro s H hs rfl
    have ih := ih s H.skipMarks hs
    rw [h] at ih
    obtain ⟨l, first, start⟩ := o
    have hc : l ≠ .groupClose := fun hl => hc first start (hl ▸ rfl)
    have hd : l ≠ .disj := fun hl => hd first start (hl ▸ rfl)
    exact .error (H.answer_eq.trans (Leads.unexpected ih hr hc hd))

theorem answer_descendQuery (query : String) :
    (descendQuery query).answer = ({} : State).answer (lexemes query) := by
  have hs : ({} : State).Begins 0 { rest := lexemes query } := ⟨⟨rfl, rfl, by simp⟩, rfl⟩
  have H := agrees_descend 0 .content [] { rest := lexemes query } {} hs rfl rfl
  rw [← descendQuery] at H
  generalize (descendQuery query).answer = answer, (descendQuery query).stop = stop at H
  cases H with
  | error he => exact he.symm
  | @ok q _ t ht he =>
    have ho : t.outer = [] := ht.outer
    have hf : t.finish = q := by
      rw [State.finish, settle_of_negations ht.negations, ho]
      exact ht.result
    rw [he, Cursor.rest_of_atEnd ht.skipped ht.atEnd]
    exact congrArg Except.ok hf.symm

end Parse

/-- **Reading by descent and lexeme by lexeme come to the same.** -/
theorem Rule.parse_eq_parseByDescent (query : String) : parse query = parseByDescent query := by
  rw [parseByDescent, Parse.answer_descendQuery, Parse.State.answer, parse]
  cases Parse.State.run {} (lexemes query) <;> rfl

end FilterQuery
