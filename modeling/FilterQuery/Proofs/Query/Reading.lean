import FilterQuery.Proofs.Query.Spelling
import FilterQuery.Query.Parse

/-!
Reading a query without its limit. `State.advance` says what a lexeme does where it fits, `Reads`
that lexemes fit one after another, and `Opening.peak` how much is open at once along them. A query
is accepted exactly if its lexemes fit and no more is open at once than the limit allows.
-/

namespace FilterQuery

/-! ### What is open -/

inductive Opening where
  | negation
  | group
  deriving DecidableEq, Repr

namespace Opening

/-- The negations in front of an operand end with it. -/
def settle (os : List Opening) : List Opening := os.dropWhile (· = negation)

/-- What is open behind a lexeme, the innermost first. A negation is open until its operand ends or
turns out to be missing, and a group until its closing parenthesis. -/
def behind (os : List Opening) : Lexeme → List Opening
  | .negation => negation :: os
  | .groupOpen => group :: os
  | .groupClose => settle (settle os).tail
  | .unit _ | .conj | .disj => settle os

/-- The most that is open at once along lexemes, when `os` is open before them. -/
def peak (os : List Opening) : List Lexeme → Nat
  | [] => os.length
  | l :: ls => max os.length (peak (behind os l) ls)

@[simp] theorem settle_nil : settle [] = [] := rfl

@[simp] theorem settle_negation (os : List Opening) : settle (negation :: os) = settle os := by
  simp [settle]

@[simp] theorem settle_group (os : List Opening) : settle (group :: os) = group :: os := by
  simp [settle]

@[simp] theorem settle_replicate (n : Nat) (os : List Opening) :
    settle (List.replicate n negation ++ os) = settle os := by
  induction n with
  | zero => rfl
  | succ n ih => simpa [List.replicate_succ] using ih

theorem settle_length_le (os : List Opening) : (settle os).length ≤ os.length :=
  (List.dropWhile_sublist _).length_le

theorem length_le_peak (os : List Opening) (ls : List Lexeme) : os.length ≤ peak os ls := by
  cases ls with
  | nil => exact Nat.le_refl _
  | cons l ls => exact Nat.le_max_left ..

theorem peak_append (os : List Opening) (ls ms : List Lexeme) :
    peak os (ls ++ ms) = max (peak os ls) (peak (ls.foldl behind os) ms) := by
  induction ls generalizing os with
  | nil => simp [peak, Nat.max_eq_right (length_le_peak os ms)]
  | cons l ls ih => simp [peak, ih, Nat.max_assoc]

end Opening

/-- How many `!` and grouping parentheses are open at once in the text at the most. -/
def maxOpen (query : String) : Nat := Opening.peak [] ((lexemes query).map (·.lexeme))

namespace Parse.State

/-- What is open around the innermost group, that group included. -/
def openingsOf (outer : List Group) : List Opening :=
  outer.flatMap fun g => .group :: List.replicate g.negations .negation

/-- What is open in a state, the innermost first. -/
def openings (s : State) : List Opening :=
  List.replicate s.group.negations .negation ++ openingsOf s.outer

@[simp] theorem openingsOf_nil : openingsOf [] = [] := rfl

@[simp] theorem openingsOf_cons (g : Group) (outer : List Group) : openingsOf (g :: outer) =
    .group :: (List.replicate g.negations .negation ++ openingsOf outer) := rfl

@[simp] theorem settle_openingsOf (outer : List Group) :
    Opening.settle (openingsOf outer) = openingsOf outer := by
  cases outer <;> simp

theorem length_openings (s : State) : s.openings.length = s.nesting := by
  have H (outer : List Group) (n : Nat) : n + (openingsOf outer).length =
      outer.foldl (fun n g => n + (g.negations + 1)) n := by
    induction outer generalizing n with
    | nil => rfl
    | cons g outer ih => rw [List.foldl_cons, ← ih]; simp; omega
  rw [openings, List.length_append, List.length_replicate]
  exact H s.outer s.group.negations

/-- Negations wait for an operand, so there are none behind one. -/
def Settled (s : State) : Prop := s.filled = true → s.group.negations = 0

theorem settled_start : Settled {} := fun _ => rfl

theorem settle_negations {s : State} (h : s.Settled) : s.settle.group.negations = 0 := by
  unfold settle
  split
  · rfl
  · rename_i hn
    cases hf : s.filled with
    | true => exact h hf
    | false => simpa [hf] using hn

theorem settle_of_filled {s : State} (h : s.filled = true) : s.settle = s := by
  simp [settle, h]

theorem settle_outer (s : State) : s.settle.outer = s.outer := by
  unfold settle
  split <;> rfl

theorem openings_settle {s : State} (h : s.Settled) :
    s.settle.openings = Opening.settle s.openings := by
  simp only [openings, settle_negations h, settle_outer, Opening.settle_replicate,
    settle_openingsOf, List.replicate_zero, List.nil_append]

/-! ### What a lexeme does -/

/-- The state behind a lexeme that fits. -/
def advance (s : State) : Lexeme → State
  | .conj => { s.settle with filled := false }
  | .disj =>
    if s.settle.filled then { s.settle with group := s.settle.group.next, filled := false }
    else s.settle
  | .groupClose => s.settle.close
  | .unit c => s.operand (c.map .condition)
  | .negation => { s with group := { s.group with negations := s.group.negations + 1 } }
  | .groupOpen => { group := {}, outer := s.group :: s.outer, filled := false }

end Parse.State

/-- Lexemes that open something. -/
def Lexeme.deepens : Lexeme → Bool
  | .negation | .groupOpen => true
  | .conj | .disj | .groupClose | .unit _ => false

theorem Opening.length_behind (os : List Opening) (l : Lexeme) :
    (l.deepens = true → (behind os l).length = os.length + 1) ∧
      (l.deepens = false → (behind os l).length ≤ os.length) := by
  have h := settle_length_le os
  have h' := settle_length_le (settle os).tail
  rw [List.length_tail] at h'
  cases l <;> simp [Lexeme.deepens, behind] <;> omega

namespace Parse.State

/-- A lexeme fits unless it begins an operand right behind another one or goes too deep. -/
theorem step_cases (s : State) (l : Lexeme) :
    ((l.beginsOperand = true → s.filled = false) ∧ (l.deepens = true → s.nesting < maxNesting) ∧
      s.step l = .ok (s.advance l)) ∨
    ((l.beginsOperand = true → s.filled = false) ∧ l.deepens = true ∧ maxNesting ≤ s.nesting ∧
      s.step l = .error .nestingTooDeep) ∨
    (l.beginsOperand = true ∧ s.filled = true ∧ s.step l = .error .expectedConnective) := by
  have no {p : Prop} (h : false = true) : p := absurd h Bool.false_ne_true
  cases l with
  | conj | groupClose => exact .inl ⟨no, no, rfl⟩
  | disj =>
    refine .inl ⟨no, no, ?_⟩
    rw [step, advance]
    rfl
  | unit c =>
    cases hf : s.filled with
    | false => exact .inl ⟨fun _ => rfl, no, by simp [step, open?, hf, advance]; rfl⟩
    | true => exact .inr (.inr ⟨rfl, rfl, by simp [step, open?, hf]; rfl⟩)
  | negation | groupOpen =>
    cases hf : s.filled with
    | true => exact .inr (.inr ⟨rfl, rfl, by simp [step, open?, hf]; rfl⟩)
    | false =>
      by_cases hn : maxNesting ≤ s.nesting
      · exact .inr (.inl ⟨fun _ => rfl, rfl, hn, by simp [step, open?, hf, hn]; rfl⟩)
      · refine .inl ⟨fun _ => rfl, fun _ => Nat.lt_of_not_le hn, ?_⟩
        simp only [step, open?, hf, hn, Bool.false_eq_true, if_false, advance]
        rfl

theorem settled_advance {s : State} (h : s.Settled) {l : Lexeme}
    (hl : l.beginsOperand = true → s.filled = false) : (s.advance l).Settled := by
  cases l with
  | conj | groupOpen =>
    intro hf
    cases hf
  | disj =>
    rw [advance]
    split
    · intro hf
      cases hf
    · exact fun _ => settle_negations h
  | groupClose =>
    rw [advance, close]
    split
    · exact fun _ => settle_negations h
    · exact fun _ => rfl
  | negation => exact fun hf => absurd (hl rfl) (by simpa [advance] using hf)
  | unit c => exact fun _ => rfl

theorem openings_advance {s : State} (h : s.Settled) (l : Lexeme) :
    (s.advance l).openings = Opening.behind s.openings l := by
  cases l with
  | conj => exact openings_settle h
  | disj =>
    rw [advance]
    split <;> exact openings_settle h
  | groupClose =>
    have hn := settle_negations h
    rw [Opening.behind, ← openings_settle h, advance, close]
    split <;> rename_i ho
    · simp [openings, ho, hn]
    · simp [openings, ho, hn, Group.add]
  | unit c => simp [Opening.behind, openings, advance, operand, Group.add]
  | groupOpen | negation => rfl

/-! ### Lexemes in a row -/

/-- Reading the lexemes leads from one state to another, no operand standing beside another. The
limit is left aside. -/
inductive Reads : State → List Lexeme → State → Prop where
  | nil {s : State} : Reads s [] s
  | cons {s t : State} {l : Lexeme} {ls : List Lexeme} :
    (l.beginsOperand = true → s.filled = false) → Reads (s.advance l) ls t → Reads s (l :: ls) t

namespace Reads

variable {s t u : State} {l : Lexeme} {ls ms : List Lexeme}

theorem single (h : l.beginsOperand = true → s.filled = false) : Reads s [l] (s.advance l) :=
  .cons h .nil

/-- A lexeme that begins no operand fits anywhere. -/
theorem mark (h : l.beginsOperand = false) (H : Reads (s.advance l) ls t) : Reads s (l :: ls) t :=
  .cons (fun hl => absurd (h ▸ hl) Bool.false_ne_true) H

theorem append (H : Reads s ls t) (H' : Reads t ms u) : Reads s (ls ++ ms) u := by
  induction H with
  | nil => exact H'
  | cons h _ ih => exact .cons h (ih H')

theorem eq_foldl (H : Reads s ls t) : t = ls.foldl advance s := by
  induction H with
  | nil => rfl
  | cons _ _ ih => exact ih

theorem settled (H : Reads s ls t) (h : s.Settled) : t.Settled := by
  induction H with
  | nil => exact h
  | cons hl _ ih => exact ih (settled_advance h hl)

theorem openings (H : Reads s ls t) (h : s.Settled) :
    t.openings = ls.foldl Opening.behind s.openings := by
  induction H with
  | nil => rfl
  | cons hl _ ih => rw [ih (settled_advance h hl), openings_advance h, List.foldl_cons]

end Reads

/-- The lexemes that are read without an error are those that fit, as long as the limit holds all
along. -/
theorem run_eq_ok_iff {s t : State} (h : s.Settled) (hn : s.nesting ≤ maxNesting)
    {os : List Occurrence} : s.run os = .ok t ↔
      Reads s (os.map (·.lexeme)) t ∧
        Opening.peak s.openings (os.map (·.lexeme)) ≤ maxNesting := by
  induction os generalizing s with
  | nil =>
    rw [← length_openings] at hn
    constructor
    · rintro ⟨⟩
      exact ⟨.nil, hn⟩
    · rintro ⟨⟨⟩, -⟩
      rfl
  | cons o os ih =>
    have hl := Opening.length_behind s.openings o.lexeme
    rw [length_openings, ← openings_advance h, length_openings] at hl
    rw [run, List.map_cons, Opening.peak, length_openings, ← openings_advance h]
    have hp := Opening.length_le_peak (s.advance o.lexeme).openings (os.map (·.lexeme))
    rw [length_openings] at hp
    -- The limit is looked at only where something is opened, but it holds behind every lexeme.
    rcases step_cases s o.lexeme with ⟨hb, hd, hs⟩ | ⟨-, hd, hd', hs⟩ | ⟨hb, hf, hs⟩
    · have hn' : (s.advance o.lexeme).nesting ≤ maxNesting := by
        cases ho : o.lexeme.deepens with
        | true => have := hl.1 ho; have := hd ho; omega
        | false => have := hl.2 ho; omega
      rw [hs]
      refine (ih (settled_advance h hb) hn').trans ?_
      constructor
      · rintro ⟨H, hm⟩
        exact ⟨.cons hb H, Nat.max_le.2 ⟨hn, hm⟩⟩
      · rintro ⟨@⟨⟩ | ⟨-, H⟩, hm⟩
        exact ⟨H, (Nat.max_le.1 hm).2⟩
    · rw [hs]
      constructor
      · intro H
        cases H
      · rintro ⟨-, hm⟩
        have := hl.1 hd
        omega
    · rw [hs]
      constructor
      · intro H
        cases H
      · rintro ⟨@⟨⟩ | ⟨hb', -⟩, -⟩
        exact absurd (hb' hb) (by simp [hf])

/-- Where lexemes fit, only the limit can be in their way. -/
theorem Reads.reason {s t : State} {os : List Occurrence} (H : Reads s (os.map (·.lexeme)) t)
    {o : Occurrence} {reason : SyntaxError.Reason} (he : s.run os = .error (o, reason)) :
    reason = .nestingTooDeep := by
  induction os generalizing s with
  | nil => cases he
  | cons o' os ih =>
    obtain @⟨⟩ | ⟨hb, H⟩ := H
    rw [run] at he
    rcases step_cases s o'.lexeme with ⟨-, -, hs⟩ | ⟨-, -, -, hs⟩ | ⟨hb', hf, -⟩
    · rw [hs] at he
      exact ih H he
    · rw [hs] at he
      cases he
      rfl
    · exact absurd (hb hb') (by simp [hf])

end Parse.State

/-! ### Whole queries -/

namespace Rule

open Parse

theorem run_lexemes_eq_ok_iff {query : String} {t : State} :
    State.run {} (lexemes query) = .ok t ↔
      State.Reads {} ((lexemes query).map (·.lexeme)) t ∧ maxOpen query ≤ maxNesting :=
  State.run_eq_ok_iff State.settled_start (Nat.zero_le _)

/-- Reading a query ends with a rule exactly if its lexemes fit and the limit holds. -/
theorem parse_eq_ok_iff {query : String} {r : Rule} : parse query = .ok r ↔
    ∃ t, State.Reads {} ((lexemes query).map (·.lexeme)) t ∧ maxOpen query ≤ maxNesting ∧
      t.finish.getD empty = r := by
  rw [parse]
  split <;> rename_i hr
  · obtain ⟨H, hm⟩ := run_lexemes_eq_ok_iff.1 hr
    constructor
    · rintro ⟨⟩
      exact ⟨_, H, hm, rfl⟩
    · rintro ⟨t, H', -, rfl⟩
      rw [H'.eq_foldl, H.eq_foldl]
  · constructor
    · intro he
      cases he
    · rintro ⟨t, H, hm, -⟩
      rw [run_lexemes_eq_ok_iff.2 ⟨H, hm⟩] at hr
      cases hr

theorem parse_eq_ok_of_toOption {query : String} {r : Rule}
    (h : (parse query).toOption = some r) : parse query = .ok r := by
  cases hp : parse query with
  | error e =>
    rw [hp] at h
    cases h
  | ok s =>
    rw [hp] at h
    exact congrArg Except.ok (Option.some.inj h)

/-- A query whose lexemes fit can only be refused for nesting too deep. -/
theorem parse_eq_error {query : String} {t : State}
    (H : State.Reads {} ((lexemes query).map (·.lexeme)) t) (hp : maxNesting < maxOpen query) :
    ∃ e, parse query = .error e ∧ e.reason = .nestingTooDeep := by
  rw [parse]
  split <;> rename_i hr
  · have := (run_lexemes_eq_ok_iff.1 hr).2
    omega
  · exact ⟨_, rfl, H.reason hr⟩

end Rule
end FilterQuery
