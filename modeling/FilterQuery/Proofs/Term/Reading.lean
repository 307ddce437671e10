import FilterQuery.Proofs.Query.Conditions
import FilterQuery.Proofs.Term.Legality

/-!
Terms as a query. Legal terms spell lexemes that fit one behind the other, a condition being one
lexeme of one to three terms. So the query of an editor without an error is refused only for nesting
too deep, and it names a condition for each column among the terms.
-/

namespace FilterQuery

open Text

/-! ### Terms as lexemes -/

/-- Values that have a text. -/
def Value.Stated : Value → Prop
  | flag _ => False
  | text _ => True
  | list items => items ≠ []

/-- Columns and values are spelled as they are in canonical texts. -/
def Token.Canonical (t : Token) : Prop :=
  match t.kind with
  | .column => ∃ column, t.raw = Percent.encode column
  | .value => ∃ v : Value, v.Stated ∧ t.raw = v.render
  | _ => True

/-- The terms of a condition. A column alone is a test, and where no value follows an operator the
column is compared with the empty text. -/
inductive Condition.Terms : Condition → List Token → Prop where
  | test {column : String} {t : Token} : t.word = (.column, Percent.encode column) →
    Terms { column, comparison := .eq, value := .flag true } [t]
  | blank {column : String} {op : Comparison} {t u : Token} :
    t.word = (.column, Percent.encode column) → u.word = (.operator, op.symbol) →
    Terms { column, comparison := op, value := .text "" } [t, u]
  | comparison {column : String} {op : Comparison} {v : Value} {t u w : Token} :
    t.word = (.column, Percent.encode column) → u.word = (.operator, op.symbol) →
    w.word = (.value, v.render) → v.Stated → Terms { column, comparison := op, value := v } [t, u, w]

/-- The term that a lexeme is, if it is no unit. -/
def Lexeme.mark? : Lexeme → Option (TokenKind × String)
  | conj => some (.logical, "&")
  | disj => some (.logical, "|")
  | negation => some (.logical, "!")
  | groupOpen => some (.groupOpen, "(")
  | groupClose => some (.groupClose, ")")
  | unit _ => none

/-- The terms spell the lexemes one after another. -/
inductive Spells : List Token → List Lexeme → Prop where
  | nil : Spells [] []
  | mark {l : Lexeme} {t : Token} {ts : List Token} {ls : List Lexeme} : l.mark? = some t.word →
    Spells ts ls → Spells (t :: ts) (l :: ls)
  | unit {c : Condition} {us ts : List Token} {ls : List Lexeme} : c.Terms us → Spells ts ls →
    Spells (us ++ ts) (.unit (some c) :: ls)

namespace Condition.Terms

variable {c : Condition} {us : List Token}

theorem positive_eq (H : c.Terms us) : c.positive = c := by
  cases H with
  | @comparison column op v t u w _ _ _ hv =>
    cases v with
    | flag set => cases hv
    | _ => rfl
  | _ => rfl

theorem wellFormed (H : c.Terms us) (hc : c.column ≠ "") : c.WellFormed where
  column_ne := hc
  value_ne := by
    cases H with
    | @comparison column op v t u w _ _ _ hv =>
      rintro rfl
      exact hv rfl
    | _ => simp

theorem flatMap_raw (H : c.Terms us) : us.flatMap (·.raw.toList) = c.spelling := by
  have raw {t : Token} {k : TokenKind} {s : String} (h : t.word = (k, s)) : t.raw = s :=
    (Prod.mk.inj h).2
  cases H with
  | test ht => simp [raw ht, spelling, Percent.encode]
  | blank ht hu =>
    simp [raw ht, raw hu, spelling, Percent.encode, Percent.encodeChars, Comparison.symbol,
      Value.render]
  | @comparison column op v t u w ht hu hw hv =>
    cases v with
    | flag set => cases hv
    | _ => simp [raw ht, raw hu, raw hw, spelling, Percent.encode, Comparison.symbol]

end Condition.Terms

theorem Lexeme.spelling_of_mark? {l : Lexeme} {t : Token} (h : l.mark? = some t.word) :
    l.spelling = t.raw.toList := by
  cases l with
  | unit c => cases h
  | _ =>
    obtain ⟨-, hr⟩ := Prod.mk.inj (Option.some.inj h)
    rw [← hr]
    rfl

namespace Spells

variable {ts : List Token} {ls : List Lexeme}

theorem rawOf_eq (H : Spells ts ls) : TermIndex.rawOf ts = String.ofList (Lexeme.spell ls) := by
  rw [← String.toList_inj, String.toList_ofList, TermIndex.rawOf, String.toList_join,
    List.flatMap_map]
  induction H with
  | nil => rfl
  | mark hl _ ih =>
    rw [List.flatMap_cons, ih, ← Lexeme.spelling_of_mark? hl]
    rfl
  | unit hc _ ih =>
    rw [List.flatMap_append, ih, hc.flatMap_raw]
    rfl

theorem map_positive (H : Spells ts ls) : ls.map Lexeme.positive = ls := by
  induction H with
  | nil => rfl
  | @mark l t ts ls hl _ ih =>
    rw [List.map_cons, ih]
    cases l with
    | unit c => cases hl
    | _ => rfl
  | unit hc _ ih => rw [List.map_cons, ih, Lexeme.positive, Option.map_some, hc.positive_eq]

end Spells

/-! ### Legal terms can be read -/

/-- Lexemes behind which an operand has just ended. -/
def Lexeme.fills : Lexeme → Bool
  | groupClose | unit _ => true
  | _ => false

namespace Parse.State

theorem filled_advance {s : State} {l : Lexeme} (h : s.filled = !l.beginsOperand) :
    (s.advance l).filled = l.fills := by
  cases l with
  | negation => exact h
  | disj =>
    rw [advance, settle_of_filled h]
    simp only [show s.filled = true from h, if_true]
    rfl
  | groupClose =>
    rw [advance, settle_of_filled h, close]
    split
    · exact h
    · rfl
  | _ => rfl

end Parse.State

/-- Terms that can be read where an operand may begin, or right behind one. -/
def Readable (filled : Bool) (ts : List Token) : Prop :=
  ∃ ls, Spells ts ls ∧ (∀ l ∈ ls, l.WellFormed) ∧
    ∀ s : Parse.State, s.filled = filled → ∃ t, Parse.State.Reads s ls t

namespace Readable

variable {ts us : List Token}

theorem nil {filled : Bool} : Readable filled [] :=
  ⟨[], .nil, List.forall_mem_nil _, fun s _ => ⟨s, .nil⟩⟩

theorem cons {l : Lexeme} {ls : List Lexeme} (hw : l.WellFormed) (hws : ∀ l ∈ ls, l.WellFormed)
    (hs : Spells us (l :: ls))
    (H : ∀ s : Parse.State, s.filled = l.fills → ∃ t, Parse.State.Reads s ls t) :
    Readable (!l.beginsOperand) us := by
  refine ⟨l :: ls, hs, List.forall_mem_cons.2 ⟨hw, hws⟩, fun s hf => ?_⟩
  obtain ⟨t, ht⟩ := H (s.advance l) (Parse.State.filled_advance hf)
  exact ⟨t, .cons (fun hb => by rw [hf, hb]; rfl) ht⟩

theorem mark {l : Lexeme} {t : Token} (hl : l.mark? = some t.word) (H : Readable l.fills ts) :
    Readable (!l.beginsOperand) (t :: ts) := by
  obtain ⟨ls, hs, hw, H⟩ := H
  refine cons ?_ hw (.mark hl hs) H
  cases l with
  | unit c => cases hl
  | _ => trivial

theorem unit {c : Condition} (hc : c.Terms us) (hn : c.column ≠ "") (H : Readable true ts) :
    Readable false (us ++ ts) := by
  obtain ⟨ls, hs, hw, H⟩ := H
  exact cons (l := .unit (some c)) ⟨c, rfl, hc.wellFormed hn⟩ hw (.unit hc hs) H

end Readable

/-- The terms of a condition that have come so far, where the next one is expected. -/
inductive Pending : Expect → List Token → Prop where
  | column : Pending .column []
  | operator {column : String} {t : Token} : column ≠ "" →
    t.word = (.column, Percent.encode column) → Pending .operator [t]
  | value {column : String} {op : Comparison} {t u : Token} : column ≠ "" →
    t.word = (.column, Percent.encode column) → u.word = (.operator, op.symbol) →
    Pending .value [t, u]
  | connective : Pending .connective []

/-- Behind a column a condition may end with any term. -/
theorem Pending.readable {e : Expect} {us ts : List Token} (H : Pending e us) (he : e ≠ .column)
    (h : Readable true ts) : Readable (e = .connective) (us ++ ts) := by
  cases H with
  | column => exact absurd rfl he
  | operator hc ht => exact .unit (.test ht) hc h
  | value hc ht hu => exact .unit (.blank ht hu) hc h
  | connective => exact h

theorem Token.Fits.column_ne {e : Expect} {depth : Nat} {t : Token} {column : String}
    (H : t.Fits e depth) (hk : t.kind = .column) (hr : t.raw = Percent.encode column) :
    column ≠ "" := by
  rintro rfl
  rw [Fits, hk] at H
  exact H.2 (congrArg trimmed (text_of_raw (hk ▸ rfl) hr))

/-- **Legal terms can be read**, together with the terms of a condition in front of them. -/
theorem Legal.readable {e : Expect} {depth : Nat} {ts us : List Token} (H : Legal e depth ts)
    (h : ∀ t ∈ ts, t.Canonical) (hu : Pending e us) : Readable (e = .connective) (us ++ ts) := by
  induction H generalizing us with
  | @nil e _ =>
    by_cases he : e = .column
    · subst he
      cases hu
      exact .nil
    · exact hu.readable he .nil
  | @cons e depth t ts ht _ ih =>
    obtain ⟨hc, h⟩ := List.forall_mem_cons.1 h
    have ih {us} := @ih us h
    have hfit := ht
    rw [Token.Fits] at ht
    rw [Token.Canonical] at hc
    -- A term of a condition waits for the next one; any other term ends the condition before it.
    cases hk : t.kind with
    | column =>
      simp only [hk] at ht hc ih
      obtain ⟨rfl, -⟩ := ht
      obtain ⟨column, hr⟩ := hc
      cases hu
      exact ih (.operator (hfit.column_ne hk hr) (Prod.ext hk hr))
    | operator =>
      simp only [hk] at ht ih
      obtain ⟨rfl, op, hr⟩ := ht
      obtain @⟨-⟩ | @⟨column, u, hn, hu⟩ := hu
      exact ih (.value hn hu (Prod.ext hk hr))
    | value =>
      simp only [hk] at ht hc ih
      obtain rfl := ht
      obtain ⟨v, hv, hr⟩ := hc
      obtain @⟨-⟩ | ⟨-⟩ | @⟨column, op, u, w, hn, hu, hw⟩ := hu
      have H : Readable false ([u, w, t] ++ ts) :=
        .unit (.comparison hu hw (Prod.ext hk hr) hv) hn (ih .connective)
      exact H
    | logical =>
      simp only [hk] at ht ih
      split at ht <;> rename_i he
      · subst he
        cases hu
        exact .mark (l := .negation) (congrArg some (Prod.ext hk ht).symm) (ih .column)
      · refine hu.readable he ?_
        rcases ht with hr | hr
        · exact .mark (l := .conj) (congrArg some (Prod.ext hk hr).symm) (ih .column)
        · exact .mark (l := .disj) (congrArg some (Prod.ext hk hr).symm) (ih .column)
    | groupOpen =>
      simp only [hk] at ht ih
      obtain ⟨rfl, hr⟩ := ht
      cases hu
      exact .mark (l := .groupOpen) (congrArg some (Prod.ext hk hr).symm) (ih .column)
    | groupClose =>
      simp only [hk] at ht ih
      obtain ⟨he, -, hr⟩ := ht
      refine hu.readable he ?_
      exact .mark (l := .groupClose) (congrArg some (Prod.ext hk hr).symm) (ih .connective)

/-! ### The query of an editor -/

namespace Editor

/-- **An editor without an error holds a query that can be read.** It is refused exactly if more is
open at once than the limit allows. Otherwise its rule has the conditions that the terms spell, a
test being negated or not. -/
theorem parse_of_validate {ed : Editor} (h : ed.validate = none)
    (hc : ∀ t ∈ ed.terms.tokens, t.Canonical) :
    ∃ ls, Spells ed.terms.tokens ls ∧
      (Opening.peak [] ls ≤ maxNesting → ∃ r, Rule.parse ed.query = .ok r ∧
        r.conditions.map Condition.positive = ls.flatMap Lexeme.named) ∧
      (maxNesting < Opening.peak [] ls →
        ∃ e, Rule.parse ed.query = .error e ∧ e.reason = .nestingTooDeep) := by
  obtain ⟨ls, hs, hw, H⟩ := (validate_eq_none_iff.1 h).readable hc .column
  obtain ⟨t, H⟩ := H {} rfl
  have hq : ed.query = String.ofList (Lexeme.spell ls) := hs.rawOf_eq
  refine ⟨ls, hs, fun hm => ?_, fun hm => ?_⟩
  · rw [hq]
    exact Rule.named_of_spell hw hs.map_positive H hm
  · rw [hq]
    exact Rule.parse_spell_error hw hs.map_positive H hm

theorem parse_of_validate_unclosed :
    let ed : Editor := { terms := ⟨[.symbol .logical "!", .symbol .logical "!",
      .symbol .groupOpen "(", .freeText .column "a b", .symbol .operator ">", .symbol .logical "&",
      .symbol .logical "!", .symbol .groupOpen "(", .freeText .column "ü", .symbol .operator "=",
      { kind := .value, raw := (Value.list ["x", "y|z"]).render, label := "" },
      .symbol .logical "|", .freeText .column "c", .symbol .logical "&"]⟩ }
    ∃ ls r, Spells ed.terms.tokens ls ∧ Rule.parse ed.query = .ok r ∧
      r.conditions.map Condition.positive = ls.flatMap Lexeme.named ∧
      ls.flatMap Lexeme.named = [⟨"a b", .gt, .text "", {}⟩,
        ⟨"ü", .eq, .list ["x", "y|z"], {}⟩, ⟨"c", .eq, .flag true, {}⟩] := by
  intro ed
  have hv : ed.validate = none := by decide +kernel
  have hc : ∀ t ∈ ed.terms.tokens, t.Canonical := by
    simp only [ed, List.forall_mem_cons]
    have hl : (Value.list ["x", "y|z"]).Stated := List.cons_ne_nil _ _
    exact ⟨trivial, trivial, trivial, ⟨_, rfl⟩, trivial, trivial, trivial, trivial, ⟨_, rfl⟩, trivial,
      ⟨_, hl, rfl⟩, trivial, ⟨_, rfl⟩, trivial, List.forall_mem_nil _⟩
  have hp : (Rule.parse ed.query).toOption.map (·.conditions.map Condition.positive) =
      some [⟨"a b", .gt, .text "", {}⟩, ⟨"ü", .eq, .list ["x", "y|z"], {}⟩,
        ⟨"c", .eq, .flag true, {}⟩] := by
    decide +kernel
  obtain ⟨ls, hs, hok, herr⟩ := parse_of_validate hv hc
  rcases Nat.lt_or_ge maxNesting (Opening.peak [] ls) with hm | hm
  · obtain ⟨e, he, -⟩ := herr hm
    rw [he] at hp
    cases hp
  · obtain ⟨r, hr, hn⟩ := hok hm
    rw [hr] at hp
    exact ⟨ls, r, hs, hr, hn, hn.symm.trans (Option.some.inj hp)⟩

end Editor
end FilterQuery
