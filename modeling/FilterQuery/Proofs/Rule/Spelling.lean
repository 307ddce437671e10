import FilterQuery.Proofs.Query.Annotation
import FilterQuery.Proofs.Rule.Normal

/-!
The canonical text of a rule, lexeme by lexeme. The pieces of a rule are the lexemes of its text, a
condition being one lexeme of one to three pieces, and the text is that of these lexemes.
-/

namespace FilterQuery

open Text

namespace Fragment

/-- The lexeme that a piece completes. -/
def lexeme? : Fragment → Option Lexeme
  | column c =>
    match c.value with
    | .flag _ => some (.unit (some c.positive))
    | _ => none
  | operator _ => none
  | value c => some (.unit (some c.positive))
  | negation => some .negation
  | separator op _ => some (if op = .all then .conj else .disj)
  | groupOpen => some .groupOpen
  | groupClose => some .groupClose

/-- Pieces that belong to no condition. -/
def isMark : Fragment → Bool
  | column _ | operator _ | value _ => false
  | negation | separator _ _ | groupOpen | groupClose => true

end Fragment

/-- The lexemes of the pieces of a text. -/
def lexemesOf (fs : List (Path × Fragment)) : List Lexeme := fs.filterMap (·.2.lexeme?)

/-- The text of pieces in a row. -/
def textOf (fs : List (Path × Fragment)) : List Char := fs.flatMap (·.2.raw.toList)

@[simp] theorem lexemesOf_append (fs gs : List (Path × Fragment)) :
    lexemesOf (fs ++ gs) = lexemesOf fs ++ lexemesOf gs := List.filterMap_append

@[simp] theorem lexemesOf_beneath (i : Nat) (fs : List (Path × Fragment)) :
    lexemesOf (Rule.beneath i fs) = lexemesOf fs := by
  simp [lexemesOf, Rule.beneath, List.filterMap_map]

namespace Condition

/-- The lexemes of a condition. -/
def lexemes (c : Condition) : List Lexeme :=
  if c.value = .flag false then [.negation, .unit (some c.positive)]
  else [.unit (some c.positive)]

theorem lexemesOf_fragments (c : Condition) : lexemesOf (c.fragments.map ([], ·)) = c.lexemes := by
  obtain ⟨column, op, value, note⟩ := c
  cases value with
  | flag b => cases b <;> rfl
  | _ => rfl

end Condition

namespace Rule

variable {op : Connective} {rs : List Rule}

/-- The lexemes of a rule, as an operand or by itself. -/
def spelling (operand : Bool) (r : Rule) : List Lexeme := lexemesOf (r.write operand)

/-- The children that are written. -/
def written (rs : List Rule) : List Rule := rs.filter (!·.isVacant)

theorem length_written (rs : List Rule) : (written rs).length = visible rs := by
  rw [written, visible, List.countP_eq_length_filter]

@[simp] theorem mem_written {r : Rule} : r ∈ written rs ↔ r ∈ rs ∧ r.isVacant = false := by
  simp [written]

/-- A chain with something to write has one written child or several. -/
theorem written_cases (h : written rs ≠ []) :
    (∃ w, written rs = [w] ∧ ¬ 2 ≤ visible rs) ∨ 2 ≤ visible rs := by
  rw [← length_written]
  match hw : written rs with
  | [] => exact absurd hw h
  | [w] => exact .inl ⟨w, rfl, by simp⟩
  | v :: w :: ws => exact .inr (by simp)

/-- What stands between the children of a chain. -/
def separator (op : Connective) : Lexeme := if op = .all then .conj else .disj

/-- Spellings in a row, with a separator between any two. -/
def separated (sep : Lexeme) : List (List Lexeme) → List Lexeme
  | [] => []
  | ls :: lss => ls ++ lss.flatMap (sep :: ·)

/-- A spelling in parentheses. -/
def grouped (ls : List Lexeme) : List Lexeme := .groupOpen :: ls ++ [.groupClose]

theorem written_cons_of_vacant {r : Rule} (h : r.isVacant = true) :
    written (r :: rs) = written rs := by
  simp [written, h]

theorem written_cons {r : Rule} (h : r.isVacant = false) :
    written (r :: rs) = r :: written rs := by
  simp [written, h]

theorem lexemesOf_writeChildren (operand : Bool) (op : Connective) (follows : Bool) (i : Nat)
    (rs : List Rule) : lexemesOf (writeChildren operand op follows i rs) =
      if follows then ((written rs).map (spelling operand)).flatMap (separator op :: ·)
      else separated (separator op) ((written rs).map (spelling operand)) := by
  induction rs generalizing follows i with
  | nil => cases follows <;> rfl
  | cons r rs ih =>
    rw [writeChildren]
    split <;> rename_i hv
    · rw [ih, written_cons_of_vacant hv]
    · rw [written_cons (by simpa using hv), lexemesOf_append, lexemesOf_append, ih,
        lexemesOf_beneath]
      cases follows <;> rfl

theorem lexemesOf_enclose (group : Bool) (fs : List (Path × Fragment)) :
    lexemesOf (enclose group fs) = if group then grouped (lexemesOf fs) else lexemesOf fs := by
  cases group with
  | false => rfl
  | true => exact lexemesOf_append (([], .groupOpen) :: fs) _

@[simp] theorem spelling_condition (operand : Bool) (c : Condition) :
    (condition c).spelling operand = c.lexemes := by
  rw [spelling, write, Condition.lexemesOf_fragments]

theorem spelling_none (operand : Bool) (rs : List Rule) : (chain .none rs).spelling operand =
    .negation ::
      if needsGroup rs then grouped (separated .disj ((written rs).map (spelling true)))
      else separated .disj ((written rs).map (spelling true)) := by
  have hw : (chain .none rs).spelling operand = .negation ::
      lexemesOf (enclose (needsGroup rs) (writeChildren true .any false 0 rs)) := by
    rw [spelling, write]
    rfl
  rw [hw, lexemesOf_enclose, lexemesOf_writeChildren]
  rfl

theorem write_chain (operand : Bool) (h : op ≠ .none) (rs : List Rule) :
    (chain op rs).write operand = enclose (operand && decide (2 ≤ visible rs))
      (writeChildren (operand || decide (2 ≤ visible rs)) op false 0 rs) := by
  cases op <;> first | exact absurd rfl h | rw [write]; intro h; cases h

/-- A chain is written as its children, possibly in parentheses and behind a `!`. -/
theorem write_chain_cases (operand : Bool) (op : Connective) (rs : List Rule) :
    ∃ group inner op', (chain op rs).write operand =
        enclose group (writeChildren inner op' false 0 rs) ∨
      (chain op rs).write operand =
        ([], .negation) :: enclose group (writeChildren inner op' false 0 rs) := by
  by_cases h : op = .none
  · subst h
    exact ⟨needsGroup rs, true, .any, .inr (by rw [write])⟩
  · exact ⟨_, _, _, .inl (write_chain operand h rs)⟩

theorem spelling_chain (operand : Bool) (h : op ≠ .none) (rs : List Rule) :
    (chain op rs).spelling operand =
      let several : Bool := 2 ≤ visible rs
      let body := separated (separator op) ((written rs).map (spelling (operand || several)))
      if operand && several then grouped body else body := by
  rw [spelling, write_chain operand h, lexemesOf_enclose, lexemesOf_writeChildren]
  rfl

/-! ### The text -/

/-- What holds of single marks and of the pieces of each condition, and of pieces put together,
holds of the pieces of the rule. -/
theorem write_of {P : List (Path × Fragment) → Prop} (nil : P [])
    (append : ∀ {fs gs}, P fs → P gs → P (fs ++ gs))
    (beneath : ∀ {i fs}, P fs → P (beneath i fs))
    (mark : ∀ f : Fragment, f.isMark = true → P [([], f)]) (r : Rule) (operand : Bool)
    (condition : ∀ c ∈ r.conditions, P (c.fragments.map ([], ·))) : P (r.write operand) := by
  have enclosed {group : Bool} {fs : List (Path × Fragment)} (h : P fs) : P (enclose group fs) := by
    cases group with
    | false => exact h
    | true => exact append (append (mark .groupOpen rfl) h) (mark .groupClose rfl)
  induction r using induction generalizing operand with
  | condition c =>
    rw [write]
    exact condition c List.mem_cons_self
  | chain op rs ih =>
    have children {operand follows : Bool} {op : Connective} {i : Nat} :
        P (writeChildren operand op follows i rs) := by
      rw [conditions_chain] at condition
      induction rs generalizing follows i with
      | nil => exact nil
      | cons r rs ihs =>
        have hr := fun operand => ih r List.mem_cons_self operand fun c hc =>
          condition c (List.mem_append_left _ hc)
        have ihs := @ihs (fun r hr => ih r (List.mem_cons_of_mem _ hr))
          (fun c hc => condition c (List.mem_append_right _ hc))
        rw [writeChildren]
        split
        · exact ihs
        · refine append (append ?_ (beneath (hr operand))) ihs
          split
          · exact mark (.separator op i) rfl
          · exact nil
    obtain ⟨group, inner, op', h⟩ := write_chain_cases operand op rs
    rcases h with h | h <;> rw [h]
    · exact enclosed children
    · exact append (mark .negation rfl) (enclosed children)

theorem spell_lexemes (c : Condition) :
    textOf (c.fragments.map ([], ·)) = Lexeme.spell c.lexemes := by
  obtain ⟨column, op, value, note⟩ := c
  cases value with
  | flag b =>
    cases b <;> simp [Condition.fragments, Condition.lexemes, textOf, Lexeme.spell,
      Lexeme.spelling, Condition.spelling, Condition.positive, Fragment.raw, Percent.encode]
  | _ =>
    simp [Condition.fragments, Condition.lexemes, textOf, Lexeme.spell, Lexeme.spelling,
      Condition.spelling, Condition.positive, Condition.bare, Fragment.raw, Percent.encode,
      Comparison.symbol]

end Rule

/-- The pieces put together are the text of their lexemes, as they are where no condition is cut. -/
def Whole (fs : List (Path × Fragment)) : Prop := textOf fs = Lexeme.spell (lexemesOf fs)

namespace Whole

variable {fs gs : List (Path × Fragment)}

theorem textOf_append (fs gs : List (Path × Fragment)) :
    textOf (fs ++ gs) = textOf fs ++ textOf gs := List.flatMap_append

theorem spell_lexemesOf_append (fs gs : List (Path × Fragment)) :
    Lexeme.spell (lexemesOf (fs ++ gs)) =
      Lexeme.spell (lexemesOf fs) ++ Lexeme.spell (lexemesOf gs) := by
  rw [lexemesOf_append]
  exact List.flatMap_append

theorem append (H : Whole fs) (H' : Whole gs) : Whole (fs ++ gs) := by
  rw [Whole, textOf_append, spell_lexemesOf_append, H, H']

/-! Of whole pieces each part is whole if the other one is. -/

theorem left (H : Whole (fs ++ gs)) (H' : Whole gs) : Whole fs := by
  rw [Whole, textOf_append, spell_lexemesOf_append, H'] at H
  exact List.append_cancel_right H

theorem right (H : Whole (fs ++ gs)) (H' : Whole fs) : Whole gs := by
  rw [Whole, textOf_append, spell_lexemesOf_append, H'] at H
  exact List.append_cancel_left H

theorem beneath (H : Whole fs) (i : Nat) : Whole (Rule.beneath i fs) := by
  rw [Whole, lexemesOf_beneath, ← H]
  exact List.flatMap_map ..

theorem mark {f : Fragment} (hf : f.isMark = true) (path : Path) : Whole [(path, f)] := by
  rw [Whole]
  cases f with
  | separator op i =>
    cases op <;> simp [textOf, lexemesOf, Fragment.raw, Fragment.lexeme?,
      Connective.separator, Lexeme.spell, Lexeme.spelling]
  | column | operator | value => cases hf
  | _ => simp [textOf, lexemesOf, Fragment.raw, Fragment.lexeme?, Lexeme.spell, Lexeme.spelling]

theorem condition (c : Condition) : Whole (c.fragments.map ([], ·)) := by
  rw [Whole, Rule.spell_lexemes, Condition.lexemesOf_fragments]

end Whole

namespace Rule

theorem whole_write (r : Rule) (operand : Bool) : Whole (r.write operand) :=
  write_of (P := Whole) rfl .append (fun H => H.beneath _) (fun _ hf => .mark hf []) r operand
    fun c _ => .condition c

/-- The pieces of a rule put together are the text of its lexemes. -/
theorem textOf_write (r : Rule) (operand : Bool) :
    textOf (r.write operand) = Lexeme.spell (r.spelling operand) := whole_write r operand

/-- The canonical text has no lexemes but those of its conditions and the marks between them. -/
theorem spelling_of {P : Lexeme → Prop} (mark : ∀ l, (∀ c, l ≠ .unit c) → P l) (r : Rule)
    (operand : Bool) (condition : ∀ c ∈ r.conditions, P (.unit (some c.positive))) :
    ∀ l ∈ r.spelling operand, P l := by
  refine write_of (P := fun fs => ∀ l ∈ lexemesOf fs, P l) (List.forall_mem_nil _) ?_ ?_ ?_ r operand ?_
  · intro fs gs hf hg l hl
    rw [lexemesOf_append, List.mem_append] at hl
    exact hl.elim (hf l) (hg l)
  · intro i fs hf
    rwa [lexemesOf_beneath]
  · intro f hf l hl
    refine mark l fun c hc => ?_
    subst hc
    cases f with
    | separator op i => cases op <;> simp [lexemesOf, Fragment.lexeme?] at hl
    | column | operator | value => cases hf
    | _ => simp [lexemesOf, Fragment.lexeme?] at hl
  · intro c hc
    rw [Condition.lexemesOf_fragments, Condition.lexemes]
    split
    · simp only [List.mem_cons, List.not_mem_nil, or_false, forall_eq_or_imp, forall_eq]
      exact ⟨mark _ (by simp), condition c hc⟩
    · simpa using condition c hc

end Rule

theorem Condition.WellFormed.positive {c : Condition} (h : c.WellFormed) : c.positive.WellFormed := by
  obtain ⟨column, op, value, note⟩ := c
  cases value with
  | flag b => exact ⟨h.column_ne, by simp [Condition.positive]⟩
  | _ => exact ⟨h.column_ne, h.value_ne⟩

theorem Condition.positive_positive (c : Condition) : c.positive.positive = c.positive := by
  obtain ⟨column, op, value, note⟩ := c
  cases value <;> rfl

namespace Rule

theorem wellFormed_spelling {r : Rule} (h : ∀ c ∈ r.conditions, c.WellFormed) (operand : Bool) :
    ∀ l ∈ r.spelling operand, l.WellFormed := by
  refine spelling_of ?_ r operand fun c hc => ⟨_, rfl, (h c hc).positive⟩
  intro l hl
  cases l with
  | unit c => exact absurd rfl (hl c)
  | _ => trivial

theorem map_positive_spelling (r : Rule) (operand : Bool) :
    (r.spelling operand).map Lexeme.positive = r.spelling operand := by
  refine (List.map_congr_left (spelling_of ?_ r operand fun c _ => ?_)).trans (List.map_id _)
  · intro l hl
    cases l with
    | unit c => exact absurd rfl (hl c)
    | _ => rfl
  · exact congrArg (fun d => Lexeme.unit (some d)) c.positive_positive

/-- The lexemes of the canonical text. -/
def canonical (r : Rule) : List Lexeme := if r.isVacant then [] else r.spelling false

theorem render_eq (r : Rule) : r.render = String.ofList (Lexeme.spell r.canonical) := by
  rw [← String.toList_inj, String.toList_ofList, render, String.toList_join, List.flatMap_map,
    fragments, canonical]
  split
  · rfl
  · exact textOf_write r false

end Rule
end FilterQuery
