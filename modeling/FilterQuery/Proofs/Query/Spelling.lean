import FilterQuery.Proofs.Text.Percent
import FilterQuery.Proofs.Text.Trim
import FilterQuery.Query.Lexeme
import FilterQuery.Rule.Fragment

/-!
Lexemes as text. A query that is written lexeme by lexeme is read as these lexemes, each at the
place where it was written, provided that no unit is followed by something that would extend it.
-/

namespace FilterQuery

open Text

namespace Condition

/-- A condition that can be written: its column has a name and its list has an item. -/
structure WellFormed (c : Condition) : Prop where
  column_ne : c.column ≠ ""
  value_ne : c.value ≠ .list []

/-- The text of a condition, without the `!` of a negative test. -/
def spelling (c : Condition) : List Char :=
  Percent.encodeChars c.column.toList ++
    match c.value with
    | .flag _ => []
    | v => c.comparison.spelling ++ v.render.toList

/-- What that text says: a test is a positive one, and the comparison of a test is not written. -/
def positive (c : Condition) : Condition :=
  match c.value with
  | .flag _ => { column := c.column, comparison := .eq, value := .flag true }
  | _ => c.bare

/-- Where the parts of that text stand when it begins at `p`. -/
def noteAt (p : Nat) (c : Condition) : Annotation :=
  let operator := p + byteSize (Percent.encodeChars c.column.toList)
  let value := operator + byteSize c.comparison.spelling
  match c.value with
  | .flag _ => { column := p }
  | .text s => { column := p, operator, value := if s = "" then none else some value }
  | .list _ => { column := p, operator, value }

/-- The condition that is read from that text when it begins at `p`. -/
def readAt (p : Nat) (c : Condition) : Condition :=
  { c.positive with note := c.noteAt p }

@[simp] theorem bare_positive (c : Condition) : c.positive.bare = c.positive := by
  unfold positive
  split <;> rfl

@[simp] theorem bare_readAt (p : Nat) (c : Condition) : (c.readAt p).bare = c.positive :=
  bare_positive c

end Condition

theorem not_mem_delimiters_of_isCoded {c : Char} (h : Percent.IsCoded c) : c ∉ delimiters := by
  have H : delimiters.all (fun d => !Percent.isKept d && d != '%') = true := by decide
  intro hc
  have H := List.all_eq_true.1 H c hc
  rcases h with h | rfl
  · simp [h] at H
  · simp at H

namespace Scanner

/-- Text that ends at the end of the query or in front of one of the characters in `stops`. -/
def StopsAt (stops : List Char) (rest : List Char) : Prop := ∀ c ∈ rest.head?, c ∈ stops

theorem takeWhile_append {p : Char → Bool} {u rest : List Char} (hu : ∀ c ∈ u, p c = true)
    (hr : ∀ c ∈ rest.head?, p c = false) : (u ++ rest).takeWhile p = u := by
  have hn : rest.takeWhile p = [] := by
    cases rest with
    | nil => rfl
    | cons c rest => rw [List.takeWhile_cons_of_neg (by simp [hr c rfl])]
  rw [List.takeWhile_append_of_pos hu, hn, List.append_nil]

theorem skipWhile_append {p : Char → Bool} {u rest : List Char} (hu : ∀ c ∈ u, p c = true)
    (hr : ∀ c ∈ rest.head?, p c = false) (n : Nat) :
    (⟨n, u ++ rest⟩ : Scanner).skipWhile p = ⟨n + byteSize u, rest⟩ := by
  have hd : rest.dropWhile p = rest := by
    cases rest with
    | nil => rfl
    | cons c rest => rw [List.dropWhile_cons_of_neg (by simp [hr c rfl])]
  rw [skipWhile, takeWhile_append hu hr, List.dropWhile_append_of_pos hu, hd]

theorem skipBlanks_append {u rest : List Char} (hu : ∀ c ∈ u, isBlank c = true)
    (hr : ∀ c ∈ rest.head?, isBlank c = false) (n : Nat) :
    (⟨n, u ++ rest⟩ : Scanner).skipBlanks = ⟨n + byteSize u, rest⟩ :=
  skipWhile_append hu hr n

/-- Coded text is read as a run up to the delimiter behind it. -/
theorem readRun_encodeChars (cs : List Char) {rest : List Char} (h : StopsAt delimiters rest)
    (p : Nat) : (⟨p, Percent.encodeChars cs ++ rest⟩ : Scanner).readRun delimiters =
      (⟨Percent.encodeChars cs, p⟩, ⟨p + byteSize (Percent.encodeChars cs), rest⟩) := by
  have coded : ∀ c ∈ Percent.encodeChars cs, Percent.IsCoded c :=
    fun c hc => Percent.isCoded_of_mem_encodeChars hc
  generalize Percent.encodeChars cs = ds at coded
  have blank : ∀ c ∈ ds, isBlank c = false := fun c hc => (coded c hc).not_isBlank
  have inRun : ∀ c ∈ ds, (!delimiters.contains c) = true := by
    intro c hc
    simpa using not_mem_delimiters_of_isCoded (coded c hc)
  have stop : ∀ c ∈ rest.head?, (!delimiters.contains c) = false := by
    intro c hc
    simpa using h c hc
  have lead : ds.takeWhile isBlank = [] := by
    cases ds with
    | nil => rfl
    | cons c ds => simp [blank c List.mem_cons_self]
  simp only [readRun, takeWhile_append inRun stop, skipWhile_append inRun stop,
    trim_of_not_isBlank blank, lead, ite_self, byteSize_nil, Nat.add_zero]

/-- Of two operators that begin alike the longer one is read, so neither `>` nor `<` may be followed
by a `=`. -/
theorem readComparison?_spelling (op : Comparison) {rest : List Char}
    (h : op = .gt ∨ op = .lt → rest.head? ≠ some '=') (p : Nat) :
    (⟨p, op.spelling ++ rest⟩ : Scanner).readComparison? =
      some (op, ⟨p + byteSize op.spelling, rest⟩) := by
  have hp (ho : op = .gt ∨ op = .lt) : ¬ ['='] <+: rest := by
    rintro ⟨t, rfl⟩
    exact h ho rfl
  cases op with
  | gt | lt =>
    simp [readComparison?, eatAll?, Comparison.spelling, List.cons_prefix_cons, hp]
  | _ => simp [readComparison?, eatAll?, Comparison.spelling, List.cons_prefix_cons]

theorem readComparison?_eq_none {rest : List Char} (h : StopsAt ['&', '|', ')'] rest) (p : Nat) :
    (⟨p, rest⟩ : Scanner).readComparison? = none := by
  cases rest with
  | nil => rfl
  | cons c rest =>
    have hc := h c rfl
    simp only [List.mem_cons, List.not_mem_nil, or_false] at hc
    rcases hc with rfl | rfl | rfl <;>
      simp [readComparison?, eatAll?, Comparison.spelling, List.cons_prefix_cons]

/-- The items of a list between its parentheses. -/
def itemsSpelling (items : List String) : List Char :=
  ['|'].intercalate (items.map fun s => Percent.encodeChars s.toList)

theorem readItems_spelling {items : List String} (h : items ≠ []) (rest : List Char) (p : Nat) :
    (⟨p, itemsSpelling items ++ ')' :: rest⟩ : Scanner).readItems =
      (items, ⟨p + byteSize (itemsSpelling items) + 1, rest⟩) := by
  induction items generalizing p with
  | nil => exact absurd rfl h
  | cons s items ih =>
    cases items with
    | nil =>
      have hr := readRun_encodeChars s.toList
        (show StopsAt delimiters (')' :: rest) by simp [StopsAt, delimiters]) p
      rw [readItems]
      simp only [itemsSpelling, List.map_cons, List.map_nil, List.intercalate_singleton, hr,
        peek_cons, advance_cons, Run.decoded, Percent.decodeChars_encodeChars, String.ofList_toList]
      rfl
    | cons t items =>
      have hr := readRun_encodeChars s.toList
        (show StopsAt delimiters ('|' :: (itemsSpelling (t :: items) ++ ')' :: rest)) by
          simp [StopsAt, delimiters]) p
      have hs : itemsSpelling (s :: t :: items) =
          Percent.encodeChars s.toList ++ '|' :: itemsSpelling (t :: items) := by
        simp [itemsSpelling]
      rw [readItems, hs]
      simp only [List.append_assoc, List.cons_append, hr, peek_cons, advance_cons, if_true,
        ih (List.cons_ne_nil _ _), Run.decoded, Percent.decodeChars_encodeChars,
        String.ofList_toList, byteSize_append, byteSize_cons, Nat.add_assoc]

theorem toList_render_list (items : List String) :
    (Value.list items).render.toList = '(' :: (itemsSpelling items ++ [')']) := by
  simp [Value.render, itemsSpelling, Percent.encode, Function.comp_def]

theorem toList_render_text (s : String) :
    (Value.text s).render.toList = Percent.encodeChars s.toList := by
  simp [Value.render, Percent.encode]

/-- Where a unit ends: at the end of the query, or in front of what can follow an operand. -/
abbrev UnitEnd : List Char → Prop := StopsAt ['&', '|', ')']

theorem UnitEnd.delimiters {rest : List Char} (h : UnitEnd rest) : StopsAt delimiters rest := by
  intro c hc
  have := h c hc
  simp only [List.mem_cons, List.not_mem_nil, or_false] at this
  rcases this with rfl | rfl | rfl <;> decide

theorem UnitEnd.not_isBlank {rest : List Char} (h : UnitEnd rest) :
    ∀ c ∈ rest.head?, isBlank c = false := by
  intro c hc
  have := h c hc
  simp only [List.mem_cons, List.not_mem_nil, or_false] at this
  rcases this with rfl | rfl | rfl <;> decide

theorem skipBlanks_eq {s : Scanner} (h : ∀ c ∈ s.rest.head?, isBlank c = false) :
    s.skipBlanks = s :=
  skipBlanks_append (List.forall_mem_nil _) h s.position

theorem head_encodeChars_append {cs rest : List Char} {c : Char}
    (h : c ∈ (Percent.encodeChars cs ++ rest).head?) : Percent.IsCoded c ∨ c ∈ rest.head? := by
  cases hd : Percent.encodeChars cs with
  | nil => exact .inr (by simpa [hd] using h)
  | cons d ds =>
    obtain rfl : d = c := by simpa [hd] using h
    exact .inl (Percent.isCoded_of_mem_encodeChars (hd ▸ List.mem_cons_self))

/-- The only delimiter at the beginning can be the one that ends the unit. -/
theorem head_encodeChars_append_ne {cs rest : List Char} (h : UnitEnd rest) {d : Char}
    (hd : d ∈ delimiters) (hd' : d ∉ ['&', '|', ')']) :
    (Percent.encodeChars cs ++ rest).head? ≠ some d := by
  intro he
  rcases head_encodeChars_append he with hc | hc
  · exact not_mem_delimiters_of_isCoded hc hd
  · exact hd' (h d hc)

theorem readValue_text (s : String) {rest : List Char} (h : UnitEnd rest) (p : Nat) :
    (⟨p, (Value.text s).render.toList ++ rest⟩ : Scanner).readValue =
      (.text s, if s = "" then none else some p,
        ⟨p + byteSize (Value.text s).render.toList, rest⟩) := by
  have hr := readRun_encodeChars s.toList h.delimiters p
  have hb : ∀ c ∈ (Percent.encodeChars s.toList ++ rest).head?, isBlank c = false := by
    intro c hc
    rcases head_encodeChars_append hc with hc | hc
    · exact hc.not_isBlank
    · exact h.not_isBlank c hc
  have he : (⟨p, Percent.encodeChars s.toList ++ rest⟩ : Scanner).eat? '(' = none := by
    exact if_neg (head_encodeChars_append_ne h (by decide) (by decide))
  rw [toList_render_text, readValue, skipBlanks_eq hb]
  simp only [he, hr, Run.isEmpty, Run.decoded, Percent.decodeChars_encodeChars,
    String.ofList_toList, List.isEmpty_iff, Percent.encodeChars_eq_nil, String.toList_eq_nil_iff]
  split
  · rename_i hs
    simp [hs]
  · rfl

theorem readValue_list {items : List String} (h : items ≠ []) (rest : List Char) (p : Nat) :
    (⟨p, (Value.list items).render.toList ++ rest⟩ : Scanner).readValue =
      (.list items, some p, ⟨p + byteSize (Value.list items).render.toList, rest⟩) := by
  have he (q : Nat) (cs : List Char) : (⟨q, '(' :: cs⟩ : Scanner).eat? '(' = some ⟨q + 1, cs⟩ := rfl
  rw [toList_render_list, readValue, skipBlanks_eq (by simpa using by decide)]
  simp only [List.cons_append, List.append_assoc, List.nil_append, he, readItems_spelling h]
  simp only [byteSize_cons, byteSize_append, byteSize_nil, Nat.add_assoc, Nat.add_zero]
  rfl

/-! ### Units -/

theorem readUnit_test {column : String} (hc : column ≠ "") {rest : List Char} (h : UnitEnd rest)
    (p : Nat) : (⟨p, Percent.encodeChars column.toList ++ rest⟩ : Scanner).readUnit =
      (some ⟨column, .eq, .flag true, { column := p }⟩,
        ⟨p + byteSize (Percent.encodeChars column.toList), rest⟩) := by
  rw [readUnit]
  simp only [readRun_encodeChars column.toList h.delimiters p, readComparison?_eq_none h,
    Run.isEmpty, Run.decoded, Percent.decodeChars_encodeChars, String.ofList_toList,
    List.isEmpty_iff, Percent.encodeChars_eq_nil, String.toList_eq_nil_iff, hc, if_false]

theorem stopsAt_operator (op : Comparison) (rest : List Char) :
    StopsAt delimiters (op.spelling ++ rest) := by
  intro c hc
  cases op <;> obtain rfl := Option.some.inj hc <;> decide

/-- The operator separates a column from a value that can be read on its own. -/
theorem readUnit_comparison {column : String} (hc : column ≠ "") (op : Comparison)
    {v : Value} {text rest : List Char} {offset : Nat → Option Nat}
    (ht : (text ++ rest).head? ≠ some '=')
    (hv : ∀ q, (⟨q, text ++ rest⟩ : Scanner).readValue =
      (v, offset q, ⟨q + byteSize text, rest⟩)) (p : Nat) :
    (⟨p, Percent.encodeChars column.toList ++ (op.spelling ++ (text ++ rest))⟩ : Scanner).readUnit =
      let operator := p + byteSize (Percent.encodeChars column.toList)
      let value := operator + byteSize op.spelling
      (some ⟨column, op, v, { column := p, operator, value := offset value }⟩,
        ⟨value + byteSize text, rest⟩) := by
  have hs := stopsAt_operator op (text ++ rest)
  rw [readUnit]
  simp only [readRun_encodeChars column.toList hs p, (readComparison?_spelling op fun _ => ht), hv,
    Run.isEmpty, Run.decoded, Percent.decodeChars_encodeChars, String.ofList_toList,
    List.isEmpty_iff, Percent.encodeChars_eq_nil, String.toList_eq_nil_iff, hc, if_false]

/-- A condition is read from its text, without its `!` and its label. -/
theorem readUnit_spelling {c : Condition} (hc : c.WellFormed) {rest : List Char}
    (h : UnitEnd rest) (p : Nat) :
    (⟨p, c.spelling ++ rest⟩ : Scanner).readUnit =
      (some (c.readAt p), ⟨p + byteSize c.spelling, rest⟩) := by
  obtain ⟨column, op, value, note⟩ := c
  cases value with
  | flag b =>
    have H := readUnit_test hc.column_ne h p
    simp only [Condition.spelling, List.append_nil, H]
    rfl
  | text s =>
    have ht : ((Value.text s).render.toList ++ rest).head? ≠ some '=' := by
      rw [toList_render_text]
      exact head_encodeChars_append_ne h (by decide) (by decide)
    have H := readUnit_comparison hc.column_ne op ht (readValue_text s h) p
    simp only [Condition.spelling, List.append_assoc, H, byteSize_append, ← Nat.add_assoc]
    rfl
  | list items =>
    have hi : items ≠ [] := fun hi => hc.value_ne (hi ▸ rfl)
    have ht : ((Value.list items).render.toList ++ rest).head? ≠ some '=' := by
      simp [toList_render_list]
    have H := readUnit_comparison hc.column_ne op ht (readValue_list hi rest) p
    simp only [Condition.spelling, List.append_assoc, H, byteSize_append, ← Nat.add_assoc]
    rfl

end Scanner

/-! ### Lexemes -/

namespace Lexeme

/-- The text of a lexeme. A unit without a column has no text of its own. -/
def spelling : Lexeme → List Char
  | conj => ['&']
  | disj => ['|']
  | groupOpen => ['(']
  | groupClose => [')']
  | negation => ['!']
  | unit c => (c.map Condition.spelling).getD []

/-- Lexemes that stand at the beginning of an operand, and so behind no other operand. -/
def beginsOperand : Lexeme → Bool
  | conj | disj | groupClose => false
  | groupOpen | negation | unit _ => true

/-- Lexemes that can be written. -/
def WellFormed : Lexeme → Prop
  | unit c => ∃ d, c = some d ∧ d.WellFormed
  | _ => True

/-- What the text of the lexeme says. -/
def positive : Lexeme → Lexeme
  | unit c => unit (c.map Condition.positive)
  | l => l

/-- The lexeme that is read from its text when that begins at `p`. -/
def readAt (p : Nat) : Lexeme → Lexeme
  | unit c => unit (c.map (·.readAt p))
  | l => l

/-- The lexemes without annotations. -/
def bare : Lexeme → Lexeme
  | unit c => unit (c.map Condition.bare)
  | l => l

@[simp] theorem bare_readAt (p : Nat) (l : Lexeme) : (l.readAt p).bare = l.positive := by
  cases l with
  | unit c => cases c <;> simp [readAt, bare, positive]
  | _ => rfl

/-- The text of lexemes in a row. -/
def spell (ls : List Lexeme) : List Char := ls.flatMap spelling

/-- The lexemes that are read from that text when it begins at `p`. -/
def place (p : Nat) : List Lexeme → List Lexeme
  | [] => []
  | l :: ls => l.readAt p :: place (p + byteSize l.spelling) ls

@[simp] theorem map_bare_place (p : Nat) (ls : List Lexeme) :
    (place p ls).map bare = ls.map positive := by
  induction ls generalizing p with
  | nil => rfl
  | cons l ls ih => simp [place, ih]

/-- Lexemes whose text keeps them apart: behind a unit comes nothing that could belong to it. -/
inductive Legible : List Lexeme → Prop where
  | nil : Legible []
  | unit {c : Condition} {ls : List Lexeme} : c.WellFormed →
    (∀ l ∈ ls.head?, l.beginsOperand = false) → Legible ls → Legible (unit (some c) :: ls)
  | mark {l : Lexeme} {ls : List Lexeme} : (∀ c, l ≠ .unit c) → Legible ls → Legible (l :: ls)

theorem unitEnd_spell {ls : List Lexeme} (h : ∀ l ∈ ls.head?, l.beginsOperand = false) :
    Scanner.UnitEnd (spell ls) := by
  cases ls with
  | nil =>
    intro c hc
    cases hc
  | cons l ls =>
    intro c hc
    have hl := h l rfl
    cases l <;> simp [beginsOperand] at hl <;> obtain rfl := Option.some.inj hc <;> decide

end Lexeme

namespace Scanner

theorem readLexeme?_mark {l : Lexeme} (hl : ∀ c, l ≠ .unit c) (rest : List Char) (p : Nat) :
    ∃ o, (⟨p, l.spelling ++ rest⟩ : Scanner).readLexeme? =
      some (o, ⟨p + byteSize l.spelling, rest⟩) ∧ o.lexeme = l.readAt p := by
  cases l with
  | unit c => exact absurd rfl (hl c)
  | _ => exact ⟨_, rfl, rfl⟩

/-- The text of a condition begins with its column, which cannot be taken for another lexeme. -/
theorem spelling_eq_cons {c : Condition} (hc : c.WellFormed) :
    ∃ d ds, c.spelling = d :: ds ∧ Percent.IsCoded d := by
  cases hd : Percent.encodeChars c.column.toList with
  | nil => exact absurd (by simpa using hd) hc.column_ne
  | cons d ds =>
    refine ⟨d, _, by rw [Condition.spelling, hd, List.cons_append], ?_⟩
    exact Percent.isCoded_of_mem_encodeChars (hd ▸ List.mem_cons_self)

theorem readLexeme?_unit {c : Condition} (hc : c.WellFormed) {rest : List Char}
    (h : UnitEnd rest) (p : Nat) :
    ∃ o, (⟨p, c.spelling ++ rest⟩ : Scanner).readLexeme? =
      some (o, ⟨p + byteSize c.spelling, rest⟩) ∧ o.lexeme = .unit (some (c.readAt p)) := by
  have hu := readUnit_spelling hc h p
  obtain ⟨d, ds, hd, hcoded⟩ := spelling_eq_cons hc
  have hn : ∀ e ∈ delimiters, d ≠ e := fun e he h => not_mem_delimiters_of_isCoded hcoded (h ▸ he)
  have hb : (⟨p, c.spelling ++ rest⟩ : Scanner).skipBlanks = ⟨p, c.spelling ++ rest⟩ := by
    refine skipBlanks_eq fun e he => ?_
    rw [hd] at he
    exact Option.some.inj he ▸ hcoded.not_isBlank
  have hp : (⟨p, c.spelling ++ rest⟩ : Scanner).peek = some d := by rw [hd]; rfl
  refine ⟨⟨.unit (some (c.readAt p)), d, p⟩, ?_, rfl⟩
  simp only [readLexeme?, hb, hp, hu]
  -- A coded character is none of the five marks.
  split
  iterate 5 exact (hn _ (by decide) rfl).elim
  rfl

theorem lexemes_spell {ls : List Lexeme} (h : Lexeme.Legible ls) (p : Nat) :
    (lexemes ⟨p, Lexeme.spell ls⟩).map (·.lexeme) = Lexeme.place p ls := by
  induction h generalizing p with
  | nil =>
    rw [lexemes]
    rfl
  | @unit c ls hc hl _ ih =>
    obtain ⟨o, ho, hlex⟩ := readLexeme?_unit hc (Lexeme.unitEnd_spell hl) p
    have hs : Lexeme.spell (.unit (some c) :: ls) = c.spelling ++ Lexeme.spell ls := rfl
    rw [hs, lexemes, ho]
    simp only [List.map_cons, hlex, ih]
    rfl
  | @mark l ls hl _ ih =>
    obtain ⟨o, ho, hlex⟩ := readLexeme?_mark hl (Lexeme.spell ls) p
    have hs : Lexeme.spell (l :: ls) = l.spelling ++ Lexeme.spell ls := rfl
    rw [hs, lexemes, ho]
    simp only [List.map_cons, hlex, ih]
    rfl

end Scanner
end FilterQuery
