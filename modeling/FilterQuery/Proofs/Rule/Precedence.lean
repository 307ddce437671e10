import FilterQuery.Proofs.Query.Connectives
import FilterQuery.Proofs.Rule.RoundTrip

/-!
Precedence and redundant parentheses. Operands that are joined by `&` and groups of such operands
that are joined by `|` are read as alternatives of conjunctions, however many parentheses stand
around an operand and whatever connectives follow the first one.
-/

namespace FilterQuery

open Text Parse

/-! ### Texts and their lexemes -/

/-- The lexemes of a text, without annotations. -/
def bareLexemes (cs : List Char) : List Lexeme :=
  (⟨0, cs⟩ : Scanner).lexemes.map (·.lexeme.bare)

/-- They do not depend on where the text begins. -/
theorem map_bare_lexemes (n : Nat) (cs : List Char) :
    (⟨n, cs⟩ : Scanner).lexemes.map (·.lexeme.bare) = bareLexemes cs := by
  have h := Scanner.shift_lexemes n ⟨0, cs⟩
  rw [Scanner.shift, Nat.zero_add] at h
  rw [h, bareLexemes, List.map_map]
  exact List.map_congr_left fun o _ => o.lexeme.bare_shift n

/-- A text has these lexemes in front of everything that an operand can end at. -/
def Yields (cs : List Char) (ls : List Lexeme) : Prop :=
  ∀ rest, Scanner.UnitEnd rest → bareLexemes (cs ++ rest) = ls ++ bareLexemes rest

theorem bareLexemes_nil : bareLexemes [] = [] := by
  rw [bareLexemes, Scanner.lexemes_eq_nil (Scanner.readLexeme?_blanks (List.forall_mem_nil _) 0)]
  rfl

/-- The first lexeme and what is behind it. -/
theorem bareLexemes_eq_cons {cs rest : List Char} {n : Nat} {o : Occurrence}
    (h : (⟨0, cs⟩ : Scanner).readLexeme? = some (o, ⟨n, rest⟩)) :
    bareLexemes cs = o.lexeme.bare :: bareLexemes rest := by
  rw [bareLexemes, Scanner.lexemes_eq_cons h, List.map_cons, map_bare_lexemes]

theorem Yields.bareLexemes_eq {cs : List Char} {ls : List Lexeme} (H : Yields cs ls) :
    bareLexemes cs = ls := by
  have h := H [] fun _ hc => nomatch hc
  rwa [List.append_nil, bareLexemes_nil, List.append_nil] at h

theorem Yields.append {cs ds : List Char} {ls ms : List Lexeme} (H : Yields cs ls)
    (H' : Yields ds ms) (h : ∀ rest, Scanner.UnitEnd rest → Scanner.UnitEnd (ds ++ rest)) :
    Yields (cs ++ ds) (ls ++ ms) := by
  intro rest hr
  rw [List.append_assoc, List.append_assoc, H _ (h rest hr), H' rest hr]

/-- Connectives and blanks. -/
theorem bareLexemes_connecting {w : List Char} (hw : ∀ c ∈ w, isConnecting c = true)
    (rest : List Char) : bareLexemes (w ++ rest) = marks w ++ bareLexemes rest := by
  obtain ⟨os, hos, H⟩ := Scanner.lexemes_connecting hw 0 rest
  have hbare : os.map (·.lexeme.bare) = marks w := by
    have h := List.map_congr_left (f := Lexeme.bare) (g := id) (l := marks w) fun l hl => by
      have h := connects_of_mem_marks hw l hl
      cases l <;> first | rfl | cases h
    rw [List.map_id, ← hos, List.map_map] at h
    rw [← hos]
    exact h
  rw [bareLexemes, H, List.map_append, map_bare_lexemes, hbare]

namespace Lexeme

theorem unitEnd_spell_append {ls : List Lexeme} (h : ∀ l ∈ ls.head?, l.beginsOperand = false)
    {rest : List Char} (hr : Scanner.UnitEnd rest) : Scanner.UnitEnd (spell ls ++ rest) := by
  cases ls with
  | nil => exact hr
  | cons l ls =>
    intro c hc
    have hl := h l rfl
    cases l <;> simp [beginsOperand] at hl <;> obtain rfl := Option.some.inj hc <;> decide

/-- The text of lexemes has these lexemes, whatever comes behind it. -/
theorem Legible.yields {ls : List Lexeme} (H : Legible ls) :
    Yields (spell ls) (ls.map positive) := by
  intro rest hr
  induction H with
  | nil => rfl
  | @unit c ls hc hl _ ih =>
    obtain ⟨o, ho, hlex⟩ := Scanner.readLexeme?_unit hc (unitEnd_spell_append hl hr) 0
    have hs : spell (.unit (some c) :: ls) ++ rest = c.spelling ++ (spell ls ++ rest) :=
      List.append_assoc ..
    rw [hs, bareLexemes_eq_cons ho, ih, hlex]
    simp [bare, positive]
  | @mark l ls hl _ ih =>
    obtain ⟨o, ho, hlex⟩ := Scanner.readLexeme?_mark hl (spell ls ++ rest) 0
    have hs : spell (l :: ls) ++ rest = l.spelling ++ (spell ls ++ rest) := List.append_assoc ..
    rw [hs, bareLexemes_eq_cons ho, ih, hlex, bare_readAt]
    rfl

end Lexeme

/-! ### Rows -/

/-- One or more items, with what is written in front of every one but the first. -/
structure Row (α : Type) where
  first : α
  rest : List (List Char × α) := []

namespace Row

variable {α β : Type}

def items (row : Row α) : List α := row.first :: row.rest.map (·.2)

/-- Nothing but connectives and blanks is written between the items. -/
def Connecting (row : Row α) : Prop := ∀ p ∈ row.rest, ∀ c ∈ p.1, isConnecting c = true

instance (row : Row α) : Decidable row.Connecting :=
  decidable_of_iff (row.rest.all (·.1.all isConnecting) = true) (by simp [Connecting])

/-- The text of a row, with a connective in front of what is written between the items. -/
def text (op : Connective) (f : α → List Char) (row : Row α) : List Char :=
  f row.first ++ row.rest.flatMap fun (gap, a) => op.separator :: gap ++ f a

def lexemes (op : Connective) (f : α → List Lexeme) (row : Row α) : List Lexeme :=
  f row.first ++ row.rest.flatMap fun (gap, a) => Rule.separator op :: marks gap ++ f a

/-- The rules of the items joined; the only one if there is only one. -/
def joined (op : Connective) (f : α → Rule) (row : Row α) : Rule :=
  match row.rest with
  | [] => f row.first
  | _ :: _ => .chain op (row.items.map f)

theorem join?_map_items (op : Connective) (f : α → Rule) (row : Row α) :
    Rule.join? op (row.items.map f) = some (row.joined op f) := by
  obtain ⟨first, rest⟩ := row
  cases rest <;> rfl

theorem bare_joined (op : Connective) (f : α → Rule) (row : Row α) :
    (row.joined op f).bare = row.joined op fun a => (f a).bare := by
  obtain ⟨first, rest⟩ := row
  cases rest with
  | nil => rfl
  | cons p rest => simp [joined, items]

theorem marks_separator (op : Connective) (gap : List Char) :
    marks (op.separator :: gap) = Rule.separator op :: marks gap := by
  cases op <;> rfl

theorem isConnecting_separator (op : Connective) : isConnecting op.separator = true := by
  cases op <;> decide

theorem unitEnd_separator (op : Connective) (cs : List Char) :
    Scanner.UnitEnd (op.separator :: cs) := by
  intro c hc
  obtain rfl := Option.some.inj hc
  cases op <;> decide

theorem yields_rest (op : Connective) {f : α → List Char} {g : α → List Lexeme}
    {rest : List (List Char × α)} (hw : ∀ p ∈ rest, ∀ c ∈ p.1, isConnecting c = true)
    (H : ∀ p ∈ rest, Yields (f p.2) (g p.2)) {cs : List Char} (hr : Scanner.UnitEnd cs) :
    Scanner.UnitEnd ((rest.flatMap fun (gap, a) => op.separator :: gap ++ f a) ++ cs) ∧
      bareLexemes ((rest.flatMap fun (gap, a) => op.separator :: gap ++ f a) ++ cs) =
        (rest.flatMap fun (gap, a) => Rule.separator op :: marks gap ++ g a) ++ bareLexemes cs := by
  induction rest with
  | nil => exact ⟨hr, rfl⟩
  | cons p rest ih =>
    obtain ⟨gap, a⟩ := p
    obtain ⟨hgap, hw⟩ := List.forall_mem_cons.1 hw
    obtain ⟨ha, H⟩ := List.forall_mem_cons.1 H
    obtain ⟨hr, ih⟩ := ih hw H
    refine ⟨unitEnd_separator op _, ?_⟩
    have hc : ∀ c ∈ op.separator :: gap, isConnecting c = true :=
      List.forall_mem_cons.2 ⟨isConnecting_separator op, hgap⟩
    rw [List.flatMap_cons, List.flatMap_cons, List.append_assoc, List.append_assoc,
      bareLexemes_connecting hc, ha _ hr, ih, marks_separator]
    simp only [List.append_assoc]

/-- A row has the lexemes of its items and of what is between them. -/
theorem yields {op : Connective} {f : α → List Char} {g : α → List Lexeme} {row : Row α}
    (hw : row.Connecting) (H : ∀ a ∈ row.items, Yields (f a) (g a)) :
    Yields (row.text op f) (row.lexemes op g) := by
  obtain ⟨hfirst, H⟩ := List.forall_mem_cons.1 H
  have H : ∀ p ∈ row.rest, Yields (f p.2) (g p.2) := fun p hp => H p.2 (List.mem_map_of_mem hp)
  exact hfirst.append (fun cs hr => (yields_rest op hw H hr).2)
    fun cs hr => (yields_rest op hw H hr).1

end Row

/-! ### Operands -/

/-- A rule as it is written in a longer query, in pairs of parentheses. A conjunction and
alternatives have at least one pair. -/
structure Operand where
  rule : Rule
  parens : Nat
  normal : rule.Normal
  enclosed : ∀ op rs, rule = .chain op rs → op ≠ .none → 0 < parens

namespace Operand

def text (o : Operand) : List Char :=
  List.replicate o.parens '(' ++ o.rule.render.toList ++ List.replicate o.parens ')'

def lexemes (o : Operand) : List Lexeme := Nat.repeat Rule.grouped o.parens (o.rule.spelling false)

theorem spell_repeat_grouped (n : Nat) (ls : List Lexeme) :
    Lexeme.spell (Nat.repeat Rule.grouped n ls) =
      List.replicate n '(' ++ Lexeme.spell ls ++ List.replicate n ')' := by
  induction n with
  | zero => simp [Nat.repeat]
  | succ n ih =>
    have hs (ls : List Lexeme) :
        Lexeme.spell (Rule.grouped ls) = '(' :: Lexeme.spell ls ++ [')'] := by
      simp [Lexeme.spell, Rule.grouped, Lexeme.spelling]
    rw [Nat.repeat, hs, ih, List.replicate_succ, List.replicate_succ']
    simp

theorem text_eq_spell (o : Operand) : o.text = Lexeme.spell o.lexemes := by
  rw [text, lexemes, spell_repeat_grouped, Rule.render_eq, String.toList_ofList, Rule.canonical,
    if_neg (by simp [o.normal.isVacant_eq_false])]

theorem mem_repeat_grouped {n : Nat} {l : Lexeme} {ls : List Lexeme}
    (h : l ∈ Nat.repeat Rule.grouped n ls) : l = .groupOpen ∨ l = .groupClose ∨ l ∈ ls := by
  induction n with
  | zero => exact .inr (.inr h)
  | succ n ih =>
    rw [Nat.repeat, Rule.grouped] at h
    simp only [List.mem_append, List.mem_cons, List.not_mem_nil, or_false] at h
    rcases h with (h | h) | h
    · exact .inl h
    · exact ih h
    · exact .inr (.inl h)

theorem map_positive_repeat_grouped (n : Nat) (ls : List Lexeme) :
    (Nat.repeat Rule.grouped n ls).map Lexeme.positive =
      Nat.repeat Rule.grouped n (ls.map Lexeme.positive) := by
  induction n with
  | zero => rfl
  | succ n ih => simp [Nat.repeat, Rule.grouped, ih, Lexeme.positive]

theorem readsAs_repeat_grouped {n : Nat} {ls : List Lexeme} {r : Option Rule} (hn : 0 < n)
    (H : State.ReadsIn ls r) : State.ReadsAs (Nat.repeat Rule.grouped n ls) r := by
  induction n with
  | zero => exact absurd hn (Nat.lt_irrefl 0)
  | succ n ih =>
    cases n with
    | zero => exact H.grouped
    | succ n => exact (ih (Nat.zero_lt_succ n)).readsIn.grouped

/-- An operand is read as its rule, the parentheses left aside. -/
theorem readsAs (o : Operand) : State.ReadsAs o.lexemes (some o.rule.bare) := by
  obtain ⟨h, h'⟩ := Rule.reads_spelling o.normal.normalForm?_eq
  by_cases hp : 0 < o.parens
  · exact readsAs_repeat_grouped hp h'
  · rw [lexemes, Nat.eq_zero_of_not_pos hp]
    have hs : o.rule.spelling false = o.rule.spelling true := by
      cases hr : o.rule with
      | condition c => rw [Rule.spelling_condition, Rule.spelling_condition]
      | chain op rs =>
        have hop : op = .none := Decidable.byContradiction fun hop => hp (o.enclosed op rs hr hop)
        rw [hop, Rule.spelling_none, Rule.spelling_none]
    rw [hs]
    exact h

theorem yields (o : Operand) : Yields o.text o.lexemes := by
  have hw : ∀ l ∈ o.lexemes, l.WellFormed := by
    intro l hl
    rcases mem_repeat_grouped hl with rfl | rfl | hl
    · trivial
    · trivial
    · exact Rule.wellFormed_spelling o.normal.wellFormed false l hl
  have hp : o.lexemes.map Lexeme.positive = o.lexemes := by
    rw [lexemes, map_positive_repeat_grouped, Rule.map_positive_spelling]
  have H := (Lexeme.Legible.of_reads (o.readsAs {} rfl) hw).yields
  rw [hp] at H
  rw [text_eq_spell]
  exact H

end Operand

/-! ### Reading rows -/

section
variable {terms operands : List Rule} {outer : List Group}

/-- Connectives behind a connective are read without an effect. -/
theorem reads_marks {s : State} (H : s.Fresh) {ls : List Lexeme}
    (hl : ∀ l ∈ ls, l.connects = true) : State.Reads s ls s := by
  induction ls with
  | nil => exact .nil
  | cons l ls ih =>
    obtain ⟨h, hl⟩ := List.forall_mem_cons.1 hl
    refine .mark ?_ ?_
    · cases l <;> first | rfl | cases h
    · rw [H.advance h]
      exact ih hl

theorem Operand.reads (o : Operand) : State.Reads ⟨⟨terms, operands, 0⟩, outer, false⟩ o.lexemes
    ⟨⟨terms, operands ++ [o.rule.bare], 0⟩, outer, true⟩ :=
  o.readsAs ⟨⟨terms, operands, 0⟩, outer, false⟩ rfl

theorem reads_rest_operands {rest : List (List Char × Operand)}
    (hw : ∀ p ∈ rest, ∀ c ∈ p.1, isConnecting c = true) :
    State.Reads ⟨⟨terms, operands, 0⟩, outer, true⟩
      (rest.flatMap fun (gap, o) => Rule.separator .all :: marks gap ++ o.lexemes)
      ⟨⟨terms, operands ++ rest.map (·.2.rule.bare), 0⟩, outer, true⟩ := by
  induction rest generalizing operands with
  | nil =>
    rw [List.map_nil, List.append_nil]
    exact .nil
  | cons p rest ih =>
    obtain ⟨gap, o⟩ := p
    obtain ⟨hgap, hw⟩ := List.forall_mem_cons.1 hw
    rw [List.map_cons, List.append_cons, List.flatMap_cons, List.append_assoc]
    refine .mark rfl ?_
    exact (reads_marks ⟨rfl, rfl⟩ (connects_of_mem_marks hgap)).append (o.reads.append (ih hw))

/-- A conjunction is read operand by operand. -/
theorem reads_conjunction {row : Row Operand} (hw : row.Connecting) :
    State.Reads ⟨⟨terms, [], 0⟩, outer, false⟩ (row.lexemes .all Operand.lexemes)
      ⟨⟨terms, row.items.map (·.rule.bare), 0⟩, outer, true⟩ := by
  have hitems : row.items.map (·.rule.bare) =
      [] ++ [row.first.rule.bare] ++ row.rest.map (·.2.rule.bare) := by
    simp [Row.items, Function.comp_def]
  rw [hitems]
  exact row.first.reads.append (reads_rest_operands hw)

/-- Behind alternatives that are finished and one that is being read, more of them. -/
theorem reads_rest_alternatives {rest : List (List Char × Row Operand)}
    (hw : ∀ p ∈ rest, (∀ c ∈ p.1, isConnecting c = true) ∧ p.2.Connecting) {g : Group}
    (hn : g.negations = 0) (outer : List Group) : ∃ g' : Group,
    g'.next.terms = g.next.terms ++ rest.map (·.2.joined .all (·.rule.bare)) ∧
      State.Reads ⟨g, outer, true⟩
        (rest.flatMap fun (gap, row) =>
          Rule.separator .any :: marks gap ++ row.lexemes .all Operand.lexemes)
        ⟨g', outer, true⟩ := by
  induction rest generalizing g with
  | nil => exact ⟨g, by simp, .nil⟩
  | cons p rest ih =>
    obtain ⟨gap, row⟩ := p
    obtain ⟨⟨hgap, hrow⟩, hw⟩ := List.forall_mem_cons.1 hw
    obtain ⟨g', hg', H⟩ := ih (g := ⟨g.next.terms, row.items.map (·.rule.bare), 0⟩) hw rfl
    refine ⟨g', ?_, ?_⟩
    · rw [hg', Group.next, row.join?_map_items]
      simp
    · have hnext : State.advance ⟨g, outer, true⟩ (Rule.separator .any) =
          ⟨⟨g.next.terms, [], 0⟩, outer, false⟩ := by
        rw [← hn]
        rfl
      rw [List.flatMap_cons, List.append_assoc]
      refine .mark rfl ?_
      rw [hnext]
      exact (reads_marks ⟨rfl, rfl⟩ (connects_of_mem_marks hgap)).append
        ((reads_conjunction hrow).append H)

end

/-! ### Alternatives of conjunctions -/

/-- Alternatives, each of them a conjunction. -/
abbrev Alternatives := Row (Row Operand)

namespace Alternatives

/-- Operands joined by `&` to conjunctions, and these joined by `|`. -/
def query (alts : Alternatives) : String :=
  String.ofList (alts.text .any (Row.text .all Operand.text))

def lexemes (alts : Alternatives) : List Lexeme :=
  Row.lexemes .any (Row.lexemes .all Operand.lexemes) alts

/-- What they mean, with all parentheses left aside. -/
def rule (alts : Alternatives) : Rule := alts.joined .any fun row => row.joined .all Operand.rule

/-- Nothing but connectives and blanks is written between the operands. -/
structure WellFormed (alts : Alternatives) : Prop where
  outer : alts.Connecting
  inner : ∀ row ∈ alts.items, row.Connecting

section
variable {alts : Alternatives} (H : alts.WellFormed)
include H

theorem reads : ∃ t, State.Reads {} alts.lexemes t ∧ t.finish = some alts.rule.bare := by
  obtain ⟨hfirst, hinner⟩ := List.forall_mem_cons.1 H.inner
  obtain ⟨g, hg, hrest⟩ := reads_rest_alternatives
    (g := ⟨[], alts.first.items.map (·.rule.bare), 0⟩)
    (fun p hp => ⟨H.outer p hp, hinner p.2 (List.mem_map_of_mem hp)⟩) rfl []
  refine ⟨_, (reads_conjunction hfirst).append hrest, ?_⟩
  have hterms : g.next.terms = alts.items.map fun row => row.joined .all (·.rule.bare) := by
    rw [hg, Group.next, alts.first.join?_map_items]
    simp [Row.items]
  rw [State.finish, State.settle_of_filled rfl]
  change Rule.join? .any g.next.terms = _
  rw [hterms, alts.join?_map_items, rule]
  simp only [Row.bare_joined]

theorem map_bare_lexemes_query :
    ((FilterQuery.lexemes alts.query).map (·.lexeme)).map Lexeme.bare = alts.lexemes := by
  have hyields : Yields (alts.text .any (Row.text .all Operand.text)) alts.lexemes :=
    Row.yields H.outer fun row hrow => Row.yields (H.inner row hrow) fun o _ => o.yields
  rw [← hyields.bareLexemes_eq, bareLexemes, FilterQuery.lexemes, Scanner.ofString, query,
    String.toList_ofList, List.map_map]
  rfl

/-- **Precedence.** Operands that are joined by `&`, and conjunctions that are joined by `|`, are
read as alternatives of conjunctions: `&` binds tighter, the first of several connectives counts,
and no parentheses around an operand are left. -/
theorem parse_query (hm : maxOpen alts.query ≤ maxNesting) :
    ∃ r, Rule.parse alts.query = .ok r ∧ r.Same alts.rule := by
  obtain ⟨u, hu, hfinish⟩ := reads H
  rw [← map_bare_lexemes_query H] at hu
  obtain ⟨t, ht, rfl⟩ := State.Reads.of_bare (s := {}) hu
  refine ⟨_, Rule.parse_eq_ok_iff.2 ⟨t, ht, hm, rfl⟩, ?_⟩
  rw [Rule.Same, Rule.bare_getD, ← State.finish_bare, hfinish]
  rfl

end

theorem parse_query_gaps :
    ∃ r, Rule.parse "a!=1& |((b|c))|& (((!d=2)))" = .ok r ∧
      r.Same (.chain .any [.chain .all [.compare .ne "a" (.text "1"),
          .chain .any [.test "b" true, .test "c" true]],
        .chain .none [.compare .eq "d" (.text "2")]]) := by
  let a : Operand := {
    rule := .compare .ne "a" (.text "1")
    parens := 0
    normal := .condition ⟨⟨by decide, by decide⟩, by simp⟩
    enclosed := by simp [Rule.compare] }
  let b : Operand := {
    rule := .chain .any [.test "b" true, .test "c" true]
    parens := 2
    normal := by
      refine .chain (by decide) (Nat.le_refl 2) fun r hr => ?_
      rcases List.mem_pair.1 hr with rfl | rfl <;>
        exact .condition ⟨⟨by decide, by decide⟩, fun _ _ => rfl⟩
    enclosed := by simp }
  let c : Operand := {
    rule := .chain .none [.compare .eq "d" (.text "2")]
    parens := 3
    normal := .none (.condition ⟨⟨by decide, by decide⟩, by simp⟩) rfl
    enclosed := by simp }
  let alts : Alternatives := ⟨⟨a, [(" |".toList, b)]⟩, [("& ".toList, ⟨c, []⟩)]⟩
  have hquery : alts.query = "a!=1& |((b|c))|& (((!d=2)))" := by decide +kernel
  rw [← hquery]
  exact @parse_query alts ⟨by decide +kernel, by decide +kernel⟩ (by decide +kernel)

end Alternatives
end FilterQuery
