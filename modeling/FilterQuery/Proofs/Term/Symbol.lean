import FilterQuery.Proofs.Term.Legality

/-!
Symbols that are typed. All connectives and parentheses and the operator `=` are recognised by their
first character. Where an operator is expected, `>` and `<` can still become `>=` and `<=`, and `!`
has to become `!=`.
-/

namespace FilterQuery

@[simp] theorem toList_toString (c : Char) : c.toString.toList = [c] := String.toList_singleton c

theorem toString_ne_empty (c : Char) : c.toString ≠ "" := by
  simp [← String.toList_inj]

/-- How a symbol is recognised among the ones that may stand in its place. -/
inductive Recognized (symbols : List TermSymbol) (s : TermSymbol) : Prop where
  | first {c : Char} : s.1 = c.toString → matchSymbol s.1 symbols = .exact s →
    Recognized symbols s
  /-- The next character tells that the symbol is not continued. -/
  | behind {c : Char} : s.1 = c.toString → s.2 = .operator →
    matchSymbol s.1 symbols = .partially →
    (∀ d, d ≠ '=' → matchSymbol (s.1.push d) symbols = .none) → Recognized symbols s
  | second {c : Char} : s.1 = c.toString.push '=' → s.2 = .operator →
    matchSymbol c.toString symbols = .partially → matchSymbol s.1 symbols = .exact s →
    Recognized symbols s

namespace Expect

theorem recognized_operator (op : Comparison) (depth : Nat) :
    Recognized (operator.symbols depth) (op.symbol, .operator) := by
  refine operator.symbols_of (P := fun symbols => Recognized symbols (op.symbol, .operator)) ?_ ?_
    depth
  all_goals
    cases op with
    | eq => exact .first (c := '=') (by decide) (by decide)
    | ne => exact .second (c := '!') (by decide) rfl (by decide) (by decide)
    | ge => exact .second (c := '>') (by decide) rfl (by decide) (by decide)
    | le => exact .second (c := '<') (by decide) rfl (by decide) (by decide)
    | gt =>
      refine .behind (c := '>') (by decide) rfl (by decide) fun d hd => ?_
      simp [matchSymbol, symbols, Comparison.all, Comparison.symbol, Comparison.spelling, hd]
    | lt =>
      refine .behind (c := '<') (by decide) rfl (by decide) fun d hd => ?_
      simp [matchSymbol, symbols, Comparison.all, Comparison.symbol, Comparison.spelling, hd]

theorem recognized_of_ne_operator {e : Expect} {depth : Nat} {s : TermSymbol}
    (h : s ∈ e.symbols depth) (hs : s.2 ≠ .operator) : Recognized (e.symbols depth) s := by
  have H : ∀ s ∈ e.symbols depth, s.2 = .operator ∨
      s.1.toList.length = 1 ∧ matchSymbol s.1 (e.symbols depth) = .exact s := by
    refine e.symbols_of (P := fun symbols => ∀ s ∈ symbols, s.2 = .operator ∨
      s.1.toList.length = 1 ∧ matchSymbol s.1 symbols = .exact s) ?_ ?_ depth
    all_goals cases e <;> decide
  obtain ⟨hl, hm⟩ := (H s h).resolve_left hs
  obtain ⟨c, hc⟩ := List.length_eq_one_iff.1 hl
  refine .first (c := c) (String.toList_inj.1 ?_) hm
  rw [hc, toList_toString]

/-- Every symbol is recognised where it may stand. -/
theorem recognized_of_mem {e : Expect} {depth : Nat} {s : TermSymbol} (h : s ∈ e.symbols depth) :
    Recognized (e.symbols depth) s := by
  by_cases hs : s.2 = .operator
  · obtain ⟨symbol, kind⟩ := s
    obtain rfl : kind = .operator := hs
    have hfit := (Token.fits_iff_mem_symbols (t := .symbol .operator symbol) rfl).2 h
    obtain ⟨rfl, op, rfl⟩ := hfit
    exact recognized_operator op depth
  · exact recognized_of_ne_operator h hs

/-- Every symbol begins with a delimiter, and in place of a value none begins with a `=`. -/
theorem head_of_mem {e : Expect} {depth : Nat} {s : TermSymbol} (h : s ∈ e.symbols depth) :
    ∀ c ∈ s.1.toList.head?, c ∈ delimiters ∧ (e = .value → c ≠ '=') := by
  have H : ∀ s ∈ e.symbols depth, s.1.toList.head?.all
      (fun c => delimiters.contains c && (e != .value || c != '=')) = true := by
    refine e.symbols_of (P := fun symbols => ∀ s ∈ symbols, s.1.toList.head?.all
      (fun c => delimiters.contains c && (e != .value || c != '=')) = true) ?_ ?_ depth
    all_goals cases e <;> decide
  intro c hc
  have H := H s h
  rw [show s.1.toList.head? = some c from hc, Option.all_some] at H
  simpa [Classical.or_iff_not_imp_left] using H

end Expect
end FilterQuery
