import FilterQuery.Proofs.Query.Conditions
import FilterQuery.Proofs.Query.Derivation
import FilterQuery.Proofs.Query.Lookahead

/-!
A query without its grouping. One pass from the left to the right that passes over all connectives,
parentheses and negations and reads the units between them finds the conditions of the rule, every
one of them once and in order. The pass does not end before the query does.
-/

namespace FilterQuery

open Text

theorem Condition.upright_of_ne {c : Condition} (h : c.value ≠ .flag false) : c.upright = c := by
  obtain ⟨column, op, value, note⟩ := c
  cases value with
  | flag set =>
    cases set with
    | true => rfl
    | false => exact absurd rfl h
  | _ => rfl

/-- Characters that stand between units. -/
def isFiller (c : Char) : Bool := isBlank c || ['&', '|', '(', ')', '!'].contains c

namespace Lexeme

variable {c : Char}

/-- Connectives, parentheses and negations have no unit. -/
theorem units_of_ofChar? {l : Lexeme} (h : ofChar? c = some l) : l.units = [] := by
  rw [ofChar?.eq_def] at h
  split at h <;> cases h <;> rfl

theorem ofChar?_eq_none (h : c ∉ ['&', '|', '(', ')', '!']) : ofChar? c = none := by
  rw [ofChar?.eq_def]
  split
  iterate 5 exact absurd (by decide) h
  rfl

end Lexeme

namespace Scanner

variable {s : Scanner}

/-- The conditions of all units from the scanner on, whatever stands between them, and the scanner
behind them. Units without a column are dropped. -/
def flatPass (s : Scanner) : List Condition × Scanner :=
  match _hp : s.peek with
  | none => ([], s)
  | some c =>
    if _hc : isFiller c = true then s.advance.flatPass
    else
      let (conditions, t) := s.readUnit.2.flatPass
      (s.readUnit.1.toList ++ conditions, t)
termination_by s.rest.length
decreasing_by
  · exact advance_lt _hp
  · refine readUnit_rest_length _hp fun hm => _hc ?_
    rw [isFiller, List.contains_iff_mem.2 hm, Bool.or_true]

/-- The position behind the last character. -/
def stop (s : Scanner) : Nat := s.position + byteSize s.rest

theorem stop_advance (s : Scanner) : s.advance.stop = s.stop := by
  obtain ⟨n, cs⟩ := s
  cases cs with
  | nil => rfl
  | cons c cs => simp [stop, Nat.add_assoc]

theorem stop_readUnit (s : Scanner) : s.readUnit.2.stop = s.stop := by
  obtain ⟨n, cs⟩ := s
  obtain ⟨u, rest, condition, rfl, hread⟩ := local_readUnit n cs
  rw [hread rest (.refl rest), stop, stop, byteSize_append, Nat.add_assoc]

/-- The pass goes through to the end. -/
theorem flatPass_snd (s : Scanner) : s.flatPass.2 = ⟨s.stop, []⟩ := by
  fun_induction flatPass s with
  | case1 s hp =>
    obtain ⟨n, cs⟩ := s
    obtain rfl : cs = [] := List.head?_eq_none_iff.1 hp
    rfl
  | case2 s c hp hc ih => rw [ih, stop_advance]
  | case3 s c hp hc conditions t heq ih =>
    rw [← stop_readUnit, ← ih, heq]

section
variable {c : Char} (hp : s.peek = some c)
include hp

theorem lexemes_of_isBlank (hb : isBlank c = true) : s.lexemes = s.advance.lexemes := by
  obtain ⟨n, cs⟩ := s
  obtain ⟨cs, rfl⟩ := List.head?_eq_some_iff.1 hp
  have hskip : (⟨n, c :: cs⟩ : Scanner).skipBlanks =
      (⟨n + c.utf8Size, cs⟩ : Scanner).skipBlanks := by
    simp [skipBlanks, skipWhile, hb, Nat.add_assoc]
  have hread : (⟨n, c :: cs⟩ : Scanner).readLexeme? =
      (⟨n + c.utf8Size, cs⟩ : Scanner).readLexeme? := by
    rw [readLexeme?, hskip]
    rfl
  rw [advance_cons, lexemes, lexemes, hread]

theorem lexemes_of_not_isBlank (hb : isBlank c = false) : s.lexemes =
    match Lexeme.ofChar? c with
    | some l => ⟨l, c, s.position⟩ :: s.advance.lexemes
    | none => ⟨.unit s.readUnit.1, c, s.position⟩ :: s.readUnit.2.lexemes := by
  obtain ⟨n, cs⟩ := s
  obtain ⟨cs, rfl⟩ := List.head?_eq_some_iff.1 hp
  have hread := readLexeme?_eq (List.forall_mem_nil _) hb n cs
  rw [List.nil_append] at hread
  cases hl : Lexeme.ofChar? c with
  | some l =>
    rw [hl] at hread
    exact lexemes_eq_cons hread
  | none =>
    rw [hl] at hread
    exact lexemes_eq_cons hread

end

/-- The pass finds the units that are among the lexemes. -/
theorem flatPass_fst (s : Scanner) : s.flatPass.1 = s.lexemes.flatMap (·.lexeme.units) := by
  fun_induction flatPass s with
  | case1 s hp =>
    obtain ⟨n, cs⟩ := s
    obtain rfl : cs = [] := List.head?_eq_none_iff.1 hp
    rw [lexemes_eq_nil (readLexeme?_blanks (List.forall_mem_nil _) n)]
    rfl
  | case2 s c hp hc ih =>
    cases hb : isBlank c with
    | true => rw [ih, lexemes_of_isBlank hp hb]
    | false =>
      rw [isFiller, hb, Bool.false_or, List.contains_iff_mem] at hc
      cases hl : Lexeme.ofChar? c with
      | none => exact absurd hc (Lexeme.not_mem_of_ofChar?_eq_none hl)
      | some l =>
        rw [ih, lexemes_of_not_isBlank hp hb, hl, List.flatMap_cons, Lexeme.units_of_ofChar? hl]
        rfl
  | case3 s c hp hc conditions t heq ih =>
    rw [isFiller, Bool.or_eq_true, not_or, List.contains_iff_mem, Bool.not_eq_true] at hc
    rw [lexemes_of_not_isBlank hp hc.1, Lexeme.ofChar?_eq_none hc.2, List.flatMap_cons, ← ih, heq]
    refine congrArg (· ++ conditions) ?_
    cases hu : s.readUnit.1 with
    | none => rfl
    | some condition =>
      have hupright := Condition.upright_of_ne (readUnit_unit hu).value_ne_false
      exact (congrArg ([·]) hupright).symm

end Scanner

/-- **No condition is lost**, doubled or moved in reading a query. -/
theorem Rule.flatPass_of_parse {query : String} {r : Rule} (h : parse query = .ok r) :
    (Scanner.ofString query).flatPass =
      (r.conditions.map Condition.upright, ⟨byteSize query.toList, []⟩) := by
  refine Prod.ext ?_ ?_
  · rw [Scanner.flatPass_fst]
    exact (units_of_parse h).symm
  · rw [Scanner.flatPass_snd, Scanner.stop, Scanner.ofString, Nat.zero_add]

/-- Stray parentheses, a dropped negation, a list that ends early and groups that do not end. -/
theorem Rule.flatPass_of_parse_mended :
    ∃ r, parse ") !(a & é!=(1|x &!)| !b & (c>" = .ok r ∧
      (Scanner.ofString ") !(a & é!=(1|x &!)| !b & (c>").flatPass =
        (r.conditions.map Condition.upright, ⟨30, []⟩) ∧
      r.conditions.map (·.column) = ["a", "é", "b", "c"] := by
  have h : (parse ") !(a & é!=(1|x &!)| !b & (c>").toOption.map (·.conditions.map (·.column)) =
      some ["a", "é", "b", "c"] := by
    decide +kernel
  obtain ⟨r, hr, hc⟩ := Option.map_eq_some_iff.1 h
  have hp := parse_eq_ok_of_toOption hr
  exact ⟨r, hp, flatPass_of_parse hp, hc⟩

end FilterQuery
