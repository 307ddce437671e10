import FilterQuery.Proofs.Query.Layout
import FilterQuery.Proofs.Query.Rejection

/-!
How a query begins. A lenient reading reads the beginning of a query and nothing else of it. Where a
text begins with a coded column, a condition is read there whatever comes behind, and the parts that
are written one behind the other are where its annotation says.
-/

namespace FilterQuery

open Text

namespace Rule

/-- What is read leniently is what a beginning of the query stands for, and its lexemes are the
first ones of the query. -/
theorem exists_parse_parseLenient (query : String) : ∃ before, before <+: query.toList ∧
    parse (.ofList before) = .ok (parseLenient query).1 ∧
    lexemes (.ofList before) <+: lexemes query := by
  cases hr : Parse.State.run {} (lexemes query) with
  | ok s =>
    rw [parseLenient, parse_of_run hr]
    refine ⟨query.toList, List.prefix_rfl, ?_, ?_⟩
    · rw [String.ofList_toList, parse_of_run hr]
    · simpa only [String.ofList_toList] using List.prefix_rfl
  | error r =>
    obtain ⟨o, reason⟩ := r
    obtain ⟨os, os', s, hos, hs, -⟩ := Parse.State.exists_of_run_eq_error hr
    obtain ⟨before, after, hq, hstart, -, -, hbefore, -⟩ := Scanner.lexemes_split hos
    have hlex : lexemes (.ofList before) = os := by
      rw [lexemes, Scanner.ofString, String.toList_ofList, hbefore]
    have hp : parse query = .error ⟨query, o.first, o.start + o.first.utf8Size, reason⟩ := by
      rw [parse, hr]
    have hvalid := parse_of_run (hlex ▸ hs)
    refine ⟨before, hq ▸ List.prefix_append _ _, ?_, ?_⟩
    · simp only [parseLenient, hp, SyntaxError.offset, Nat.add_sub_cancel]
      rw [hq, hstart, Nat.zero_add, charsBefore_append, hvalid]
      rfl
    · rw [hlex, hos]
      exact List.prefix_append _ _

/-- The conditions that are read leniently are the first ones of the query. -/
theorem units_parseLenient (query : String) :
    (parseLenient query).1.units <+: (Scanner.ofString query).flatPass.1 := by
  obtain ⟨before, -, hp, ⟨os, hos⟩⟩ := exists_parse_parseLenient query
  have hlex : (Scanner.ofString query).lexemes = _ := hos.symm
  rw [units_of_parse hp, Scanner.flatPass_fst, hlex, List.flatMap_append]
  exact List.prefix_append _ _

end Rule

namespace Scanner

/-! ### Passing over marks and units -/

theorem flatPass_fst_of_peek {s : Scanner} {c : Char} (hp : s.peek = some c) :
    s.flatPass.1 = if isFiller c then s.advance.flatPass.1
      else s.readUnit.1.toList ++ s.readUnit.2.flatPass.1 := by
  rw [flatPass]
  split <;> rename_i hp'
  · rw [hp'] at hp
    cases hp
  · obtain rfl := Option.some.inj (hp'.symm.trans hp)
    split <;> rfl

/-- A condition is read from its text, up to the end of the unit. -/
theorem flatPass_spelling {c : Condition} (hc : c.WellFormed) {rest : List Char} (h : UnitEnd rest)
    (p : Nat) : (⟨p, c.spelling ++ rest⟩ : Scanner).flatPass.1 =
      c.readAt p :: (⟨p + byteSize c.spelling, rest⟩ : Scanner).flatPass.1 := by
  obtain ⟨o, hread, ho⟩ := readLexeme?_unit hc h p
  have hv : (c.readAt p).value ≠ .flag false := by
    obtain ⟨column, op, value, note⟩ := c
    cases value <;> simp [Condition.readAt, Condition.positive, Condition.bare]
  rw [flatPass_fst, lexemes_eq_cons hread, List.flatMap_cons, ho, ← flatPass_fst]
  exact congrArg (· :: _) (Condition.upright_of_ne hv)

section
variable {column : String} (hc : column ≠ "")
include hc

/-- Where a coded column stands a condition is read, which begins there. -/
theorem flatPass_column (rest : List Char) (p : Nat) :
    ∃ c, (⟨p, Percent.encodeChars column.toList ++ rest⟩ : Scanner).readUnit.1 = some c ∧
      c.note.column = some p ∧
      (⟨p, Percent.encodeChars column.toList ++ rest⟩ : Scanner).flatPass.1 =
        c :: (⟨p, Percent.encodeChars column.toList ++ rest⟩ : Scanner).readUnit.2.flatPass.1 := by
  cases hd : Percent.encodeChars column.toList with
  | nil => exact absurd (by simpa using hd) hc
  | cons d ds =>
    have hcoded : Percent.IsCoded d := Percent.isCoded_of_mem_encodeChars (hd ▸ List.mem_cons_self)
    have hdelim := not_mem_delimiters_of_isCoded hcoded
    have hb := hcoded.not_isBlank
    generalize hs : (⟨p, d :: ds ++ rest⟩ : Scanner) = s
    have hp : s.peek = some d := hs ▸ rfl
    have hfiller : isFiller d = false := by
      simp only [delimiters, List.mem_cons, List.not_mem_nil, or_false, not_or] at hdelim
      simp [isFiller, hb, hdelim]
    have hempty : (s.readRun delimiters).1.isEmpty = false := by
      have hmem : d ∈ s.rest.takeWhile fun c => !delimiters.contains c := by
        rw [← hs, List.cons_append, List.takeWhile_cons_of_pos (by simpa using hdelim)]
        exact List.mem_cons_self
      refine eq_false_of_ne_true fun he => ?_
      have hblank := trim_eq_nil_iff.1 (List.isEmpty_iff.1 he) d hmem
      rw [hb] at hblank
      cases hblank
    have hoffset : (s.readRun delimiters).1.offset = p := by
      rw [readRun_offset, ← hs]
      rintro _ hc
      obtain rfl := Option.some.inj (hp.symm.trans hc)
      exact hb
    have hunit : ∃ c, s.readUnit.1 = some c ∧ c.note.column = some p := by
      rw [readUnit]
      dsimp only
      rw [hempty, hoffset]
      split
      · exact ⟨_, rfl, rfl⟩
      · exact ⟨_, rfl, rfl⟩
    obtain ⟨c, hunit, hcolumn⟩ := hunit
    refine ⟨c, hunit, hcolumn, ?_⟩
    rw [flatPass_fst_of_peek hp, hfiller, if_neg Bool.false_ne_true, hunit]
    rfl

end

/-- A value begins behind the blanks, unless it is empty. -/
theorem readValue_offset (s : Scanner) :
    s.readValue.2.1 = if s.readValue.1 = .text "" then none else some s.skipBlanks.position := by
  have ho := readRun_offset (head?_skipBlanks s) delimiters
  rw [readValue]
  dsimp only
  cases s.skipBlanks.eat? '(' with
  | some t => rfl
  | none =>
    dsimp only
    split <;> rename_i he
    · rfl
    · have hn := decoded_ne (eq_false_of_ne_true he)
      rw [if_neg (by simpa using hn), ho]

/-- Behind a coded column the operator is read, and the value behind that. -/
theorem readUnit_operator {column : String} (hc : column ≠ "") (op : Comparison)
    (rest : List Char) (p : Nat) : ∃ (op' : Comparison) (t : Scanner),
      let operator := p + byteSize (Percent.encodeChars column.toList)
      (op' = op → t = ⟨operator + byteSize op.spelling, rest⟩) ∧
      (⟨p, Percent.encodeChars column.toList ++ (op.spelling ++ rest)⟩ : Scanner).readUnit =
        (some ⟨column, op', t.readValue.1,
          { column := p, operator, value := t.readValue.2.1 }⟩, t.readValue.2.2) := by
  have hrun := readRun_encodeChars column.toList (stopsAt_operator op rest) p
  generalize p + byteSize (Percent.encodeChars column.toList) = operator at hrun ⊢
  cases hop : (⟨operator, op.spelling ++ rest⟩ : Scanner).readComparison? with
  | none => exact absurd (List.prefix_append _ _) (readComparison?_eq_none_iff.1 hop op)
  | some r =>
    obtain ⟨op', t⟩ := r
    refine ⟨op', t, ?_, ?_⟩
    · rintro rfl
      obtain ⟨ht, hread⟩ := readComparison?_of_resembles hop
      rw [← List.append_cancel_left ht] at hread
      have hread := (hread rest (.refl rest)).symm.trans hop
      exact (congrArg Prod.snd (Option.some.inj hread)).symm
    · rw [readUnit]
      simp only [hrun, hop, Run.isEmpty, Run.decoded, Percent.decodeChars_encodeChars,
        String.ofList_toList, List.isEmpty_iff, Percent.encodeChars_eq_nil,
        String.toList_eq_nil_iff, hc, if_false]

/-- A condition whose column and operator are written one behind the other. The operator is where
the column ends, and the value behind the operator and the blanks there. -/
theorem note_of_readUnit {c : Condition} (hc : c.column ≠ "") {rest : List Char} {p : Nat}
    (h : (⟨p, Percent.encodeChars c.column.toList ++ (c.comparison.spelling ++ rest)⟩ :
      Scanner).readUnit.1 = some c) :
    let operator := p + byteSize (Percent.encodeChars c.column.toList)
    let behind : Scanner := ⟨operator + byteSize c.comparison.spelling, rest⟩
    c.note.operator = some operator ∧
      c.note.value = if c.value = .text "" then none else some behind.skipBlanks.position := by
  intro operator behind
  obtain ⟨op, t, ht, hunit⟩ := readUnit_operator hc c.comparison rest p
  rw [hunit] at h
  have h := Option.some.inj h
  obtain rfl : t = behind := ht (congrArg Condition.comparison h)
  have hvalue : behind.readValue.1 = c.value := congrArg Condition.value h
  have hnote := congrArg Condition.note h
  rw [← hnote, ← hvalue]
  exact ⟨rfl, readValue_offset behind⟩

end Scanner
end FilterQuery
