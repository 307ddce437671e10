import FilterQuery.Proofs.Query.FlatPass

/-!
Where the parts of a condition stand. The offsets in the annotation of a condition count the bytes
of the query in front of a part: its column and its value as runs of text, and its operator between
them. From one condition to the next they only grow, so no part stands in front of an earlier one.
-/

namespace FilterQuery

open Text

/-! ### Places in a text -/

namespace Scanner

variable {text : List Char}

/-- The scanner is at a place of the text: what it has left ends the text, and its position counts
the bytes in front of that. -/
def StandsIn (text : List Char) (s : Scanner) : Prop :=
  ∃ before, text = before ++ s.rest ∧ s.position = byteSize before

theorem standsIn_ofString (query : String) : (ofString query).StandsIn query.toList :=
  ⟨[], rfl, rfl⟩

/-- Such a place is between two characters of the text. -/
theorem StandsIn.isValid {query : String} {s : Scanner} (H : s.StandsIn query.toList) :
    (⟨s.position⟩ : String.Pos.Raw).IsValid query ∧
      s.position + byteSize s.rest = query.utf8ByteSize := by
  obtain ⟨before, ht, hp⟩ := H
  have hquery : query = .ofList before ++ .ofList s.rest := by
    rw [← String.ofList_append, ← ht, String.ofList_toList]
  refine ⟨String.Pos.Raw.isValid_iff_exists_append.2 ⟨_, _, hquery, ?_⟩, ?_⟩
  · rw [hp, ← utf8ByteSize_ofList]
    rfl
  · rw [hp, ← byteSize_append, ← ht, ← utf8ByteSize_ofList, String.ofList_toList]

theorem StandsIn.append {n : Nat} {u rest : List Char} (H : StandsIn text ⟨n, u ++ rest⟩) :
    StandsIn text ⟨n + byteSize u, rest⟩ := by
  obtain ⟨before, ht, hp⟩ := H
  refine ⟨before ++ u, by simpa using ht, ?_⟩
  rw [byteSize_append]
  exact congrArg (· + byteSize u) hp

/-- Reading comes to a place further on. -/
theorem StandsIn.of_local {α : Type} {f : Scanner → α × Scanner} {s : Scanner}
    (H : s.StandsIn text) (h : Local f s.position s.rest) :
    (f s).2.StandsIn text ∧ s.position ≤ (f s).2.position := by
  obtain ⟨n, cs⟩ := s
  obtain ⟨u, rest, a, rfl, hf⟩ := h
  rw [hf rest (.refl rest)]
  exact ⟨H.append, Nat.le_add_right ..⟩

/-- At `start` the text spells `piece`, and only the blanks of `gap` are between that and the
scanner. -/
structure Behind (text : List Char) (start : Nat) (piece gap : List Char) (s : Scanner) : Prop where
  spelled : StandsIn text ⟨start, piece ++ (gap ++ s.rest)⟩
  blank : ∀ c ∈ gap, isBlank c = true
  position_eq : s.position = start + byteSize (piece ++ gap)

end Scanner

open Scanner

/-- The run is one of the text: a stretch up to a delimiter or the end, without the blanks around
it. The scanner is behind that stretch. -/
structure Run.StandsIn (text : List Char) (r : Run) (s : Scanner) : Prop where
  raw_ne : r.raw ≠ []
  trim_eq : trim r.raw = r.raw
  not_mem : ∀ c ∈ r.raw, c ∉ delimiters
  behind : ∃ gap, Behind text r.offset r.raw gap s
  stopsAt : StopsAt delimiters s.rest

theorem Run.StandsIn.exists_standsIn {text : List Char} {r : Run} {s : Scanner}
    (H : r.StandsIn text s) : ∃ rest, rest ≠ [] ∧ Scanner.StandsIn text ⟨r.offset, rest⟩ := by
  obtain ⟨gap, hgap⟩ := H.behind
  exact ⟨_, List.append_ne_nil_of_left_ne_nil H.raw_ne _, hgap.spelled⟩

/-- The operator is spelled at `start`, where no longer one is. -/
def Comparison.StandsIn (text : List Char) (op : Comparison) (start : Nat) (s : Scanner) : Prop :=
  ∃ gap, Behind text start op.spelling gap s ∧ ∀ op' : Comparison,
    op'.spelling <+: op.spelling ++ (gap ++ s.rest) → op'.spelling <+: op.spelling

/-- What stands at the offset of a value, which only a list and a text that is not empty have. -/
def Value.StandsIn (text : List Char) (offset : Option Nat) : Value → Prop
  | flag _ => offset = none
  | .text s => (offset = none ↔ s = "") ∧
      ∀ o ∈ offset, ∃ run t, Run.StandsIn text run t ∧ run.offset = o ∧ run.decoded = s
  | list items => ∃ o rest, offset = some o ∧ Scanner.StandsIn text ⟨o, '(' :: rest⟩ ∧
      (readItems ⟨o + '('.utf8Size, rest⟩).1 = items

/-- The offsets of the condition point at what they name, the column in front of the operator and
that in front of the value, with nothing but blanks between these. -/
structure Condition.Placed (text : List Char) (c : Condition) : Prop where
  column : ∃ run s, Run.StandsIn text run s ∧ c.note.column = some run.offset ∧
    run.decoded = c.column ∧ ∀ p ∈ c.note.operator, p = s.position
  operator : ∀ p ∈ c.note.operator, ∃ s, c.comparison.StandsIn text p s ∧
    ∀ o ∈ c.note.value, o = s.position
  operator_eq_none : c.note.operator = none ↔ ∃ set, c.value = .flag set
  value : c.value.StandsIn text c.note.value

/-! ### Offsets in a row -/

theorem Annotation.mem_offsets {a : Annotation} {o : Nat} :
    o ∈ a.offsets ↔ o ∈ a.column ∨ o ∈ a.operator ∨ o ∈ a.value := by
  simp [offsets]

/-- The numbers grow, from `lo` on and below `hi`. -/
structure Ascending (lo hi : Nat) (l : List Nat) : Prop where
  le : lo ≤ hi
  sorted : l.Pairwise (· < ·)
  bounds : ∀ o ∈ l, lo ≤ o ∧ o < hi

namespace Ascending

variable {a b c o : Nat} {l l' : List Nat}

theorem nil (h : a ≤ b) : Ascending a b [] := ⟨h, .nil, List.forall_mem_nil _⟩

theorem singleton (h : a ≤ o) (h' : o < b) : Ascending a b [o] where
  le := by omega
  sorted := List.pairwise_singleton ..
  bounds := by simpa using ⟨h, h'⟩

theorem append (H : Ascending a b l) (H' : Ascending b c l') : Ascending a c (l ++ l') where
  le := H.le.trans H'.le
  sorted := List.pairwise_append.2 ⟨H.sorted, H'.sorted, fun m hm n hn =>
    (H.bounds m hm).2.trans_le (H'.bounds n hn).1⟩
  bounds := by
    have hle := H.le
    have hle' := H'.le
    intro m hm
    rcases List.mem_append.1 hm with hm | hm
    · have := H.bounds m hm
      omega
    · have := H'.bounds m hm
      omega

end Ascending

/-! ### Parts of a unit -/

theorem Scanner.Behind.lt {text piece gap : List Char} {start : Nat} {s : Scanner}
    (H : Behind text start piece gap s) (h : piece ≠ []) : start < s.position := by
  have := byteSize_pos h
  rw [H.position_eq, byteSize_append]
  omega

theorem Run.StandsIn.lt {text : List Char} {r : Run} {s : Scanner} (H : r.StandsIn text s) :
    r.offset < s.position := by
  obtain ⟨gap, hgap⟩ := H.behind
  exact hgap.lt H.raw_ne

theorem Scanner.head?_skipBlanks (s : Scanner) :
    ∀ c ∈ s.skipBlanks.rest.head?, isBlank c = false := by
  intro c hc
  have hn := List.head?_dropWhile_not isBlank s.rest
  rwa [show (s.rest.dropWhile isBlank).head? = some c from hc] at hn

/-- A run that begins without blanks begins where reading does. -/
theorem Scanner.readRun_offset {s : Scanner} (h : ∀ c ∈ s.rest.head?, isBlank c = false)
    (stops : List Char) : (s.readRun stops).1.offset = s.position := by
  obtain ⟨n, _ | ⟨c, cs⟩⟩ := s
  · rfl
  · have hb : ¬ isBlank c = true := by simp [h c rfl]
    rw [Scanner.readRun]
    dsimp only
    split
    · rfl
    · rw [List.takeWhile_cons]
      split
      · rw [List.takeWhile_cons_of_neg hb]; rfl
      · rfl

namespace Scanner.StandsIn

variable {text : List Char} {s t : Scanner} (H : s.StandsIn text)
include H

theorem skipBlanks : s.skipBlanks.StandsIn text ∧ s.position ≤ s.skipBlanks.position := by
  obtain ⟨n, cs⟩ := s
  obtain ⟨u, rest, rfl, hu, hr⟩ := exists_span isBlank cs
  rw [skipBlanks_append hu hr]
  exact ⟨H.append, Nat.le_add_right ..⟩

theorem readRun : (s.readRun delimiters).2.StandsIn text ∧
    s.position ≤ (s.readRun delimiters).2.position :=
  H.of_local (local_readRun delimiters _ _)

/-- A run that is not blank throughout stands where it is read. -/
theorem run (hn : (s.readRun delimiters).1.isEmpty = false) :
    Run.StandsIn text (s.readRun delimiters).1 (s.readRun delimiters).2 ∧
      s.position ≤ (s.readRun delimiters).1.offset := by
  obtain ⟨n, cs⟩ := s
  obtain ⟨u, rest, rfl, hu, hr⟩ := exists_span (fun c => !delimiters.contains c) cs
  obtain ⟨gap, hgap, hblank⟩ := eq_trim u
  have hne : (trim u).isEmpty = false := by
    simpa only [Run.isEmpty, Scanner.readRun, takeWhile_append hu hr] using hn
  have hread : (⟨n, u ++ rest⟩ : Scanner).readRun delimiters =
      (⟨trim u, n + byteSize (u.takeWhile isBlank)⟩, ⟨n + byteSize u, rest⟩) := by
    simp only [Scanner.readRun, takeWhile_append hu hr, skipWhile_append hu hr, hne,
      Bool.false_eq_true, if_false]
  have hmem {c : Char} (hc : c ∈ trim u) : c ∈ u := by
    rw [hgap]
    exact List.mem_append_right _ (List.mem_append_left _ hc)
  -- The offset is behind the blanks in front; those at the end of the stretch are the gap.
  have hspelled : StandsIn text
      ⟨n + byteSize (u.takeWhile isBlank), trim u ++ (gap ++ rest)⟩ := by
    refine append (u := u.takeWhile isBlank) ?_
    rw [← List.append_assoc (trim u), ← List.append_assoc, ← hgap]
    exact H
  have hstop : n + byteSize u = n + byteSize (u.takeWhile isBlank) + byteSize (trim u ++ gap) := by
    rw [Nat.add_assoc, ← byteSize_append, ← hgap]
  rw [hread]
  exact ⟨{
    raw_ne := by simpa using hne
    trim_eq := trim_trim u
    not_mem := fun c hc => by simpa using hu c (hmem hc)
    behind := ⟨gap, hspelled, hblank, hstop⟩
    stopsAt := fun c hc => by simpa using hr c hc }, Nat.le_add_right ..⟩

theorem readComparison? {op : Comparison} (h : s.readComparison? = some (op, t)) :
    t.StandsIn text ∧ s.position < t.position ∧ op.StandsIn text s.position t.skipBlanks := by
  have hlong := isPrefix_of_readComparison? h
  obtain ⟨n, cs⟩ := s
  obtain ⟨rfl, hread⟩ := readComparison?_of_resembles h
  rw [hread t.rest (.refl _)] at h
  obtain ⟨p, cs⟩ := t
  obtain ⟨-, ht⟩ := Prod.mk.inj (Option.some.inj h)
  obtain ⟨rfl, -⟩ := Scanner.mk.inj ht
  obtain ⟨gap, rest, rfl, hgap, hr⟩ := exists_span isBlank cs
  have hne : op.spelling ≠ [] := by cases op <;> exact List.cons_ne_nil _ _
  rw [skipBlanks_append hgap hr]
  refine ⟨H.append, Nat.lt_add_of_pos_right (byteSize_pos hne), gap, ⟨H, hgap, ?_⟩, hlong⟩
  rw [byteSize_append, Nat.add_assoc]

theorem readValue : s.readValue.2.2.StandsIn text ∧
    s.readValue.1.StandsIn text s.readValue.2.1 ∧
    (∀ o ∈ s.readValue.2.1, o = s.skipBlanks.position) ∧
    Ascending s.position s.readValue.2.2.position s.readValue.2.1.toList := by
  obtain ⟨hs, hle⟩ := H.skipBlanks
  have hb := head?_skipBlanks s
  rw [Scanner.readValue]
  dsimp only
  generalize s.skipBlanks = t at hs hle hb ⊢
  cases he : t.eat? '(' with
  | some u =>
    obtain ⟨n, cs⟩ := t
    simp only [eat?, Option.ite_none_right_eq_some, Option.some.injEq] at he
    obtain ⟨hp, rfl⟩ := he
    obtain ⟨rest, rfl⟩ := List.head?_eq_some_iff.1 hp
    have hopen : StandsIn text ⟨n + '('.utf8Size, rest⟩ := hs.append (u := ['('])
    obtain ⟨hu, hle'⟩ := hopen.of_local (local_readItems _ _)
    refine ⟨hu, ⟨n, rest, rfl, hs, rfl⟩, by simp, .singleton hle ?_⟩
    exact Nat.lt_of_lt_of_le (Nat.lt_add_of_pos_right ('('.utf8Size_pos)) hle'
  | none =>
    obtain ⟨hu, hle'⟩ := hs.readRun
    have ho := readRun_offset hb delimiters
    dsimp only
    split <;> rename_i hempty
    · exact ⟨hu, ⟨by simp, by simp⟩, by simp, .nil (hle.trans hle')⟩
    · rw [Bool.not_eq_true] at hempty
      obtain ⟨hrun, hle'⟩ := hs.run hempty
      refine ⟨hu, ⟨?_, ?_⟩, by simp [ho], .singleton (hle.trans hle') hrun.lt⟩
      · simpa using decoded_ne hempty
      · rintro _ ⟨⟩
        exact ⟨_, _, hrun, rfl, rfl⟩

/-- What is read as a condition is placed, and its offsets are between the ends of the unit. -/
theorem readUnit : s.readUnit.2.StandsIn text ∧ (∀ c ∈ s.readUnit.1, c.Placed text) ∧
    Ascending s.position s.readUnit.2.position (s.readUnit.1.toList.flatMap (·.note.offsets)) := by
  obtain ⟨ht, hle⟩ := H.readRun
  have hrun := H.run
  rw [Scanner.readUnit]
  dsimp only
  -- From here on only where the run stands matters, not how it was read.
  generalize (s.readRun delimiters).2 = t at ht hle hrun ⊢
  generalize (s.readRun delimiters).1 = run at hrun ⊢
  cases hop : t.readComparison? with
  | none =>
    cases he : run.isEmpty with
    | true => exact ⟨ht, by simp, .nil hle⟩
    | false =>
      obtain ⟨hrun, hlo⟩ := hrun he
      refine ⟨ht, ?_, .singleton hlo hrun.lt⟩
      rintro _ ⟨⟩
      exact {
        column := ⟨run, t, hrun, rfl, rfl, by simp⟩
        operator := by simp
        operator_eq_none := iff_of_true rfl ⟨true, rfl⟩
        value := rfl }
  | some r =>
    obtain ⟨op, u⟩ := r
    obtain ⟨hu, hlt, hstands⟩ := ht.readComparison? hop
    obtain ⟨hv, hvalue, hskip, hasc⟩ := hu.readValue
    have hnot := (readValue_ne u).2
    dsimp only
    generalize u.readValue.1 = value at hvalue hnot ⊢
    generalize u.readValue.2.1 = offset at hvalue hskip hasc ⊢
    cases he : run.isEmpty with
    | true => exact ⟨hv, by simp, .nil (hle.trans (hlt.le.trans hasc.le))⟩
    | false =>
      obtain ⟨hrun, hlo⟩ := hrun he
      have hcolumn := Ascending.singleton hlo hrun.lt
      have hoperator := Ascending.singleton (Nat.le_refl t.position) hlt
      refine ⟨hv, ?_, ?_⟩
      · rintro _ ⟨⟩
        exact {
          column := ⟨run, t, hrun, rfl, rfl, by rintro _ ⟨⟩; rfl⟩
          operator := by rintro _ ⟨⟩; exact ⟨_, hstands, hskip⟩
          operator_eq_none := iff_of_false (Option.some_ne_none _) (not_exists.2 hnot)
          value := hvalue }
      · simp only [if_false, Bool.false_eq_true, Option.toList_some, List.flatMap_singleton]
        exact (hcolumn.append hoperator).append hasc

/-! ### Units in a row -/

theorem advance (hp : s.peek ≠ none) :
    s.advance.StandsIn text ∧ s.position ≤ s.advance.position := by
  obtain ⟨n, _ | ⟨c, cs⟩⟩ := s
  · exact absurd rfl hp
  · exact ⟨append (u := [c]) H, Nat.le_add_right ..⟩

/-- All conditions are placed, one behind the other. -/
theorem flatPass : (∀ c ∈ s.flatPass.1, c.Placed text) ∧
    Ascending s.position s.flatPass.2.position (s.flatPass.1.flatMap (·.note.offsets)) := by
  fun_induction Scanner.flatPass s with
  | case1 s hp => exact ⟨List.forall_mem_nil _, .nil (Nat.le_refl _)⟩
  | case2 s c hp hc ih =>
    obtain ⟨ht, hle⟩ := H.advance (by simp [hp])
    obtain ⟨hplaced, hasc⟩ := ih ht
    exact ⟨hplaced, (Ascending.nil hle).append hasc⟩
  | case3 s c hp hc conditions t heq ih =>
    obtain ⟨ht, hunit, hasc⟩ := H.readUnit
    rw [heq] at ih
    obtain ⟨hplaced, hasc'⟩ := ih ht
    refine ⟨fun c hc => ?_, ?_⟩
    · rcases List.mem_append.1 hc with hc | hc
      · exact hunit c (Option.mem_toList.1 hc)
      · exact hplaced c hc
    · rw [List.flatMap_append]
      exact hasc.append hasc'

end Scanner.StandsIn

/-! ### Offsets of a rule -/

namespace Condition

/-- Whether a test is turned over has no part in where it stands. -/
theorem placed_upright {text : List Char} {c : Condition} :
    c.upright.Placed text ↔ c.Placed text := by
  obtain ⟨column, op, value, note⟩ := c
  cases value with
  | flag set =>
    refine ⟨fun ⟨h, h', hn, hv⟩ => ⟨h, h', hn.trans ?_, hv⟩,
      fun ⟨h, h', hn, hv⟩ => ⟨h, h', hn.trans ?_, hv⟩⟩
    · exact iff_of_true ⟨true, rfl⟩ ⟨set, rfl⟩
    · exact iff_of_true ⟨set, rfl⟩ ⟨true, rfl⟩
  | _ => exact Iff.rfl

/-- Something stands at every offset. -/
theorem Placed.exists_standsIn {text : List Char} {c : Condition} (H : c.Placed text) {o : Nat}
    (ho : o ∈ c.note.offsets) : ∃ rest, rest ≠ [] ∧ Scanner.StandsIn text ⟨o, rest⟩ := by
  rcases Annotation.mem_offsets.1 ho with ho | ho | ho
  · obtain ⟨run, s, hrun, hcolumn, -, -⟩ := H.column
    obtain rfl : run.offset = o := Option.some.inj (hcolumn.symm.trans ho)
    exact hrun.exists_standsIn
  · obtain ⟨s, ⟨gap, hop, -⟩, -⟩ := H.operator o ho
    exact ⟨_, by cases c.comparison <;> exact List.cons_ne_nil _ _, hop.spelled⟩
  · have hv := H.value
    rw [ho] at hv
    cases hc : c.value with
    | flag set =>
      rw [hc] at hv
      cases hv
    | text t =>
      rw [hc] at hv
      obtain ⟨run, s, hrun, rfl, -⟩ := hv.2 o rfl
      exact hrun.exists_standsIn
    | list items =>
      rw [hc] at hv
      obtain ⟨_, rest, ⟨⟩, hs, -⟩ := hv
      exact ⟨_, List.cons_ne_nil _ _, hs⟩

end Condition

/-- **Offsets point at what they name.** All through the query they grow, each one is the place of
some character, and each condition is where its offsets say. -/
theorem Rule.placed_of_parse {query : String} {r : Rule} (h : parse query = .ok r) :
    (r.conditions.flatMap (·.note.offsets)).Pairwise (· < ·) ∧
      (∀ o ∈ r.conditions.flatMap (·.note.offsets),
        (⟨o⟩ : String.Pos.Raw).IsValid query ∧ o < query.utf8ByteSize) ∧
      ∀ c ∈ r.conditions, c.Placed query.toList := by
  obtain ⟨hplaced, hasc⟩ := (Scanner.standsIn_ofString query).flatPass
  -- One pass finds the conditions of the rule, but for the tests that negations have turned over.
  have hunits : (Scanner.ofString query).flatPass.1 = r.conditions.map Condition.upright := by
    rw [Scanner.flatPass_fst]
    exact (units_of_parse h).symm
  rw [hunits] at hplaced hasc
  rw [List.flatMap_map] at hasc
  have hplaced : ∀ c ∈ r.conditions, c.Placed query.toList := fun c hc =>
    Condition.placed_upright.1 (hplaced c.upright (List.mem_map_of_mem hc))
  refine ⟨?_, fun o ho => ?_, hplaced⟩
  · have hnote : ∀ c : Condition, c.upright.note = c.note := fun ⟨_, _, v, _⟩ => by cases v <;> rfl
    simpa only [hnote] using hasc.sorted
  · obtain ⟨c, hc, ho⟩ := List.mem_flatMap.1 ho
    obtain ⟨rest, hne, hs⟩ := (hplaced c hc).exists_standsIn ho
    obtain ⟨hvalid, hsize⟩ := hs.isValid
    have := byteSize_pos hne
    dsimp only at hvalid hsize
    exact ⟨hvalid, by omega⟩

/-- Characters of several bytes, blanks of all kinds, long operators, a list and coded text. -/
theorem Rule.placed_of_parse_wide :
    ∃ r, parse "!ü &(  é\u00a0>=\u3000ü%26x | b b!= (1|2 & c<)" = .ok r ∧
      r.conditions.flatMap (·.note.offsets) = [1, 8, 12, 17, 26, 29, 32, 39, 40] ∧
      ∀ c ∈ r.conditions,
        c.Placed "!ü &(  é\u00a0>=\u3000ü%26x | b b!= (1|2 & c<)".toList := by
  have h : (parse "!ü &(  é\u00a0>=\u3000ü%26x | b b!= (1|2 & c<)").toOption.map
      (·.conditions.flatMap (·.note.offsets)) = some [1, 8, 12, 17, 26, 29, 32, 39, 40] := by
    decide +kernel
  obtain ⟨r, hr, hc⟩ := Option.map_eq_some_iff.1 h
  have hp := parse_eq_ok_of_toOption hr
  exact ⟨r, hp, hc, (placed_of_parse hp).2.2⟩

end FilterQuery
