import FilterQuery.Proofs.Query.Spelling
import Mathlib.Data.List.TakeWhile

/-!
How far ahead a query is read. A lexeme is read up to some character, and what comes behind matters
only as far as it tells where the lexeme ends: by its first character and, after a `!`, by whether a
`=` follows. So the text behind a lexeme can be cut off, or changed further on, and the lexeme is
read as before.
-/

namespace FilterQuery

open Text

/-- Text that may stand in place of `rest` without a change to what is read before it. -/
structure Resembles (rest rest' : List Char) : Prop where
  head : ∀ c ∈ rest'.head?, c ∈ rest.head?
  unequal : ['!', '='] <+: rest' → ['!', '='] <+: rest

namespace Resembles

variable {rest rest' : List Char}

theorem refl (rest : List Char) : Resembles rest rest := ⟨fun _ => id, id⟩

/-- The text may be cut off anywhere. -/
theorem of_isPrefix (h : rest' <+: rest) : Resembles rest rest' := by
  refine ⟨fun c hc => ?_, fun hp => hp.trans h⟩
  obtain ⟨cs, rfl⟩ := h
  rw [Option.mem_def] at hc ⊢
  rw [List.head?_append, hc, Option.some_or]

/-- Everything that begins with the same character will do, unless that makes a `!=` of a `!`. -/
theorem cons {c : Char} (h : c = '!' → rest'.head? = some '=' → rest.head? = some '=') :
    Resembles (c :: rest) (c :: rest') := by
  refine ⟨fun _ => id, fun hp => ?_⟩
  rw [List.cons_prefix_cons] at hp ⊢
  refine ⟨hp.1, ?_⟩
  obtain ⟨cs, hcs⟩ := hp.2
  obtain ⟨cs', hcs'⟩ := List.head?_eq_some_iff.1 (h hp.1.symm (hcs ▸ rfl))
  exact ⟨cs', hcs'.symm⟩

theorem append (H : Resembles rest rest') (u : List Char) :
    Resembles (u ++ rest) (u ++ rest') := by
  match u with
  | [] => exact H
  | [c] => exact cons fun _ he => H.head '=' he
  | c :: d :: u => exact cons fun _ => id

end Resembles

namespace Scanner

/-- What `f` reads of `cs` ends somewhere in it, and depends on what is behind that only up to
resemblance. -/
def Local {α : Type} (f : Scanner → α × Scanner) (n : Nat) (cs : List Char) : Prop :=
  ∃ u rest a, cs = u ++ rest ∧ ∀ rest', Resembles rest rest' →
    f ⟨n, u ++ rest'⟩ = (a, ⟨n + byteSize u, rest'⟩)

/-! ### Runs -/

/-- A text begins with characters that have a property, and then comes one without it. -/
theorem exists_span (p : Char → Bool) (cs : List Char) :
    ∃ u rest, cs = u ++ rest ∧ (∀ c ∈ u, p c = true) ∧ ∀ c ∈ rest.head?, p c = false := by
  refine ⟨cs.takeWhile p, cs.dropWhile p, List.takeWhile_append_dropWhile.symm,
    fun c hc => List.mem_takeWhile_imp hc, fun c hc => ?_⟩
  have h := List.head?_dropWhile_not p cs
  rwa [show (cs.dropWhile p).head? = some c from hc] at h

theorem local_readRun (stops : List Char) (n : Nat) (cs : List Char) :
    Local (readRun stops) n cs := by
  obtain ⟨u, rest, rfl, hu, hr⟩ := exists_span (fun c => !stops.contains c) cs
  have H {rest' : List Char} (h : ∀ c ∈ rest'.head?, (!stops.contains c) = false) :
      (⟨n, u ++ rest'⟩ : Scanner).readRun stops =
        (((⟨n, u ++ []⟩ : Scanner).readRun stops).1, ⟨n + byteSize u, rest'⟩) := by
    have hn : ∀ c ∈ ([] : List Char).head?, (!stops.contains c) = false := fun _ hc => nomatch hc
    simp only [readRun, takeWhile_append hu h, takeWhile_append hu hn, skipWhile_append hu h]
  exact ⟨u, rest, _, rfl, fun rest' hr' => H fun c hc => hr c (hr'.head c hc)⟩

/-! ### Operators -/

theorem readComparison?_eq_none_iff {s : Scanner} :
    s.readComparison? = none ↔ ∀ op : Comparison, ¬ op.spelling <+: s.rest := by
  rw [readComparison?, List.findSome?_eq_none_iff]
  have h (op : Comparison) : (s.eatAll? op.spelling).map (op, ·) = none ↔
      ¬ op.spelling <+: s.rest := by
    simp [eatAll?]
  refine ⟨fun H op => (h op).1 (H op ?_), fun H op _ => (h op).2 (H op)⟩
  cases op <;> decide

/-- Where no operator is read, none is read of text that looks the same. -/
theorem readComparison?_eq_none_of_resembles {n : Nat} {cs cs' : List Char}
    (h : (⟨n, cs⟩ : Scanner).readComparison? = none) (H : Resembles cs cs') :
    (⟨n, cs'⟩ : Scanner).readComparison? = none := by
  rw [readComparison?_eq_none_iff] at h ⊢
  have first {c : Char} (hn : ¬ [c] <+: cs) : ∀ ds, ¬ c :: ds <+: cs' := by
    rintro ds ⟨rest, rfl⟩
    obtain ⟨rest, rfl⟩ := List.head?_eq_some_iff.1 (H.head c rfl)
    exact hn ⟨rest, rfl⟩
  intro op
  cases op with
  | ne => exact mt H.unequal (h .ne)
  | eq => exact first (h .eq) []
  | gt => exact first (h .gt) []
  | lt => exact first (h .lt) []
  | ge => exact first (h .gt) ['=']
  | le => exact first (h .lt) ['=']

/-- Of all operators that are spelled at a place the longest one is read there. -/
theorem isPrefix_of_readComparison? {s t : Scanner} {op : Comparison}
    (h : s.readComparison? = some (op, t)) (op' : Comparison) (hop : op'.spelling <+: s.rest) :
    op'.spelling <+: op.spelling := by
  obtain ⟨n, cs⟩ := s
  obtain ⟨rest, rfl⟩ := hop
  by_cases hl : op' = .gt ∨ op' = .lt → rest.head? ≠ some '='
  · cases h.symm.trans (readComparison?_spelling op' hl n)
    exact List.prefix_rfl
  -- With a `=` behind it, the longer operator is read instead.
  · rw [Classical.not_imp, not_not] at hl
    obtain ⟨hop, he⟩ := hl
    obtain ⟨rest, rfl⟩ := List.head?_eq_some_iff.1 he
    rcases hop with rfl | rfl
    · have hg : (⟨n, '>' :: '=' :: rest⟩ : Scanner).readComparison? = some (.ge, _) :=
        readComparison?_spelling .ge (by simp) n
      cases h.symm.trans hg
      exact ⟨['='], rfl⟩
    · have hl : (⟨n, '<' :: '=' :: rest⟩ : Scanner).readComparison? = some (.le, _) :=
        readComparison?_spelling .le (by simp) n
      cases h.symm.trans hl
      exact ⟨['='], rfl⟩

/-- An operator is read alike in front of all text that looks the same. -/
theorem readComparison?_of_resembles {n : Nat} {cs : List Char} {op : Comparison} {t : Scanner}
    (h : (⟨n, cs⟩ : Scanner).readComparison? = some (op, t)) :
    cs = op.spelling ++ t.rest ∧ ∀ rest, Resembles t.rest rest →
      (⟨n, op.spelling ++ rest⟩ : Scanner).readComparison? =
        some (op, ⟨n + byteSize op.spelling, rest⟩) := by
  have ⟨op', _, h'⟩ := List.exists_of_findSome?_eq_some h
  obtain ⟨t', he, hp⟩ := Option.map_eq_some_iff.1 h'
  obtain ⟨rfl, rfl⟩ := Prod.mk.inj hp
  simp only [eatAll?, Option.ite_none_right_eq_some, Option.some.injEq] at he
  obtain ⟨⟨rest, rfl⟩, rfl⟩ := he
  rw [List.drop_left] at h ⊢
  refine ⟨rfl, fun rest' H => readComparison?_spelling op' ?_ n⟩
  rintro hop he
  obtain ⟨rest, rfl⟩ := List.head?_eq_some_iff.1 (H.head '=' he)
  rcases hop with rfl | rfl
  · have hge := isPrefix_of_readComparison? h .ge ⟨rest, rfl⟩
    exact absurd hge (by decide)
  · have hle := isPrefix_of_readComparison? h .le ⟨rest, rfl⟩
    exact absurd hle (by decide)

/-! ### Values -/

theorem local_readItems (n : Nat) (cs : List Char) : Local readItems n cs := by
  induction h : cs.length using Nat.strongRecOn generalizing n cs with
  | ind k ih =>
    obtain ⟨u, rest, item, rfl, hrun⟩ := local_readRun delimiters n cs
    -- The character behind the run tells whether the list goes on or ends.
    by_cases hc : rest.head? = some '|'
    · obtain ⟨rest, rfl⟩ := List.head?_eq_some_iff.1 hc
      have hlt : rest.length < k := by
        rw [← h, List.length_append, List.length_cons]
        omega
      obtain ⟨v, tail, items, rfl, hitems⟩ := ih _ hlt (n + byteSize u + '|'.utf8Size) rest rfl
      refine ⟨u ++ '|' :: v, tail, item.decoded :: items, by simp, fun rest' H => ?_⟩
      rw [List.append_assoc, readItems, hrun _ (H.append ('|' :: v))]
      simp only [List.cons_append, peek_cons, advance_cons, hitems rest' H, if_true]
      rw [byteSize_append, byteSize_cons, Nat.add_assoc, Nat.add_assoc]
    by_cases hc' : rest.head? = some ')'
    · obtain ⟨rest, rfl⟩ := List.head?_eq_some_iff.1 hc'
      refine ⟨u ++ [')'], rest, [item.decoded], by simp, fun rest' H => ?_⟩
      rw [List.append_assoc, readItems, hrun _ (H.append [')'])]
      simp [Nat.add_assoc]
    · refine ⟨u, rest, [item.decoded], rfl, fun rest' H => ?_⟩
      have hn {c : Char} (hc : rest.head? ≠ some c) :
          (⟨n + byteSize u, rest'⟩ : Scanner).peek ≠ some c := mt (H.head c) hc
      rw [readItems, hrun rest' H]
      simp only
      rw [if_neg (hn hc), if_neg (hn hc')]

theorem local_readValue (n : Nat) (cs : List Char) : ∃ u rest value offset, cs = u ++ rest ∧
    ∀ rest', Resembles rest rest' → (⟨n, u ++ rest'⟩ : Scanner).readValue =
      (value, offset, ⟨n + byteSize u, rest'⟩) := by
  obtain ⟨u, rest, rfl, hu, hr⟩ := exists_span isBlank cs
  by_cases hc : rest.head? = some '('
  · obtain ⟨rest, rfl⟩ := List.head?_eq_some_iff.1 hc
    obtain ⟨v, tail, items, rfl, hitems⟩ := local_readItems (n + byteSize u + '('.utf8Size) rest
    refine ⟨u ++ '(' :: v, tail, .list items, some (n + byteSize u), by simp, fun rest' H => ?_⟩
    have he : (⟨n + byteSize u, '(' :: v ++ rest'⟩ : Scanner).eat? '(' =
        some ⟨n + byteSize u + '('.utf8Size, v ++ rest'⟩ := rfl
    have hr' : ∀ c ∈ ('(' :: v ++ rest').head?, isBlank c = false := hr
    rw [List.append_assoc, readValue, skipBlanks_append hu hr']
    simp only [he, hitems rest' H]
    simp only [byteSize_append, byteSize_cons, Nat.add_assoc]
  · obtain ⟨v, tail, run, rfl, hrun⟩ := local_readRun delimiters (n + byteSize u) rest
    have H' {rest' : List Char} (H : Resembles tail rest') :
        (⟨n, u ++ v ++ rest'⟩ : Scanner).readValue =
          if run.isEmpty then (.text "", none, ⟨n + byteSize (u ++ v), rest'⟩)
          else (.text run.decoded, some run.offset, ⟨n + byteSize (u ++ v), rest'⟩) := by
      have hhead := (H.append v).head
      have he : (⟨n + byteSize u, v ++ rest'⟩ : Scanner).eat? '(' = none :=
        if_neg (mt (hhead '(') hc)
      rw [List.append_assoc, readValue, skipBlanks_append hu fun c hc => hr c (hhead c hc)]
      simp only [he, hrun rest' H, byteSize_append, Nat.add_assoc]
    cases he : run.isEmpty with
    | true =>
      refine ⟨u ++ v, tail, .text "", none, by simp, fun rest' H => ?_⟩
      rw [H' H, he, if_pos rfl]
    | false =>
      refine ⟨u ++ v, tail, .text run.decoded, some run.offset, by simp, fun rest' H => ?_⟩
      rw [H' H, he, if_neg Bool.false_ne_true]

/-! ### Units -/

theorem local_readUnit (n : Nat) (cs : List Char) : Local readUnit n cs := by
  obtain ⟨u, rest, column, rfl, hrun⟩ := local_readRun delimiters n cs
  cases hop : (⟨n + byteSize u, rest⟩ : Scanner).readComparison? with
  | none =>
    let c : Condition := ⟨column.decoded, .eq, .flag true, { column := column.offset }⟩
    refine ⟨u, rest, if column.isEmpty then none else some c, rfl, fun rest' H => ?_⟩
    rw [readUnit, hrun rest' H]
    simp only [readComparison?_eq_none_of_resembles hop H, c]
  | some r =>
    obtain ⟨op, p, rest'⟩ := r
    obtain ⟨rfl, hcomparison⟩ := readComparison?_of_resembles hop
    obtain ⟨v, tail, value, offset, rfl, hvalue⟩ :=
      local_readValue (n + byteSize u + byteSize op.spelling) rest'
    let c : Condition := ⟨column.decoded, op, value,
      { column := column.offset, operator := n + byteSize u, value := offset }⟩
    refine ⟨u ++ (op.spelling ++ v), tail, if column.isEmpty then none else some c, by simp,
      fun rest' H => ?_⟩
    rw [List.append_assoc, List.append_assoc, readUnit,
      hrun _ ((H.append v).append op.spelling)]
    simp only [hcomparison _ (H.append v), hvalue rest' H]
    simp only [byteSize_append, Nat.add_assoc, c]

end Scanner

/-! ### Lexemes -/

/-- The lexemes of a single character. Every other character begins a unit. -/
def Lexeme.ofChar? : Char → Option Lexeme
  | '&' => some conj
  | '|' => some disj
  | '(' => some groupOpen
  | ')' => some groupClose
  | '!' => some negation
  | _ => none

/-- The lexeme begins with this character. -/
def Lexeme.Starts (c : Char) (l : Lexeme) : Prop :=
  match ofChar? c with
  | some l' => l = l'
  | none => ∃ condition, l = unit condition

theorem Lexeme.not_mem_of_ofChar?_eq_none {c : Char} (h : ofChar? c = none) :
    c ∉ ['&', '|', '(', ')', '!'] := by
  intro hc
  simp only [List.mem_cons, List.not_mem_nil, or_false] at hc
  rcases hc with rfl | rfl | rfl | rfl | rfl <;> cases h

namespace Scanner

/-- Reading a lexeme that begins with `c`. -/
theorem readLexeme?_eq {u : List Char} (hu : ∀ c ∈ u, isBlank c = true) {c : Char}
    (hc : isBlank c = false) (n : Nat) (rest : List Char) :
    (⟨n, u ++ c :: rest⟩ : Scanner).readLexeme? =
      match Lexeme.ofChar? c with
      | some l => some (⟨l, c, n + byteSize u⟩, ⟨n + byteSize u + c.utf8Size, rest⟩)
      | none =>
        let (condition, t) := (⟨n + byteSize u, c :: rest⟩ : Scanner).readUnit
        some (⟨.unit condition, c, n + byteSize u⟩, t) := by
  have hr : ∀ d ∈ (c :: rest).head?, isBlank d = false := by
    rintro d ⟨⟩
    exact hc
  rw [readLexeme?, skipBlanks_append hu hr]
  simp only [peek_cons]
  split
  iterate 5 rfl
  rw [Lexeme.ofChar?]
  all_goals assumption

theorem readLexeme?_blanks {u : List Char} (hu : ∀ c ∈ u, isBlank c = true) (n : Nat) :
    (⟨n, u⟩ : Scanner).readLexeme? = none := by
  have hr : ∀ c ∈ ([] : List Char).head?, isBlank c = false := fun _ hc => nomatch hc
  have hskip := skipBlanks_append hu hr n
  rw [List.append_nil] at hskip
  rw [readLexeme?, hskip]
  rfl

theorem readLexeme?_cons {u : List Char} (hu : ∀ c ∈ u, isBlank c = true) {c : Char}
    (hc : isBlank c = false) (n : Nat) (rest : List Char) :
    ∃ l t, (⟨n, u ++ c :: rest⟩ : Scanner).readLexeme? = some (⟨l, c, n + byteSize u⟩, t) ∧
      l.Starts c := by
  rw [readLexeme?_eq hu hc]
  cases hl : Lexeme.ofChar? c with
  | some l =>
    refine ⟨l, _, rfl, ?_⟩
    rw [Lexeme.Starts, hl]
  | none =>
    refine ⟨_, _, rfl, ?_⟩
    rw [Lexeme.Starts, hl]
    exact ⟨_, rfl⟩

/-- Where the lexeme begins that is read. -/
theorem exists_of_readLexeme? {n : Nat} {cs : List Char} {o : Occurrence} {t : Scanner}
    (h : (⟨n, cs⟩ : Scanner).readLexeme? = some (o, t)) :
    ∃ u rest, cs = u ++ o.first :: rest ∧ o.start = n + byteSize u ∧ o.lexeme.Starts o.first ∧
      (∀ c ∈ u, isBlank c = true) ∧ isBlank o.first = false := by
  obtain ⟨u, rest, rfl, hu, hr⟩ := exists_span isBlank cs
  cases rest with
  | nil =>
    rw [List.append_nil, readLexeme?_blanks hu] at h
    cases h
  | cons c rest =>
    obtain ⟨l, t', hl, hs⟩ := readLexeme?_cons hu (hr c rfl) n rest
    obtain ⟨rfl, -⟩ := Prod.mk.inj (Option.some.inj (h.symm.trans hl))
    exact ⟨u, rest, rfl, rfl, hs, hu, hr c rfl⟩

/-- What is behind a lexeme can be changed without a change to the lexeme. -/
theorem readLexeme?_of_resembles {n : Nat} {cs : List Char} {o : Occurrence} {t : Scanner}
    (h : (⟨n, cs⟩ : Scanner).readLexeme? = some (o, t)) : ∃ u, cs = u ++ t.rest ∧
      t.position = n + byteSize u ∧ ∀ rest, Resembles t.rest rest →
        (⟨n, u ++ rest⟩ : Scanner).readLexeme? = some (o, ⟨t.position, rest⟩) := by
  obtain ⟨l, c, start⟩ := o
  obtain ⟨u, rest, rfl, -, -, hu, hc⟩ := exists_of_readLexeme? h
  rw [readLexeme?_eq hu hc] at h
  cases hl : Lexeme.ofChar? c with
  | some l' =>
    rw [hl] at h
    cases h
    refine ⟨u ++ [c], by simp, by simp [Nat.add_assoc], fun rest' _ => ?_⟩
    rw [List.append_assoc, List.singleton_append, readLexeme?_eq hu hc, hl]
  | none =>
    obtain ⟨v, tail, condition, hv, hunit⟩ := local_readUnit (n + byteSize u) (c :: rest)
    have hread := hunit tail (.refl tail)
    have hlt : tail.length < (v ++ tail).length := by
      have hc' := Lexeme.not_mem_of_ofChar?_eq_none hl
      have hpeek : (⟨n + byteSize u, v ++ tail⟩ : Scanner).peek = some c := hv ▸ rfl
      have hlt := readUnit_rest_length hpeek hc'
      rwa [hread] at hlt
    -- The unit is not empty, so the character it begins with stays.
    cases v with
    | nil => exact absurd hlt (Nat.lt_irrefl _)
    | cons d v =>
      obtain rfl : c = d := (List.cons.inj hv).1
      obtain rfl : rest = v ++ tail := (List.cons.inj hv).2
      rw [hl, ← List.cons_append, hread] at h
      cases h
      refine ⟨u ++ c :: v, by simp, by simp [Nat.add_assoc], fun rest' H => ?_⟩
      rw [List.append_assoc, List.cons_append, readLexeme?_eq hu hc, hl, ← List.cons_append,
        hunit rest' H]

/-! ### Lexemes in a row -/

theorem lexemes_eq_nil {s : Scanner} (h : s.readLexeme? = none) : s.lexemes = [] := by
  rw [lexemes, h]

theorem lexemes_eq_cons {s t : Scanner} {o : Occurrence} (h : s.readLexeme? = some (o, t)) :
    s.lexemes = o :: t.lexemes := by
  rw [lexemes, h]

theorem readLexeme?_of_lexemes {s : Scanner} {o : Occurrence} {os : List Occurrence}
    (h : s.lexemes = o :: os) : ∃ t, s.readLexeme? = some (o, t) ∧ t.lexemes = os := by
  cases hr : s.readLexeme? with
  | none =>
    rw [lexemes_eq_nil hr] at h
    cases h
  | some r =>
    obtain ⟨o', t⟩ := r
    rw [lexemes_eq_cons hr] at h
    obtain ⟨rfl, rfl⟩ := List.cons.inj h
    exact ⟨t, rfl, rfl⟩

/-- **The lexemes in front of one** are those of the text in front of it, whatever is behind it. The
one itself begins there with the same character, unless that is a `!` which becomes part of a
`!=`. -/
theorem lexemes_split {n : Nat} {cs : List Char} {os os' : List Occurrence} {o : Occurrence}
    (h : (⟨n, cs⟩ : Scanner).lexemes = os ++ o :: os') :
    ∃ u rest, cs = u ++ o.first :: rest ∧ o.start = n + byteSize u ∧
      o.lexeme.Starts o.first ∧ isBlank o.first = false ∧
      (⟨n, u⟩ : Scanner).lexemes = os ∧
      ∀ rest', Resembles (o.first :: rest) (o.first :: rest') → ∃ l os'',
        (⟨n, u ++ o.first :: rest'⟩ : Scanner).lexemes = os ++ ⟨l, o.first, o.start⟩ :: os'' ∧
          l.Starts o.first := by
  induction os generalizing n cs with
  | nil =>
    obtain ⟨t, hr, -⟩ := readLexeme?_of_lexemes h
    obtain ⟨u, rest, rfl, hstart, hs, hu, hb⟩ := exists_of_readLexeme? hr
    refine ⟨u, rest, rfl, hstart, hs, hb, lexemes_eq_nil (readLexeme?_blanks hu n),
      fun rest' _ => ?_⟩
    obtain ⟨l, t', hl, hs'⟩ := readLexeme?_cons hu hb n rest'
    rw [hstart]
    exact ⟨l, t'.lexemes, lexemes_eq_cons hl, hs'⟩
  | cons o₁ os ih =>
    obtain ⟨t, hr, ht⟩ := readLexeme?_of_lexemes h
    obtain ⟨u, rfl, hp, hread⟩ := readLexeme?_of_resembles hr
    obtain ⟨v, rest, hv, hstart, hs, hb, hos, H⟩ := ih ht
    rw [hv] at hread ⊢
    refine ⟨u ++ v, rest, by simp, ?_, hs, hb, ?_, fun rest' hrest => ?_⟩
    · rw [hstart, hp, byteSize_append, Nat.add_assoc]
    · rw [lexemes_eq_cons (hread v (.of_isPrefix (List.prefix_append _ _))), hos]
    · obtain ⟨l, os'', hl, hs'⟩ := H rest' hrest
      refine ⟨l, os'', ?_, hs'⟩
      rw [List.append_assoc, lexemes_eq_cons (hread _ (hrest.append v)), hl, List.cons_append]

end Scanner
end FilterQuery
