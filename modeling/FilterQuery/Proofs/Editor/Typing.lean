import FilterQuery.Proofs.Editor.Opening
import FilterQuery.Proofs.Term.Symbol
import FilterQuery.Proofs.Term.Typable

/-!
Typing terms one after another. At any time the editor holds what has been typed so far; the last
term may still be the fragment, and the character behind it, or a commit, makes it a term. So typing
the terms of a rule gives its canonical text.
-/

namespace FilterQuery

open Text

namespace Editor

/-- Types characters, each at its own time. -/
def typeKeys (ed : Editor) (keys : List (Char × Nat)) : Editor :=
  keys.foldl (fun ed key => ed.typeChar key.1 key.2) ed

theorem typeText_eq (ed : Editor) (text : String) (now : Nat) :
    ed.typeText text now = ed.typeKeys (text.toList.map (·, now)) := by
  rw [typeText, typeKeys, List.foldl_map]

theorem syntaxError_pushTerm (ed : Editor) (t : Token) :
    (ed.pushTerm t).syntaxError = (ed.pushTerm t).termsError := by
  rw [pushTerm]
  exact syntaxError_refresh rfl

/-! ### Committed terms -/

/-- The committed terms say what `ts` say, and are legal. -/
structure Holds (ed : Editor) (ts : List Token) : Prop where
  words : ed.terms.tokens.map Token.word = ts.map Token.word
  openGroups_eq : ed.openGroups = FilterQuery.openGroups ts
  termsError_eq : ed.termsError = none

namespace Holds

variable {ed : Editor} {ts : List Token} {t : Token}

theorem expect_eq (H : ed.Holds ts) : ed.expect = .after ts := Expect.after_congr H.words

theorem symbols_eq (H : ed.Holds ts) :
    ed.expect.symbols ed.openGroups = (Expect.after ts).symbols (FilterQuery.openGroups ts) := by
  rw [H.expect_eq, H.openGroups_eq]

theorem pushTerm (H : ed.Holds ts) {u : Token} (hu : u.word = t.word)
    (h : Legal .column 0 (ts ++ [t])) : (ed.pushTerm u).Holds (ts ++ [t]) := by
  have hw : (ed.pushTerm u).terms.tokens.map Token.word = (ts ++ [t]).map Token.word := by
    rw [List.map_append, ← H.words, List.map_singleton, ← hu]
    exact TermIndex.map_word_push ..
  exact ⟨hw, openGroups_congr hw, validate_eq_none_iff.2 (h.congr hw)⟩

theorem extend (H : ed.Holds ts) (fragment : String) (now : Nat) :
    (ed.extend fragment now).Holds ts := ⟨H.words, H.openGroups_eq, H.termsError_eq⟩

/-- A fragment that can be typed is committed as it is. -/
theorem commitFreeText?_eq (H : ed.Holds ts) (hk : (Expect.after ts).freeText? = some t.kind)
    (hf : ed.fragment = t.text) (ht : FilterQuery.Typable t.text) :
    ed.commitFreeText? = some (ed.pushTerm (.freeText t.kind t.text)) := by
  have he : ed.fragmentError = none := by
    rw [fragmentError, hf, H.expect_eq, hk]
    cases hs : t.text.toList with
    | nil => rfl
    | cons c cs =>
      have hc : c ∉ delimiters := ht.not_delimiter c (hs ▸ List.mem_cons_self)
      simp [hc]
  simp only [commitFreeText?, H.expect_eq, hk, he, hf, ht.trimmed_eq, Option.isSome_none,
    Bool.false_eq_true, if_false]

end Holds

/-! ### One term -/

end Editor

/-- The characters that can begin a term. -/
def Expect.Starts (c : Char) : Expect → Prop
  | column => True
  | value => c ≠ '='
  | operator | connective => c ∈ delimiters

/-- Behind a column or value comes a delimiter. -/
theorem Expect.mem_delimiters_of_starts {e : Expect} {k : TokenKind} {c : Char}
    (hk : e.freeText? = some k) (hc : (afterKind (some k)).Starts c) : c ∈ delimiters := by
  cases e <;> cases hk <;> exact hc

theorem Token.Fits.starts {e : Expect} {depth : Nat} {t : Token} {c : Char} {cs : List Char}
    (H : t.Fits e depth) (ht : t.Typable) (hc : t.text.toList = c :: cs) : e.Starts c := by
  cases hk : t.kind.isFreeText with
  | true =>
    have hc : c ∉ delimiters := (ht hk).2.not_delimiter c (hc ▸ List.mem_cons_self)
    rw [Fits] at H
    cases hk' : t.kind <;> simp only [hk', TokenKind.isFreeText, Bool.false_eq_true] at hk H
    · obtain ⟨rfl, -⟩ := H
      trivial
    · subst H
      rintro rfl
      exact hc (by decide)
  | false =>
    have hmem := (fits_iff_mem_symbols hk).1 H
    have htext := text_of_symbol hk
    rw [htext] at hc
    obtain ⟨hd, hv⟩ := Expect.head_of_mem hmem c (by simp [hc])
    cases e with
    | column => trivial
    | value => exact hv rfl
    | operator | connective => exact hd

namespace Editor

variable {ed : Editor} {ts : List Token} {t : Token}

theorem Holds.typeChar_freeText (H : ed.Holds ts) {k : TokenKind}
    (hk : (Expect.after ts).freeText? = some k) (hn : ed.fragment ≠ "") (c : Char) (now : Nat) :
    ed.typeChar c now = if delimiters.contains c then
        if (trim ed.fragment.toList).isEmpty then
          ({ ed with fragment := "" } : Editor).beginSymbol c now
        else ed.endFreeText c now
      else ed.extend (ed.fragment.push c) now := by
  rw [typeChar, if_neg (by simpa using hn), H.expect_eq, hk]
  rfl

theorem Holds.typeChar_operator (H : ed.Holds ts) (he : Expect.after ts = .operator)
    (hn : ed.fragment ≠ "") (c : Char) (now : Nat) :
    ed.typeChar c now = ed.continueSymbol c now := by
  rw [typeChar, if_neg (by simpa using hn), H.expect_eq, he]
  rfl

/-- Where an operator is expected, the second character can complete it. -/
theorem Holds.typeChar_second (H : ed.Holds ts) (he : Expect.after ts = .operator)
    (hn : ed.fragment ≠ "") {c : Char} (hf : ed.fragment.push c = t.raw)
    (hm : matchSymbol t.raw ((Expect.after ts).symbols (FilterQuery.openGroups ts)) =
      .exact (t.raw, t.kind)) (now : Nat) :
    ed.typeChar c now = ed.pushTerm (.symbol t.kind t.raw) := by
  rw [H.typeChar_operator he hn, continueSymbol, H.symbols_eq, hf, hm]

/-- The fragment is the text of the term. It becomes that term by the next character, if that begins
another one, or by a commit. -/
structure Awaits (ed : Editor) (t u : Token) : Prop where
  word_eq : u.word = t.word
  typeChar_eq {c : Char} : (Expect.afterKind (some t.kind)).Starts c →
    ∀ now, ed.typeChar c now = (ed.pushTerm u).beginTerm c now
  commit_eq : ed.commit = (true, ed.pushTerm u)

theorem Holds.awaits_freeText (H : ed.Holds ts) (hf : ed.fragment = t.text) (hn : t.text ≠ "")
    (hk : (Expect.after ts).freeText? = some t.kind) (ht : t.Typable) :
    ed.Awaits t (.freeText t.kind t.text) := by
  obtain ⟨hraw, htext⟩ := ht (Expect.isFreeText_of_freeText? hk)
  have hc := H.commitFreeText?_eq hk hf htext
  refine ⟨Prod.ext rfl hraw.symm, ?_, ?_⟩
  · intro c hstart now
    have hd : c ∈ delimiters := Expect.mem_delimiters_of_starts hk hstart
    rw [H.typeChar_freeText hk (hf ▸ hn), hf, htext.trim_eq]
    simp only [endFreeText, hc]
    simp [hd, hn]
  · rw [commit, hf, htext.trim_eq, hc, H.expect_eq, hk]
    simp [hn]

theorem Holds.awaits_symbol (H : ed.Holds ts) (hf : ed.fragment = t.raw) (hk : t.kind = .operator)
    (ht : t.Fits (.after ts) (FilterQuery.openGroups ts))
    (hm : ∀ c, c ≠ '=' → matchSymbol (t.raw.push c)
      ((Expect.after ts).symbols (FilterQuery.openGroups ts)) = .none) :
    ed.Awaits t (.symbol t.kind t.raw) := by
  have hmem := (Token.fits_iff_mem_symbols (hk ▸ rfl)).1 ht
  have hexact := Expect.exactSymbol?_eq_some_iff.2 ⟨hmem, rfl⟩
  rw [Token.Fits, hk] at ht
  obtain ⟨he, op, hr⟩ := ht
  obtain ⟨htrim, hn⟩ : trim t.raw.toList = t.raw.toList ∧ t.raw ≠ "" := by
    rw [hr]
    cases op <;> decide
  refine ⟨rfl, ?_, ?_⟩
  · intro c hstart now
    have hc : c ≠ '=' := by rwa [hk] at hstart
    simp only [H.typeChar_operator he (hf ▸ hn), continueSymbol, H.symbols_eq, hf, hm c hc, hexact]
  · rw [commit, H.symbols_eq, H.expect_eq, hf, trimmed, htrim, String.ofList_toList, hexact, he]
    simp [hn, Expect.freeText?]

/-- The terms that have been typed. The last one is still the fragment if the next character could
continue it. -/
inductive Typed (ed : Editor) : List Token → Prop where
  | settled {ts : List Token} : ed.Holds ts → ed.fragment = "" → Typed ed ts
  | pending {ts : List Token} {t u : Token} : ed.Holds ts → ed.Awaits t u → Typed ed (ts ++ [t])

/-- The next term leaves no doubt about the one before it, and commits it. -/
theorem Typed.typeChar (H : ed.Typed ts) (hl : Legal .column 0 ts) {c : Char}
    (hc : (Expect.after ts).Starts c) :
    ∃ ed' : Editor, ed'.Holds ts ∧ ∀ now, ed.typeChar c now = ed'.beginTerm c now := by
  cases H with
  | settled H hf =>
    refine ⟨ed, H, fun now => ?_⟩
    rw [Editor.typeChar, if_pos (by simp [hf])]
  | pending H h =>
    rw [Expect.after_append_singleton] at hc
    exact ⟨_, H.pushTerm h.word_eq hl, h.typeChar_eq hc⟩

/-- Further characters of a column or value extend the fragment. -/
theorem Holds.typeKeys_freeText {keys : List (Char × Nat)} (H : ed.Holds ts) {k : TokenKind}
    (hk : (Expect.after ts).freeText? = some k) (hf : ed.fragment ≠ "")
    (hd : ∀ c ∈ keys.map Prod.fst, c ∉ delimiters) :
    (ed.typeKeys keys).Holds ts ∧
      (ed.typeKeys keys).fragment.toList = ed.fragment.toList ++ keys.map Prod.fst := by
  induction keys generalizing ed with
  | nil => exact ⟨H, (List.append_nil _).symm⟩
  | cons key keys ih =>
    obtain ⟨hc, hd⟩ := List.forall_mem_cons.1 hd
    have hkey : ed.typeChar key.1 key.2 = ed.extend (ed.fragment.push key.1) key.2 := by
      rw [H.typeChar_freeText hk hf, if_neg (by simpa using hc)]
    have hp : (ed.fragment.push key.1).toList = ed.fragment.toList ++ [key.1] :=
      String.toList_push _
    have hn : ed.fragment.push key.1 ≠ "" := by
      rw [← String.toList_inj.ne, hp]
      simp
    obtain ⟨H, hfrag⟩ := ih (H.extend (ed.fragment.push key.1) key.2) hn hd
    rw [typeKeys, List.foldl_cons, hkey]
    refine ⟨H, hfrag.trans ?_⟩
    change (ed.fragment.push key.1).toList ++ _ = _
    rw [hp, List.append_assoc]
    rfl

section
variable {key : Char × Nat} {keys : List (Char × Nat)} (H : ed.Holds ts)
  (hl : Legal .column 0 (ts ++ [t])) (hk : t.text.toList = key.1 :: keys.map Prod.fst)
include H hl hk

theorem Holds.type_freeText (hfree : t.kind.isFreeText = true) (ht : t.Typable) :
    ((ed.beginTerm key.1 key.2).typeKeys keys).Typed (ts ++ [t]) := by
  obtain ⟨hraw, htext⟩ := ht hfree
  obtain ⟨hc, hd⟩ := List.forall_mem_cons.1 (hk ▸ htext.not_delimiter)
  have hb : isBlank key.1 = false := htext.head key.1 (by simp [hk])
  have he := (Legal.append_singleton_iff.1 hl).2.freeText?_eq hfree
  have hbegin : ed.beginTerm key.1 key.2 = ed.extend key.1.toString key.2 := by
    rw [beginTerm, H.expect_eq, he]
    simp [hb, hc]
  obtain ⟨H, hfrag⟩ :=
    (H.extend key.1.toString key.2).typeKeys_freeText he (toString_ne_empty key.1) hd
  rw [hbegin]
  refine .pending H (H.awaits_freeText (String.toList_inj.1 ?_) ?_ he ht)
  · rw [hfrag, hk]
    exact congrArg (· ++ _) (toList_toString key.1)
  · rw [← String.toList_inj.ne, hk]
    exact List.cons_ne_nil _ _

theorem Holds.type_symbol (hfree : t.kind.isFreeText = false) :
    ((ed.beginTerm key.1 key.2).typeKeys keys).Typed (ts ++ [t]) := by
  have hfit := (Legal.append_singleton_iff.1 hl).2
  have hmem := (Token.fits_iff_mem_symbols hfree).1 hfit
  have htext := Token.text_of_symbol hfree
  obtain ⟨hd, -⟩ := Expect.head_of_mem hmem key.1 (by rw [← htext, hk]; rfl)
  have hbegin : ed.beginTerm key.1 key.2 = ed.beginSymbol key.1 key.2 := by
    have H : delimiters.all (fun d => !isBlank d) = true := by decide
    have hb : isBlank key.1 = false := by simpa using List.all_eq_true.1 H key.1 hd
    rw [beginTerm, hb]
    simp [hd]
  rw [htext] at hk
  have single {c : Char} (hs : t.raw = c.toString) : c = key.1 ∧ keys = [] := by
    rw [hs, toList_toString] at hk
    obtain ⟨hc, hkeys⟩ := List.cons.inj hk
    exact ⟨hc, List.map_eq_nil_iff.1 hkeys.symm⟩
  rw [hbegin]
  cases Expect.recognized_of_mem hmem with
  | @first c hs hm =>
    obtain ⟨rfl, rfl⟩ := single hs
    rw [beginSymbol, H.symbols_eq, ← hs, hm]
    exact .settled (H.pushTerm rfl hl) rfl
  | @behind c hs hop hm hm' =>
    obtain ⟨rfl, rfl⟩ := single hs
    rw [beginSymbol, H.symbols_eq, ← hs, hm]
    have H := H.extend t.raw key.2
    exact .pending H (H.awaits_symbol rfl hop hfit hm')
  | @second c hs hop hm hm' =>
    have he : Expect.after ts = .operator := by
      rw [Token.Fits, show t.kind = .operator from hop] at hfit
      exact hfit.1
    have hs : c.toString.push '=' = t.raw := hs.symm
    rw [← hs, String.toList_push, toList_toString] at hk
    obtain ⟨rfl, hkeys⟩ := List.cons.inj hk
    obtain ⟨second, rfl, hc⟩ := List.map_eq_singleton_iff.1 hkeys.symm
    rw [beginSymbol, H.symbols_eq, hm]
    have H := H.extend key.1.toString key.2
    have htype := H.typeChar_second he (toString_ne_empty key.1) hs hm' second.2
    change (Editor.typeChar _ second.1 second.2).Typed (ts ++ [t])
    rw [hc, htype]
    exact .settled (H.pushTerm rfl hl) rfl

end

/-- **One more term.** The characters of a term that fits lead from terms that have been typed to
one more. -/
theorem Typed.typeKeys {keys : List (Char × Nat)} (H : ed.Typed ts)
    (hl : Legal .column 0 (ts ++ [t])) (ht : t.Typable) (hn : t.text ≠ "")
    (hk : keys.map Prod.fst = t.text.toList) : (ed.typeKeys keys).Typed (ts ++ [t]) := by
  obtain ⟨hts, hfit⟩ := Legal.append_singleton_iff.1 hl
  cases keys with
  | nil => exact absurd (String.toList_inj.1 hk.symm) hn
  | cons key keys =>
    obtain ⟨ed', H, hc⟩ := H.typeChar hts (hfit.starts ht hk.symm)
    rw [Editor.typeKeys, List.foldl_cons, hc]
    cases hfree : t.kind.isFreeText with
    | true => exact H.type_freeText hl hk.symm hfree ht
    | false => exact H.type_symbol hl hk.symm hfree

/-! ### All terms -/

/-- Terms that are legal are typed one after another. -/
theorem typed_of_legal {keys : List (Char × Nat)} (hl : Legal .column 0 ts)
    (ht : ∀ t ∈ ts, t.Typable ∧ t.text ≠ "")
    (hk : keys.map Prod.fst = ts.flatMap (·.text.toList)) :
    (typeKeys {} keys).Typed ts := by
  -- From the right: the last term is typed into the state that the others have led to.
  induction ts using List.reverseRecOn generalizing keys with
  | nil =>
    obtain rfl : keys = [] := by simpa using hk
    exact .settled ⟨rfl, rfl, rfl⟩ rfl
  | append_singleton ts t ih =>
    rw [List.flatMap_append, List.flatMap_singleton] at hk
    obtain ⟨first, last, rfl, hfirst, hlast⟩ := List.map_eq_append_iff.1 hk
    have H := ih (Legal.append_singleton_iff.1 hl).1
      (fun u hu => ht u (List.mem_append_left _ hu)) hfirst
    obtain ⟨ht, hn⟩ := ht t (List.mem_append_right _ List.mem_cons_self)
    rw [typeKeys, List.foldl_append]
    exact H.typeKeys hl ht hn hlast

/-- A commit finishes the last term. -/
theorem Typed.commit (H : ed.Typed ts) (hl : Legal .column 0 ts) :
    ∃ ed', ed.commit = (true, ed') ∧ ed'.Holds ts ∧ ed'.fragment = "" ∧ ed'.syntaxError = none := by
  cases H with
  | settled H hf =>
    have hs := (syntaxError_refresh hf).trans H.termsError_eq
    exact ⟨_, commit_of_fragment_eq hf, ⟨H.words, H.openGroups_eq, H.termsError_eq⟩, hf, hs⟩
  | @pending ts t u H h =>
    have H := H.pushTerm h.word_eq hl
    exact ⟨_, h.commit_eq, H, rfl, (syntaxError_pushTerm ed u).trans H.termsError_eq⟩

/-- **Typing a rule.** The texts of the terms of a normal rule, typed character by character into a
fresh editor and committed, give the canonical text of the rule, which can be submitted. -/
theorem commit_of_typed {r : Rule} (H : r = .empty ∨ r.Normal)
    (hc : ∀ c ∈ r.conditions, c.Typable) (hm : maxOpen r.render ≤ maxNesting)
    {keys : List (Char × Nat)}
    (hk : keys.map Prod.fst = (TermIndex.ofRule r).tokens.flatMap (·.text.toList)) :
    ∃ ed, (typeKeys {} keys).commit = (true, ed) ∧ ed.fragment = "" ∧ ed.syntaxError = none ∧
      ed.query = r.render ∧ ed.submit.1 = .ok r.render := by
  have hl : Legal .column 0 r.typedTerms := by
    refine Rule.legal_typedTerms fun c hmem => ?_
    rw [(hc c hmem).1.trimmed_eq]
    exact (Rule.wellFormed_of_normal H c hmem).column_ne
  have H' := typed_of_legal hl (Rule.typable_of_mem_typedTerms hc) (hk.trans r.text_typedTerms.symm)
  obtain ⟨ed, hcommit, hholds, hf, hs⟩ := H'.commit hl
  have hq : ed.query = r.render := (TermIndex.rawOf_congr hholds.words).trans r.rawOf_typedTerms
  exact ⟨ed, hcommit, hf, hs, hq, submit_canonical H hf hholds.termsError_eq hq hm⟩

theorem commit_of_typed_nested :
    ∃ ed, (typeText {} "a<1&!(b>|c d)&é!=x y" 0).commit = (true, ed) ∧ ed.fragment = "" ∧
      ed.syntaxError = none ∧ ed.query = "a<1&!(b>|c%20d)&%C3%A9!=x%20y" ∧
      ed.submit.1 = .ok "a<1&!(b>|c%20d)&%C3%A9!=x%20y" := by
  have hr : (Rule.chain .all [.compare .lt "a" (.text "1"),
      .chain .none [.chain .any [.compare .gt "b" (.text ""), .test "c d" true]],
      .compare .ne "é" (.text "x y")]).render = "a<1&!(b>|c%20d)&%C3%A9!=x%20y" := by
    decide +kernel
  rw [typeText_eq, ← hr]
  have hn : Rule.Normal (.chain .any [.compare .gt "b" (.text ""), .test "c d" true]) := by
    refine .chain (by decide) (Nat.le_refl 2) fun r hr => ?_
    rcases List.mem_pair.1 hr with rfl | rfl
    · exact .condition { column_ne := by decide, value_ne := by decide, comparison_eq := by simp }
    · exact .condition
        { column_ne := by decide, value_ne := by decide, comparison_eq := fun _ _ => rfl }
  refine commit_of_typed (.inr (.chain (by decide) (by decide) ?_)) ?_ (by decide +kernel)
    (by decide +kernel)
  · simp only [List.forall_mem_cons]
    refine ⟨.condition ?_, .none hn rfl, .condition ?_, List.forall_mem_nil _⟩
    all_goals exact { column_ne := by decide, value_ne := by decide, comparison_eq := by simp }
  · change ∀ c ∈ [_, _, _, _], Condition.Typable c
    simp only [List.forall_mem_cons]
    have h : ∀ s ∈ ["a", "1", "b", "", "c d", "é", "x y"], Typable s := by decide
    simp only [List.forall_mem_cons] at h
    obtain ⟨ha, h1, hb, hempty, hc, hé, hxy, -⟩ := h
    exact ⟨⟨ha, h1⟩, ⟨hb, hempty⟩, ⟨hc, trivial⟩, ⟨hé, hxy⟩, List.forall_mem_nil _⟩

end Editor
end FilterQuery
