import FilterQuery.Proofs.Editor.Submission

/-!
No keystroke is lost and none is doubled. Whatever is typed into an editor, legal or not, the texts
of its terms and the fragment behind them are the characters that have been typed, in their order.
Only blanks come and go.
-/

namespace FilterQuery

open Text

/-- A symbol that is recognised is the text itself. -/
theorem mem_of_matchSymbol {text : String} {symbols : List TermSymbol} {s : TermSymbol}
    (h : matchSymbol text symbols = .exact s) : s ∈ symbols ∧ s.1 = text := by
  rw [matchSymbol] at h
  split at h
  · cases h
  · rename_i found hf
    split at h
    · rename_i ht
      obtain rfl := SymbolMatch.exact.inj h
      exact ⟨List.mem_of_mem_filter (hf ▸ List.mem_cons_self), ht⟩
    · cases h
  · cases h

namespace Expect

variable {e : Expect} {depth : Nat} {text : String} {s : TermSymbol}

theorem text_of_mem_symbols (h : s ∈ e.symbols depth) : (Token.symbol s.2 s.1).text = s.1 :=
  Token.text_of_symbol (isFreeText_of_mem_symbols h)

theorem text_of_matchSymbol (h : matchSymbol text (e.symbols depth) = .exact s) :
    (Token.symbol s.2 s.1).text = text := by
  obtain ⟨hmem, rfl⟩ := mem_of_matchSymbol h
  exact text_of_mem_symbols hmem

theorem text_of_exactSymbol? (h : exactSymbol? text (e.symbols depth) = some s) :
    (Token.symbol s.2 s.1).text = text := by
  obtain ⟨hmem, rfl⟩ := exactSymbol?_eq_some_iff.1 h
  exact text_of_mem_symbols hmem

theorem text_freeText {kind : TokenKind} (h : e.freeText? = some kind) (s : String) :
    (Token.freeText kind s).text = s := Token.text_of_raw (isFreeText_of_freeText? h) rfl

end Expect

/-- The texts of terms depend on their kinds and on what they are in the query alone. -/
theorem Token.flatMap_text_congr {ts us : List Token} (h : us.map word = ts.map word) :
    us.flatMap (·.text.toList) = ts.flatMap (·.text.toList) := by
  have H (ts : List Token) : ts.flatMap (·.text.toList) = (ts.map word).flatMap fun w =>
      (if w.1.isFreeText then Percent.decode w.2 else w.2).toList := by
    rw [List.flatMap_map]
    rfl
  rw [H, H, h]

namespace Editor

variable {ed ed' : Editor} {t : Token}

/-! ### What an editor shows -/

/-- The texts of the committed terms. -/
def committed (ed : Editor) : List Char := ed.terms.tokens.flatMap (·.text.toList)

/-- The texts of the committed terms and the fragment, but for blanks. -/
def shown (ed : Editor) : List Char := withoutBlanks (ed.committed ++ ed.fragment.toList)

theorem committed_pushTerm (ed : Editor) (t : Token) :
    (ed.pushTerm t).committed = ed.committed ++ t.text.toList := by
  have hw : (ed.pushTerm t).terms.tokens.map Token.word =
      (ed.terms.tokens ++ [t]).map Token.word := by
    rw [List.map_append]
    exact TermIndex.map_word_push ..
  rw [committed, Token.flatMap_text_congr hw, List.flatMap_append, List.flatMap_singleton]
  rfl

/-- A term in place of a fragment that is its text but for blanks. -/
theorem shown_pushTerm {cs : List Char}
    (h : withoutBlanks t.text.toList = withoutBlanks (ed.fragment.toList ++ cs)) :
    (ed.pushTerm t).shown = ed.shown ++ withoutBlanks cs := by
  rw [shown, shown, committed_pushTerm, show (ed.pushTerm t).fragment.toList = [] from rfl,
    List.append_nil, withoutBlanks_append, h, withoutBlanks_append, withoutBlanks_append,
    List.append_assoc]

theorem shown_pushTerm_eq (h : withoutBlanks t.text.toList = withoutBlanks ed.fragment.toList) :
    (ed.pushTerm t).shown = ed.shown := by
  have hs : (ed.pushTerm t).shown = ed.shown ++ withoutBlanks [] :=
    shown_pushTerm (by rw [List.append_nil, h])
  exact hs.trans (List.append_nil _)

/-- The fragment with more characters behind it. -/
theorem shown_of_fragment {cs : List Char} (ht : ed'.terms = ed.terms)
    (hf : withoutBlanks ed'.fragment.toList = withoutBlanks (ed.fragment.toList ++ cs)) :
    ed'.shown = ed.shown ++ withoutBlanks cs := by
  have hc : ed'.committed = ed.committed := congrArg (·.tokens.flatMap (·.text.toList)) ht
  rw [shown, shown, hc, withoutBlanks_append, hf, withoutBlanks_append, withoutBlanks_append,
    List.append_assoc]

/-- A blank fragment can be given up. -/
theorem shown_of_blank (hb : trimmed ed.fragment = "") :
    ({ ed with fragment := "" } : Editor).shown = ed.shown := by
  have hf : withoutBlanks ed.fragment.toList = [] := by
    rw [← withoutBlanks_trimmed, hb]
    rfl
  rw [shown, shown, withoutBlanks_append, withoutBlanks_append, hf]
  rfl

/-! ### One keystroke -/

/-- The pending term is the fragment, but for blanks at its ends. -/
theorem text_of_pendingTerm? (h : ed.pendingTerm? = some t) : t.text = trimmed ed.fragment := by
  rw [pendingTerm?] at h
  split at h
  · cases h
  split at h
  · rename_i kind hk
    split at h
    · cases h
    obtain rfl := Option.some.inj h
    exact Expect.text_freeText hk _
  · obtain ⟨s, hs, rfl⟩ := Option.map_eq_some_iff.1 h
    exact Expect.text_of_exactSymbol? hs

theorem shown_beginSymbol (hf : ed.fragment = "") (c : Char) (now : Nat) :
    (ed.beginSymbol c now).shown = ed.shown ++ withoutBlanks [c] := by
  have hc : c.toString.toList = ed.fragment.toList ++ [c] := by rw [hf, toList_toString]; rfl
  rw [beginSymbol]
  split
  · rename_i symbol kind hm
    exact shown_pushTerm (by rw [Expect.text_of_matchSymbol hm, hc])
  · exact shown_of_fragment rfl (congrArg withoutBlanks hc)
  · exact shown_of_fragment rfl (congrArg withoutBlanks hc)

theorem shown_beginTerm (hf : ed.fragment = "") (c : Char) (now : Nat) :
    (ed.beginTerm c now).shown = ed.shown ++ withoutBlanks [c] := by
  rw [beginTerm]
  split
  · rename_i hb
    rw [withoutBlanks_eq_nil_iff.2 (by simpa using hb), List.append_nil]
  · split
    · refine shown_of_fragment rfl ?_
      rw [hf]
      exact congrArg withoutBlanks (toList_toString c)
    · exact shown_beginSymbol hf c now

/-- A symbol that the next character does not continue is committed, and the character begins a term
of its own. -/
theorem shown_continueSymbol (ed : Editor) (c : Char) (now : Nat) :
    (ed.continueSymbol c now).shown = ed.shown ++ withoutBlanks [c] := by
  have hc : (ed.fragment.push c).toList = ed.fragment.toList ++ [c] := String.toList_push _
  simp only [continueSymbol]
  split
  · rename_i symbol kind hm
    exact shown_pushTerm (by rw [Expect.text_of_matchSymbol hm, hc])
  · exact shown_of_fragment rfl (congrArg withoutBlanks hc)
  · split
    · rename_i symbol kind hs
      rw [shown_beginTerm rfl, shown_pushTerm_eq (by rw [Expect.text_of_exactSymbol? hs])]
    · exact shown_of_fragment rfl (congrArg withoutBlanks hc)

/-- A column or value is committed without the blanks at its ends. -/
theorem shown_of_commitFreeText? (h : ed.commitFreeText? = some ed') :
    ed'.fragment = "" ∧ ed'.shown = ed.shown := by
  rw [commitFreeText?] at h
  split at h
  · rename_i kind hk
    split at h
    · cases h
    obtain rfl := Option.some.inj h
    refine ⟨rfl, shown_pushTerm_eq ?_⟩
    rw [Expect.text_freeText hk, withoutBlanks_trimmed]
  · cases h

theorem shown_endFreeText (ed : Editor) (c : Char) (now : Nat) :
    (ed.endFreeText c now).shown = ed.shown ++ withoutBlanks [c] := by
  rw [endFreeText]
  split
  · rename_i ed' hc
    obtain ⟨hf, hs⟩ := shown_of_commitFreeText? hc
    rw [shown_beginTerm hf, hs]
  · exact shown_of_fragment rfl (congrArg withoutBlanks (String.toList_push _))

theorem shown_typeChar (ed : Editor) (c : Char) (now : Nat) :
    (ed.typeChar c now).shown = ed.shown ++ withoutBlanks [c] := by
  rw [typeChar]
  split
  · rename_i hf
    exact shown_beginTerm (String.isEmpty_iff.1 hf) c now
  split
  · exact shown_continueSymbol ed c now
  split
  · split
    · rename_i hb
      rw [shown_beginSymbol rfl, shown_of_blank (trimmed_eq_empty_iff.2 hb)]
    · exact shown_endFreeText ed c now
  · exact shown_of_fragment rfl (congrArg withoutBlanks (String.toList_push _))

/-- A commit adds nothing to what is shown, and takes away nothing but blanks. -/
theorem shown_commit (ed : Editor) : ed.commit.2.shown = ed.shown := by
  rcases ed.commit_cases with ⟨t, ht, hc⟩ | ⟨-, hb, hc⟩ | ⟨-, -, hc⟩
  · rw [hc]
    refine shown_pushTerm_eq ?_
    rw [text_of_pendingTerm? ht, withoutBlanks_trimmed]
  · rw [hc]
    exact shown_of_blank hb
  · rw [hc]
    rfl

/-! ### Keystrokes in a row -/

/-- A character that is typed, or the fragment is finished. -/
inductive Keystroke where
  | char (c : Char) (now : Nat)
  | commit

def Keystroke.action : Keystroke → Action
  | char c now => .typeChar c now
  | commit => .commit

/-- The character that a keystroke types, if any. -/
def Keystroke.char? : Keystroke → Option Char
  | char c _ => some c
  | commit => none

/-- From any state on, keystrokes add what they type. -/
theorem shown_run (ed : Editor) (keys : List Keystroke) :
    (ed.run (keys.map Keystroke.action)).shown =
      ed.shown ++ withoutBlanks (keys.filterMap Keystroke.char?) := by
  induction keys using List.reverseRecOn with
  | nil => exact (List.append_nil _).symm
  | append_singleton keys key ih =>
    rw [List.map_append, List.map_singleton, run_append_singleton, List.filterMap_append,
      withoutBlanks_append, ← List.append_assoc, ← ih]
    cases key with
    | char c now => exact shown_typeChar _ c now
    | commit => exact (shown_commit _).trans (List.append_nil _).symm

/-- **What has been typed** into a fresh editor is what it shows, but for blanks. -/
theorem shown_of_typed (debounce : Nat) (messages : Messages) (keys : List Keystroke) :
    let ed := (withMessages (withDebounce {} debounce) messages).run (keys.map Keystroke.action)
    withoutBlanks (ed.terms.tokens.flatMap (·.text.toList) ++ ed.fragment.toList) =
      withoutBlanks (keys.filterMap Keystroke.char?) :=
  shown_run (withMessages (withDebounce {} debounce) messages) keys

end Editor
end FilterQuery
