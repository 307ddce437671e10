import FilterQuery.Editor.Basic
import FilterQuery.Proofs.Term.Pairing
import FilterQuery.Proofs.Text.Percent
import Mathlib.Data.List.Induction

/-!
Which terms may stand where. The check of an editor raises no error exactly for terms that are legal
one behind the other, and that depends on what the terms say alone.
-/

namespace FilterQuery

open Text

/-! ### One term -/

/-- Symbols that are found by their text, as no two have the same one. -/
theorem find?_symbol_eq_some_iff {text : String} {s : TermSymbol} {symbols : List TermSymbol}
    (h : (symbols.map Prod.fst).Nodup) :
    symbols.find? (·.1 == text) = some s ↔ s ∈ symbols ∧ s.1 = text := by
  constructor
  · intro hs
    exact ⟨List.mem_of_find?_eq_some hs, by simpa using List.find?_some hs⟩
  · rintro ⟨hs, rfl⟩
    induction symbols with
    | nil => cases hs
    | cons u symbols ih =>
      obtain ⟨hu, h⟩ := List.nodup_cons.1 h
      rw [List.find?_cons]
      rcases List.mem_cons.1 hs with rfl | hs
      · rw [beq_self_eq_true]
      · have hn : (u.1 == s.1) = false := by
          refine beq_false_of_ne fun he => hu ?_
          rw [he]
          exact List.mem_map_of_mem hs
        rw [hn]
        exact ih h hs

namespace Expect

/-- Only whether a group is open matters for the symbols. -/
theorem symbols_of_pos (e : Expect) {depth : Nat} (h : 0 < depth) :
    e.symbols depth = e.symbols 1 := by
  simp [symbols, h]

/-- What holds of the symbols in no group and in one holds of them in any number of groups. -/
theorem symbols_of (e : Expect) {P : List TermSymbol → Prop} (h : P (e.symbols 0))
    (h' : P (e.symbols 1)) (depth : Nat) : P (e.symbols depth) := by
  rcases Nat.eq_zero_or_pos depth with rfl | hd
  · exact h
  · rw [symbols_of_pos e hd]
    exact h'

theorem nodup_symbols (e : Expect) (depth : Nat) : ((e.symbols depth).map Prod.fst).Nodup := by
  refine e.symbols_of (P := fun symbols => (symbols.map Prod.fst).Nodup) ?_ ?_ depth
  · cases e <;> decide
  · cases e <;> decide

theorem exactSymbol?_eq_some_iff {e : Expect} {depth : Nat} {text : String} {s : TermSymbol} :
    exactSymbol? text (e.symbols depth) = some s ↔ s ∈ e.symbols depth ∧ s.1 = text :=
  find?_symbol_eq_some_iff (nodup_symbols e depth)

theorem isFreeText_of_freeText? {e : Expect} {k : TokenKind} (h : e.freeText? = some k) :
    k.isFreeText = true := by
  cases e <;> cases h <;> rfl

end Expect

namespace Token

/-- A term may stand where `e` is expected in so many open groups. -/
def Fits (e : Expect) (depth : Nat) (t : Token) : Prop :=
  match t.kind with
  | .column => e = .column ∧ trimmed t.text ≠ ""
  | .operator => e = .operator ∧ ∃ op : Comparison, t.raw = op.symbol
  | .value => e = .value
  | .logical => if e = .column then t.raw = "!" else t.raw = "&" ∨ t.raw = "|"
  | .groupOpen => e = .column ∧ t.raw = "("
  | .groupClose => e ≠ .column ∧ 0 < depth ∧ t.raw = ")"

theorem text_of_symbol {t : Token} (h : t.kind.isFreeText = false) : t.text = t.raw := by
  rw [text, if_neg (by simp [h])]

theorem text_of_raw {t : Token} {s : String} (h : t.kind.isFreeText = true)
    (hr : t.raw = Percent.encode s) : t.text = s := by
  simp [text, h, hr]

theorem Fits.freeText?_eq {e : Expect} {depth : Nat} {t : Token} (H : t.Fits e depth)
    (hk : t.kind.isFreeText = true) : e.freeText? = some t.kind := by
  rw [Fits] at H
  cases hk' : t.kind <;> simp only [hk', TokenKind.isFreeText, Bool.false_eq_true] at hk H
  · rw [H.1]
    rfl
  · rw [H]
    rfl

/-- Symbols fit where they are offered. -/
theorem fits_iff_mem_symbols {e : Expect} {depth : Nat} {t : Token} (h : t.kind.isFreeText = false) :
    t.Fits e depth ↔ (t.raw, t.kind) ∈ e.symbols depth := by
  obtain ⟨kind, raw, label, path, offset, link⟩ := t
  have all (s : String) : (s, TokenKind.operator) ∈
      Comparison.all.map (fun op => (op.symbol, TokenKind.operator)) ↔
        ∃ op : Comparison, s = op.symbol := by
    simp only [List.mem_map, Prod.mk.injEq, and_true]
    constructor
    · rintro ⟨op, -, rfl⟩
      exact ⟨op, rfl⟩
    · rintro ⟨op, rfl⟩
      exact ⟨op, by cases op <;> decide, rfl⟩
  have other {s : String} {k : TokenKind} (hk : k ≠ .operator) : (s, k) ∉
      Comparison.all.map (fun op => (op.symbol, TokenKind.operator)) := by
    simp [Ne.symm hk]
  cases kind with
  | column | value => cases h
  | operator => cases e <;> simp [Fits, Expect.symbols, all]
  | logical | groupOpen | groupClose => cases e <;> simp [Fits, Expect.symbols, other]

theorem check_eq_none_iff {m : Messages} {e : Expect} {depth : Nat} {t : Token} :
    e.check m depth t.kind t.text = none ↔ t.Fits e depth := by
  cases hf : t.kind.isFreeText with
  | true =>
    rw [Expect.check, if_pos hf, Fits]
    cases hk : t.kind with
    | column => cases e <;> simp [Expect.freeText?]
    | value => cases e <;> simp [Expect.freeText?]
    | _ => simp [hk, TokenKind.isFreeText] at hf
  | false =>
    have ht := text_of_symbol hf
    rw [fits_iff_mem_symbols hf, Expect.check, if_neg (by simp [hf]), ht]
    cases hs : exactSymbol? t.raw (e.symbols depth) with
    | none =>
      simp only [reduceCtorEq, false_iff]
      intro hmem
      rw [Expect.exactSymbol?_eq_some_iff.2 ⟨hmem, rfl⟩] at hs
      cases hs
    | some s =>
      obtain ⟨symbol, found⟩ := s
      obtain ⟨hmem, rfl⟩ := Expect.exactSymbol?_eq_some_iff.1 hs
      constructor
      · intro hc
        have hfound : found = t.kind := by simpa using hc
        rwa [← hfound]
      · intro hmem'
        have hs' := Expect.exactSymbol?_eq_some_iff.2 ⟨hmem', rfl⟩
        rw [hs] at hs'
        obtain rfl : found = t.kind := by simpa using hs'
        simp

theorem Fits.raw_ne {e : Expect} {depth : Nat} {t : Token} (H : t.Fits e depth)
    (hk : t.kind ≠ .value) : t.raw ≠ "" := by
  intro hr
  cases hf : t.kind.isFreeText with
  | false =>
    rw [fits_iff_mem_symbols hf] at H
    revert H
    rw [hr]
    refine e.symbols_of (P := fun symbols => ("", t.kind) ∉ symbols) ?_ ?_ depth
    · cases e <;> cases t.kind <;> decide
    · cases e <;> cases t.kind <;> decide
  | true =>
    have hk : t.kind = .column := by
      cases hk' : t.kind with
      | column => rfl
      | _ => simp [hk', TokenKind.isFreeText] at hk hf
    rw [Fits, hk, text_of_raw (s := "") hf (hr.trans (by decide))] at H
    exact H.2 (by decide)

end Token

/-! ### Terms in a row -/

/-- Terms that may stand one behind the other where `e` is expected in so many open groups. -/
inductive Legal : Expect → Nat → List Token → Prop where
  | nil {e : Expect} {depth : Nat} : Legal e depth []
  | cons {e : Expect} {depth : Nat} {t : Token} {ts : List Token} : t.Fits e depth →
    Legal (Expect.afterKind (some t.kind)) (depthAfter depth t.kind) ts → Legal e depth (t :: ts)

namespace Legal

variable {e : Expect} {depth : Nat} {t : Token} {ts us : List Token}

theorem cons_iff : Legal e depth (t :: ts) ↔
    t.Fits e depth ∧ Legal (Expect.afterKind (some t.kind)) (depthAfter depth t.kind) ts := by
  constructor
  · intro H
    cases H with
    | cons ht H => exact ⟨ht, H⟩
  · rintro ⟨ht, H⟩
    exact .cons ht H

/-- The check of terms in a row finds no error exactly if they are legal. -/
theorem firstError_eq_none_iff {m : Messages} :
    e.firstError m depth ts = none ↔ Legal e depth ts := by
  induction ts generalizing e depth with
  | nil => exact ⟨fun _ => .nil, fun _ => rfl⟩
  | cons t ts ih =>
    rw [cons_iff, ← ih, ← Token.check_eq_none_iff (m := m), Expect.firstError]
    split <;> rename_i hc <;> simp [hc]

theorem congr (H : Legal e depth ts) (h : us.map Token.word = ts.map Token.word) :
    Legal e depth us := by
  induction H generalizing us with
  | nil =>
    obtain rfl : us = [] := by simpa using h
    exact .nil
  | @cons e depth t ts ht _ ih =>
    obtain _ | ⟨u, us⟩ := us
    · simp at h
    obtain ⟨hu, h⟩ := List.cons.inj h
    obtain ⟨hk, hr⟩ := Prod.mk.inj hu
    refine .cons ?_ ?_
    · rwa [Token.Fits, Token.text, hk, hr]
    · rw [hk]
      exact ih h

/-- No column of legal terms is blank. -/
theorem column_not_blank (H : Legal e depth ts) (ht : t ∈ ts) (hk : t.kind = .column) :
    trimmed t.text ≠ "" := by
  induction H with
  | nil => cases ht
  | @cons e depth u ts hu _ ih =>
    rcases List.mem_cons.1 ht with rfl | ht
    · rw [Token.Fits, hk] at hu
      exact hu.2
    · exact ih ht

end Legal

/-! ### One more term -/

namespace Expect

@[simp] theorem after_append_singleton (ts : List Token) (t : Token) :
    after (ts ++ [t]) = afterKind (some t.kind) := by
  simp [after]

theorem after_congr {ts us : List Token} (h : us.map Token.word = ts.map Token.word) :
    after us = after ts := by
  have h := congrArg (fun ws => (ws.getLast?.map Prod.fst)) h
  simp only [List.getLast?_map, Option.map_map] at h
  exact congrArg afterKind h

end Expect

theorem openGroups_congr {ts us : List Token} (h : us.map Token.word = ts.map Token.word) :
    openGroups us = openGroups ts := by
  have H (ts : List Token) : openGroups ts =
      (ts.map Token.word).foldl (fun depth w => depthAfter depth w.1) 0 := by
    rw [openGroups, List.foldl_map]
    rfl
  rw [H, H, h]

/-- Terms in front matter to those behind by the expectation and the open groups that they leave. -/
theorem Legal.append_iff {ts us : List Token} : Legal .column 0 (ts ++ us) ↔
    Legal .column 0 ts ∧ Legal (.after ts) (openGroups ts) us := by
  induction ts using List.reverseRecOn generalizing us with
  | nil => exact (and_iff_right .nil).symm
  | append_singleton ts t ih =>
    have hdepth : openGroups (ts ++ [t]) = depthAfter (openGroups ts) t.kind := List.foldl_append
    have hnil {e : Expect} {depth : Nat} : Legal e depth [] ↔ True := iff_true_intro .nil
    rw [List.append_assoc, List.singleton_append, ih, cons_iff, ih, cons_iff, hnil, and_true,
      and_assoc, Expect.after_append_singleton, hdepth]

/-- A term may come last if it fits behind the others. -/
theorem Legal.append_singleton_iff {ts : List Token} {t : Token} :
    Legal .column 0 (ts ++ [t]) ↔
      Legal .column 0 ts ∧ t.Fits (.after ts) (openGroups ts) :=
  append_iff.trans (and_congr_right' (cons_iff.trans (and_iff_left .nil)))

section Place

variable {ts : List Token} {t u : Token} {i : Nat}

theorem eq_take_append_cons_drop (h : ts[i]? = some t) :
    ts = ts.take i ++ t :: ts.drop (i + 1) := by
  obtain ⟨hi, rfl⟩ := List.getElem?_eq_some_iff.1 h
  rw [← List.drop_eq_getElem_cons hi, List.take_append_drop]

theorem Legal.fits_of_getElem? (H : Legal .column 0 ts) (h : ts[i]? = some t) :
    t.Fits (.after (ts.take i)) (openGroups (ts.take i)) := by
  rw [eq_take_append_cons_drop h, append_iff, cons_iff] at H
  exact H.2.1

/-- What may follow a term depends on its kind alone, so one may be replaced by another of its kind
that fits behind the terms in front. -/
theorem Legal.set_iff (H : Legal .column 0 ts) (h : ts[i]? = some t) (hk : u.kind = t.kind) :
    Legal .column 0 (ts.set i u) ↔ u.Fits (.after (ts.take i)) (openGroups (ts.take i)) := by
  obtain ⟨hi, -⟩ := List.getElem?_eq_some_iff.1 h
  rw [eq_take_append_cons_drop h, append_iff, cons_iff, ← hk] at H
  rw [List.set_eq_take_append_cons_drop, if_pos hi, append_iff, cons_iff]
  constructor
  · exact fun H' => H'.2.1
  · exact fun hu => ⟨H.1, hu, H.2.2⟩

end Place

/-- Terms without text can be left out, for only values can be empty, and what may stand behind a
value may stand in its place. -/
theorem Legal.filter {e e' : Expect} {depth : Nat} {ts : List Token} (H : Legal e depth ts)
    (he : e' = e ∨ e = .connective ∧ e' = .value) : Legal e' depth (ts.filter (·.raw ≠ "")) := by
  induction H generalizing e' with
  | nil => exact .nil
  | @cons e depth t ts ht _ ih =>
    rw [List.filter_cons]
    split <;> rename_i hr
    · refine .cons ?_ (ih (.inl rfl))
      rcases he with rfl | ⟨rfl, rfl⟩
      · exact ht
      · rw [Token.Fits] at ht ⊢
        cases hk : t.kind <;> simp [hk] at ht ⊢ <;> exact ht
    -- A value is left out. What stands behind it may stand in its place as well.
    · have hk : t.kind = .value := by
        by_contra hk
        exact ht.raw_ne hk (by simpa using hr)
      rw [Token.Fits, hk] at ht
      have he : e' = .value := he.elim (·.trans ht) (·.2)
      rw [hk] at ih
      exact he ▸ ih (.inr ⟨rfl, rfl⟩)

theorem Editor.validate_eq_none_iff {ed : Editor} :
    ed.validate = none ↔ Legal .column 0 ed.terms.tokens :=
  Legal.firstError_eq_none_iff

end FilterQuery
