import FilterQuery.Text.Digit
import FilterQuery.Text.Split

/-!
Text that is put together is taken apart again: parts with a separator between them, and a number in
its decimal digits.
-/

namespace FilterQuery.Text

variable {sep : Char} {cs ds before after : List Char} {n : Nat}

/-! ### Cutting at a character -/

theorem splitAll_eq_splitOn (sep : Char) (cs : List Char) : splitAll sep cs = cs.splitOn sep := by
  induction cs with
  | nil => rfl
  | cons c cs ih =>
    rw [splitAll, ih, List.splitOn_cons_eq_if_modifyHead]
    by_cases hc : c = sep
    · rw [if_pos hc, if_pos (beq_iff_eq.2 hc)]
    · rw [if_neg hc, if_neg (mt beq_iff_eq.1 hc)]
      cases hs : cs.splitOn sep with
      | nil => exact absurd hs (List.splitOn_ne_nil sep cs)
      | cons part parts => rfl

theorem splitAll_of_not_mem (h : sep ∉ cs) : splitAll sep cs = [cs] := by
  rw [splitAll_eq_splitOn, List.splitOn_eq_singleton h]

theorem splitFirst?_append (h : sep ∉ cs) (ds : List Char) :
    splitFirst? sep (cs ++ sep :: ds) = some (cs, ds) := by
  induction cs with
  | nil => exact if_pos rfl
  | cons c cs ih =>
    obtain ⟨hc, hcs⟩ := not_or.1 (mt List.mem_cons.2 h)
    rw [List.cons_append, splitFirst?, if_neg (Ne.symm hc), ih hcs]
    rfl

theorem splitFirst?_eq_some_iff :
    splitFirst? sep cs = some (before, after) ↔ cs = before ++ sep :: after ∧ sep ∉ before := by
  refine ⟨fun h => ?_, fun ⟨hcs, h⟩ => hcs ▸ splitFirst?_append h after⟩
  induction cs generalizing before with
  | nil => cases h
  | cons c cs ih =>
    rw [splitFirst?] at h
    split at h
    · rename_i hc
      obtain ⟨rfl, rfl⟩ := Prod.mk.inj (Option.some.inj h)
      exact ⟨congrArg (· :: cs) hc, List.not_mem_nil⟩
    · rename_i hc
      obtain ⟨⟨front, back⟩, hs, he⟩ := Option.map_eq_some_iff.1 h
      obtain ⟨rfl, rfl⟩ := Prod.mk.inj he
      obtain ⟨rfl, hfront⟩ := ih hs
      exact ⟨rfl, mt List.mem_cons.1 (not_or.2 ⟨Ne.symm hc, hfront⟩)⟩

theorem splitLast?_of_not_mem (h : sep ∉ cs) : splitLast? sep cs = none := by
  induction cs with
  | nil => rfl
  | cons c cs ih =>
    obtain ⟨hc, hcs⟩ := not_or.1 (mt List.mem_cons.2 h)
    rw [splitLast?, ih hcs]
    exact if_neg (Ne.symm hc)

theorem splitLast?_append (cs : List Char) (h : sep ∉ ds) :
    splitLast? sep (cs ++ sep :: ds) = some (cs, ds) := by
  induction cs with
  | nil =>
    rw [List.nil_append, splitLast?, splitLast?_of_not_mem h]
    exact if_pos rfl
  | cons c cs ih => rw [List.cons_append, splitLast?, ih]

/-! ### Numbers -/

theorem isDigit_of_mem_toDigits {c : Char} (h : c ∈ Nat.toDigits 10 n) : c.isDigit = true :=
  Nat.isDigit_of_mem_toDigits (by decide) (Nat.le_refl 10) h

theorem ofDigits_toDigits (n : Nat) : ofDigits (Nat.toDigits 10 n) = n := by
  have hstep : ofDigits (Nat.toDigits 10 n) = Nat.ofDigitChars 10 (Nat.toDigits 10 n) 0 := by
    rw [Nat.ofDigitChars_eq_foldl, ofDigits]
    refine congrArg (List.foldl · 0 _) ?_
    funext m c
    rw [Nat.mul_comm]
    rfl
  rw [hstep, Nat.ofDigitChars_ten_toDigits]

/-- A number of 64 bits is read from its digits. -/
theorem readWord?_toDigits (h : n ≤ maxWord) : readWord? (Nat.toDigits 10 n) = some n := by
  have hne : (Nat.toDigits 10 n).isEmpty = false := List.isEmpty_eq_false_iff.2 Nat.toDigits_ne_nil
  have hall : (Nat.toDigits 10 n).all Char.isDigit = true :=
    List.all_eq_true.2 fun c hc => isDigit_of_mem_toDigits hc
  rw [readWord?]
  · simp [hne, hall, ofDigits_toDigits, h]
  · -- No digit is a sign.
    intro ds hds
    have hplus : '+'.isDigit = true := isDigit_of_mem_toDigits (hds ▸ List.mem_cons_self)
    exact absurd hplus (by decide)

theorem le_maxWord_of_readWord? (h : readWord? cs = some n) : n ≤ maxWord := by
  have H (ds : List Char) (h : (if !ds.isEmpty && ds.all Char.isDigit &&
      decide (ofDigits ds ≤ maxWord) then some (ofDigits ds) else none) = some n) :
      n ≤ maxWord := by
    split at h
    · rename_i hds
      obtain rfl := Option.some.inj h
      simp only [Bool.and_eq_true, decide_eq_true_eq] at hds
      exact hds.2
    · cases h
  exact H _ h

end FilterQuery.Text
