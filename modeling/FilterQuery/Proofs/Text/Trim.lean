import FilterQuery.Text.Blank
import Mathlib.Data.List.DropRight

/-!
Trimming. What is left of a text neither begins nor ends with a blank, so it stays as it is when it
is trimmed once more, and nothing is left only of a text that is blank throughout. Only blanks are
taken away, so texts that are compared without any blanks need not be trimmed first.
-/

namespace FilterQuery.Text

variable {c : Char} {cs : List Char} {s : String}

theorem trimEnd_eq (cs : List Char) : trimEnd cs = cs.rdropWhile isBlank := rfl

theorem trim_of_ends (h : ∀ c ∈ cs.head?, isBlank c = false)
    (h' : ∀ c ∈ cs.getLast?, isBlank c = false) : trim cs = cs := by
  have keep {cs : List Char} (h : ∀ c ∈ cs.head?, isBlank c = false) :
      cs.dropWhile isBlank = cs := by
    cases cs with
    | nil => rfl
    | cons c cs => rw [List.dropWhile_cons, h c rfl]; rfl
  rw [trim, trimStart, keep h, trimEnd, keep (by simpa using h'), List.reverse_reverse]

theorem trim_of_not_isBlank (h : ∀ c ∈ cs, isBlank c = false) : trim cs = cs :=
  trim_of_ends (fun c hc => h c (List.mem_of_mem_head? hc))
    fun c hc => h c (List.mem_of_mem_getLast? hc)

theorem isPrefix_trim (cs : List Char) : trim cs <+: trimStart cs :=
  List.rdropWhile_prefix isBlank _

theorem not_isBlank_of_mem_head?_trim (h : c ∈ (trim cs).head?) : isBlank c = false := by
  obtain ⟨ds, hd⟩ := List.head?_eq_some_iff.1 h
  obtain ⟨rest, hr⟩ := isPrefix_trim cs
  rw [hd, List.cons_append] at hr
  have H := List.head?_dropWhile_not isBlank cs
  rw [show cs.dropWhile isBlank = c :: (ds ++ rest) from hr.symm] at H
  exact H

theorem not_isBlank_of_mem_getLast?_trim (h : c ∈ (trim cs).getLast?) : isBlank c = false := by
  obtain ⟨hn, rfl⟩ := List.mem_getLast?_eq_getLast h
  have H := List.rdropWhile_last_not isBlank _ hn
  rwa [Bool.not_eq_true] at H

/-- Blanks, what is left, and blanks again. -/
theorem eq_trim (cs : List Char) : ∃ behind, cs = cs.takeWhile isBlank ++ (trim cs ++ behind) ∧
    ∀ c ∈ behind, isBlank c = true := by
  refine ⟨(trimStart cs).rtakeWhile isBlank, ?_, fun _ => List.mem_rtakeWhile_imp⟩
  rw [trim, trimEnd_eq, List.rdropWhile_append_rtakeWhile]
  exact List.takeWhile_append_dropWhile.symm

theorem trim_trim (cs : List Char) : trim (trim cs) = trim cs :=
  trim_of_ends (fun _ => not_isBlank_of_mem_head?_trim) fun _ => not_isBlank_of_mem_getLast?_trim

theorem trimmed_trimmed (s : String) : trimmed (trimmed s) = trimmed s := by
  rw [trimmed, trimmed, String.toList_ofList, trim_trim]

theorem trim_eq_nil_iff : trim cs = [] ↔ ∀ c ∈ cs, isBlank c = true := by
  rw [trim, trimEnd_eq, List.rdropWhile_eq_nil_iff, ← List.dropWhile_eq_nil_iff,
    ← List.dropWhile_eq_nil_iff]
  exact Eq.congr_left (List.dropWhile_idempotent isBlank cs)

theorem trimmed_eq_empty_iff : trimmed s = "" ↔ (trim s.toList).isEmpty = true := by
  rw [trimmed, String.ofList_eq_empty_iff, List.isEmpty_iff]

theorem trimmed_ne_empty (h : c ∈ s.toList) (hc : isBlank c = false) : trimmed s ≠ "" := by
  intro he
  rw [trimmed_eq_empty_iff, List.isEmpty_iff, trim_eq_nil_iff] at he
  rw [he c h] at hc
  cases hc

/-- A character that is not blank is not trimmed from the end. -/
theorem trimmed_push_ne (s : String) (h : isBlank c = false) : trimmed (s.push c) ≠ trimmed s := by
  have hstart : trimStart (s.toList ++ [c]) = trimStart s.toList ++ [c] := by
    rw [trimStart, List.dropWhile_append]
    split <;> rename_i he
    · rw [trimStart, List.isEmpty_iff.1 he, List.dropWhile_cons_of_neg (by simp [h])]
      rfl
    · rfl
  have hle : (trim s.toList).length ≤ (trimStart s.toList).length :=
    (isPrefix_trim s.toList).length_le
  intro he
  rw [trimmed, trimmed, String.toList_push, String.ofList_inj, trim, hstart, trimEnd_eq,
    List.rdropWhile_concat_neg _ _ _ (by simp [h])] at he
  rw [← he, List.length_append, List.length_singleton] at hle
  omega

/-! ### Texts without blanks -/

/-- The characters that are not blank. -/
def withoutBlanks (cs : List Char) : List Char := cs.filter (!isBlank ·)

@[simp] theorem withoutBlanks_append (cs ds : List Char) :
    withoutBlanks (cs ++ ds) = withoutBlanks cs ++ withoutBlanks ds := List.filter_append ..

theorem withoutBlanks_eq_nil_iff : withoutBlanks cs = [] ↔ ∀ c ∈ cs, isBlank c = true := by
  simp [withoutBlanks, List.filter_eq_nil_iff]

theorem withoutBlanks_trimStart (cs : List Char) :
    withoutBlanks (trimStart cs) = withoutBlanks cs := by
  have h : withoutBlanks (cs.takeWhile isBlank) = [] :=
    withoutBlanks_eq_nil_iff.2 fun _ => List.mem_takeWhile_imp
  conv_rhs => rw [← List.takeWhile_append_dropWhile (p := isBlank) (l := cs)]
  rw [withoutBlanks_append, h]
  rfl

theorem withoutBlanks_trimEnd (cs : List Char) : withoutBlanks (trimEnd cs) = withoutBlanks cs := by
  rw [trimEnd, withoutBlanks, List.filter_reverse]
  change (withoutBlanks (trimStart cs.reverse)).reverse = _
  rw [withoutBlanks_trimStart, withoutBlanks, List.filter_reverse, List.reverse_reverse]
  rfl

theorem withoutBlanks_trim (cs : List Char) : withoutBlanks (trim cs) = withoutBlanks cs :=
  (withoutBlanks_trimEnd _).trans (withoutBlanks_trimStart cs)

theorem withoutBlanks_trimmed (s : String) :
    withoutBlanks (trimmed s).toList = withoutBlanks s.toList := by
  rw [trimmed, String.toList_ofList, withoutBlanks_trim]

end FilterQuery.Text
