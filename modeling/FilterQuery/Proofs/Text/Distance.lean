import FilterQuery.Text.Distance
import Mathlib.Order.Bounds.Defs
import Mathlib.Order.MinMax

/-!
The edit distance is the least number of edits. Edits may be made anywhere, in any order, and at
characters that were edited before; going through both texts at once from the front never takes more
of them. The rows of the table hold the distances to beginnings of a text, which grow at the end, so
the texts are gone through in reverse.
-/

namespace FilterQuery.Text

variable {a b s t front back : List Char} {c d : Char} {k m n left above diagonal : Nat}
  {row : List Nat}

/-! ### Edits -/

/-- One character is inserted, deleted or replaced, with any text in front of it and behind it. -/
inductive EditStep : List Char → List Char → Prop where
  | insert (front : List Char) (c : Char) (back : List Char) :
    EditStep (front ++ back) (front ++ c :: back)
  | delete (front : List Char) (c : Char) (back : List Char) :
    EditStep (front ++ c :: back) (front ++ back)
  | replace (front : List Char) (c d : Char) (back : List Char) :
    EditStep (front ++ c :: back) (front ++ d :: back)

/-- So many edits, one after the other, turn one text into the other. -/
inductive Script : Nat → List Char → List Char → Prop where
  | nil (a : List Char) : Script 0 a a
  | cons {n : Nat} {a b s : List Char} : EditStep a b → Script n b s → Script (n + 1) a s

theorem EditStep.cons (x : Char) (h : EditStep a b) : EditStep (x :: a) (x :: b) := by
  cases h with
  | insert front c back => exact .insert (x :: front) c back
  | delete front c back => exact .delete (x :: front) c back
  | replace front c d back => exact .replace (x :: front) c d back

theorem EditStep.reverse (h : EditStep a b) : EditStep a.reverse b.reverse := by
  cases h with
  | insert front c back => simpa using EditStep.insert back.reverse c front.reverse
  | delete front c back => simpa using EditStep.delete back.reverse c front.reverse
  | replace front c d back => simpa using EditStep.replace back.reverse c d front.reverse

namespace Script

theorem cons_char (x : Char) (H : Script n a b) : Script n (x :: a) (x :: b) := by
  induction H with
  | nil a => exact .nil (x :: a)
  | cons h _ ih => exact .cons (h.cons x) ih

theorem reverse (H : Script n a b) : Script n a.reverse b.reverse := by
  induction H with
  | nil a => exact .nil a.reverse
  | cons h _ ih => exact .cons h.reverse ih

end Script

/-! ### Alignments -/

/-- Two texts are gone through from the front, with at most so many characters that differ or that
only one of the texts has. -/
inductive Aligned : Nat → List Char → List Char → Prop where
  | nil (n : Nat) : Aligned n [] []
  | pair {n : Nat} {a b : List Char} (c d : Char) : Aligned n a b →
    Aligned (n + if c = d then 0 else 1) (c :: a) (d :: b)
  | delete {n : Nat} {a b : List Char} (c : Char) : Aligned n a b → Aligned (n + 1) (c :: a) b
  | insert {n : Nat} {a b : List Char} (d : Char) : Aligned n a b → Aligned (n + 1) a (d :: b)

namespace Aligned

theorem mono (H : Aligned m a b) (h : m ≤ n) : Aligned n a b := by
  induction H generalizing n with
  | nil => exact .nil n
  | pair c d _ ih =>
    obtain ⟨k, rfl⟩ := Nat.exists_eq_add_of_le h
    rw [Nat.add_right_comm]
    exact .pair c d (ih (Nat.le_add_right _ k))
  | delete c _ ih =>
    obtain ⟨k, rfl⟩ := Nat.exists_eq_add_of_le h
    rw [Nat.add_right_comm]
    exact .delete c (ih (Nat.le_add_right _ k))
  | insert d _ ih =>
    obtain ⟨k, rfl⟩ := Nat.exists_eq_add_of_le h
    rw [Nat.add_right_comm]
    exact .insert d (ih (Nat.le_add_right _ k))

theorem cons_char (x : Char) (H : Aligned n a b) : Aligned n (x :: a) (x :: b) := by
  simpa using H.pair x x

theorem refl (a : List Char) : Aligned 0 a a := by
  induction a with
  | nil => exact .nil 0
  | cons x a ih => exact ih.cons_char x

theorem append_left (front : List Char) (H : Aligned n a b) :
    Aligned n (front ++ a) (front ++ b) := by
  induction front with
  | nil => exact H
  | cons x front ih => exact ih.cons_char x

/-- A text that is aligned with `d :: b` begins with what is inserted; then `d` is paired or left
out. What the text is to be aligned with need only be looked at there. -/
theorem of_cons
    (pair : ∀ {n s} e, Aligned n b s → Aligned (k + n + if d = e then 0 else 1) t (e :: s))
    (delete : ∀ {n s}, Aligned n b s → Aligned (k + n + 1) t s)
    (H : Aligned n (d :: b) s) : Aligned (k + n) t s := by
  generalize hb : d :: b = u at H
  induction H with
  | nil => cases hb
  | pair d e H =>
    obtain ⟨rfl, rfl⟩ := List.cons.inj hb
    rw [← Nat.add_assoc]
    exact pair e H
  | delete d H =>
    obtain ⟨rfl, rfl⟩ := List.cons.inj hb
    exact delete H
  | insert e _ ih => exact (ih hb).insert e

/-- The triangle inequality. -/
theorem trans (H : Aligned m a b) (H' : Aligned n b s) : Aligned (m + n) a s := by
  induction H generalizing s n with
  | nil => exact H'.mono (Nat.le_add_left _ _)
  | delete c _ ih => exact ((ih H').delete c).mono (by omega)
  | pair c d _ ih =>
    refine H'.of_cons (fun e H' => ((ih H').pair c e).mono ?_)
      fun H' => ((ih H').delete c).mono (by omega)
    grind
  | insert d _ ih =>
    exact H'.of_cons (fun e H' => ((ih H').insert e).mono (by omega))
      fun H' => (ih H').mono (by omega)

theorem of_editStep (h : EditStep a b) : Aligned 1 a b := by
  cases h with
  | insert front c back => exact ((refl back).insert c).append_left front
  | delete front c back => exact ((refl back).delete c).append_left front
  | replace front c d back =>
    refine (((refl back).pair c d).append_left front).mono ?_
    split <;> decide

theorem of_script (H : Script n a b) : Aligned n a b := by
  induction H with
  | nil a => exact refl a
  | cons h _ ih => exact ((of_editStep h).trans ih).mono (by omega)

theorem exists_script (H : Aligned n a b) : ∃ m ≤ n, Script m a b := by
  induction H with
  | nil n => exact ⟨0, Nat.zero_le n, .nil []⟩
  | @pair n a b c d _ ih =>
    obtain ⟨m, hm, H⟩ := ih
    by_cases h : c = d
    · rw [h]
      exact ⟨m, Nat.le_trans hm (Nat.le_add_right _ _), H.cons_char d⟩
    · rw [if_neg h]
      exact ⟨m + 1, Nat.succ_le_succ hm, .cons (.replace [] c d a) (H.cons_char d)⟩
  | @delete n a b c _ ih =>
    obtain ⟨m, hm, H⟩ := ih
    exact ⟨m + 1, Nat.succ_le_succ hm, .cons (.delete [] c a) H⟩
  | @insert n a b d _ ih =>
    obtain ⟨m, hm, H⟩ := ih
    exact ⟨m + 1, Nat.succ_le_succ hm, .cons (.insert [] d a) (H.cons_char d)⟩

end Aligned

/-! ### Distances -/

/-- The least number with which two texts can be aligned. -/
def IsDistance (k : Nat) (a b : List Char) : Prop := ∀ n, Aligned n a b ↔ k ≤ n

theorem aligned_nil_cons : Aligned n [] (d :: b) ↔ ∃ m, n = m + 1 ∧ Aligned m [] b := by
  constructor
  · intro H
    cases H with
    | insert d H => exact ⟨_, rfl, H⟩
  · rintro ⟨m, rfl, H⟩
    exact .insert d H

theorem aligned_cons_nil : Aligned n (c :: a) [] ↔ ∃ m, n = m + 1 ∧ Aligned m a [] := by
  constructor
  · intro H
    cases H with
    | delete c H => exact ⟨_, rfl, H⟩
  · rintro ⟨m, rfl, H⟩
    exact .delete c H

theorem aligned_cons_cons : Aligned n (c :: a) (d :: b) ↔
    ((∃ m, n = m + 1 ∧ Aligned m a (d :: b)) ∨ ∃ m, n = m + 1 ∧ Aligned m (c :: a) b) ∨
      ∃ m, (n = m + if c = d then 0 else 1) ∧ Aligned m a b := by
  constructor
  · intro H
    cases H with
    | pair c d H => exact .inr ⟨_, rfl, H⟩
    | delete c H => exact .inl (.inl ⟨_, rfl, H⟩)
    | insert d H => exact .inl (.inr ⟨_, rfl, H⟩)
  · rintro ((⟨m, rfl, H⟩ | ⟨m, rfl, H⟩) | ⟨m, rfl, H⟩)
    · exact .delete c H
    · exact .insert d H
    · exact .pair c d H

namespace IsDistance

theorem exists_add_iff (H : IsDistance k a b) (cost : Nat) :
    (∃ m, n = m + cost ∧ Aligned m a b) ↔ k + cost ≤ n := by
  constructor
  · rintro ⟨m, rfl, h⟩
    exact Nat.add_le_add_right ((H m).1 h) cost
  · intro h
    obtain ⟨j, rfl⟩ := Nat.exists_eq_add_of_le h
    exact ⟨k + j, Nat.add_right_comm k cost j, (H _).2 (Nat.le_add_right k j)⟩

theorem nil_left (b : List Char) : IsDistance b.length [] b := by
  induction b with
  | nil => exact fun n => iff_of_true (.nil n) (Nat.zero_le n)
  | cons d b ih => exact fun n => aligned_nil_cons.trans (ih.exists_add_iff 1)

theorem cons_nil (H : IsDistance k a []) (c : Char) : IsDistance (k + 1) (c :: a) [] :=
  fun _ => aligned_cons_nil.trans (H.exists_add_iff 1)

/-- A cell of the table comes from the one above it, the one on its left, and the one between the
two. -/
theorem cell (habove : IsDistance above a (d :: b)) (hleft : IsDistance left (c :: a) b)
    (hdiagonal : IsDistance diagonal a b) :
    IsDistance (min (min (above + 1) (left + 1)) (diagonal + if c = d then 0 else 1))
      (c :: a) (d :: b) := by
  intro n
  rw [aligned_cons_cons, habove.exists_add_iff, hleft.exists_add_iff, hdiagonal.exists_add_iff,
    min_le_iff, min_le_iff]

end IsDistance

/-! ### Rows of the table -/

/-- The distances of a text to `front` and to all that `front` becomes when the characters of `back`
are put before it, one by one. -/
inductive TableRow (a : List Char) : (front back : List Char) → List Nat → Prop where
  | last {k : Nat} {front : List Char} : IsDistance k a front → TableRow a front [] [k]
  | cons {k : Nat} {d : Char} {front back : List Char} {row : List Nat} : IsDistance k a front →
    TableRow a (d :: front) back row → TableRow a front (d :: back) (k :: row)

namespace TableRow

theorem nil_left (front back : List Char) :
    TableRow [] front back (List.range' front.length (back.length + 1)) := by
  induction back generalizing front with
  | nil => exact .last (.nil_left front)
  | cons d back ih => exact .cons (.nil_left front) (ih (d :: front))

theorem cells (H : TableRow a front back row) (hleft : IsDistance left (c :: a) front) :
    TableRow (c :: a) front back (left :: distanceCells c left back row) := by
  induction H generalizing left with
  | last => exact .last hleft
  | cons hdiagonal H ih =>
    -- What is left of the row before begins with the distance above the next cell.
    cases H with
    | last habove => exact .cons hleft (ih (habove.cell hleft hdiagonal))
    | cons habove => exact .cons hleft (ih (habove.cell hleft hdiagonal))

/-- One more character in front of the text: the next row. -/
theorem distanceRow (H : TableRow a [] b row) (c : Char) :
    TableRow (c :: a) [] b (distanceRow b row c) := by
  have hfirst : IsDistance (row.headD 0) a [] := by
    cases H with
    | last h => exact h
    | cons h => exact h
  exact H.cells (hfirst.cons_nil c)

theorem foldl (H : TableRow s [] b row) (a : List Char) :
    TableRow (a.reverse ++ s) [] b (a.foldl (Text.distanceRow b) row) := by
  induction a generalizing s row with
  | nil => exact H
  | cons c a ih =>
    rw [List.reverse_cons, List.append_assoc]
    exact ih (H.distanceRow c)

theorem getLastD (H : TableRow a front back row) (k : Nat) :
    IsDistance (row.getLastD k) a (back.reverse ++ front) := by
  induction H generalizing k with
  | last h => exact h
  | @cons j d front back row _ _ ih =>
    rw [List.getLastD_cons, List.reverse_cons, List.append_assoc]
    exact ih j

end TableRow

theorem isDistance_distance (a b : List Char) :
    IsDistance (distance a b) a.reverse b.reverse := by
  have H := ((TableRow.nil_left [] b).foldl a).getLastD 0
  rw [List.append_nil, List.append_nil, List.length_nil, ← List.range_eq_range'] at H
  exact H

/-- **The edit distance** is the least number of edits that turn one text into the other. -/
theorem isLeast_distance (a b : List Char) : IsLeast {n | Script n a b} (distance a b) := by
  have least {n : Nat} (H : Script n a b) : distance a b ≤ n :=
    (isDistance_distance a b n).1 (.of_script H.reverse)
  refine ⟨?_, fun n => least⟩
  -- The script that the alignment gives has no fewer edits, for there is no shorter one.
  obtain ⟨m, hm, H⟩ := ((isDistance_distance a b _).2 (Nat.le_refl _)).exists_script
  have H := H.reverse
  rw [List.reverse_reverse, List.reverse_reverse] at H
  rwa [← Nat.le_antisymm hm (least H)]

/-- Two characters that change places take two edits. -/
example : distance "kitten".toList "sitting".toList = 3 ∧ distance "ab".toList "ba".toList = 2 := by
  decide +kernel

end FilterQuery.Text
