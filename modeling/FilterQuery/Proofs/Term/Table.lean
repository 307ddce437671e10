import FilterQuery.Term.Table
import Mathlib.Algebra.GroupWithZero.Nat
import Mathlib.Algebra.Order.BigOperators.Group.List
import Mathlib.Algebra.Order.Group.Nat
import Mathlib.Data.List.Forall2
import Mathlib.Data.List.Induction
import Mathlib.Order.Bounds.Basic

/-!
How wide a table of terms is. All cells of a column are filled up to one width, so all lines are as
wide as the widths make together, blanks at their ends apart. What the labels and then the texts give
way is taken from widths and excess alike, which both have that much. There is a table just if no
width is more than a text can be filled up to, which depends on the widths alone.
-/

namespace FilterQuery.TermIndex

open Text

variable {x : TermIndex} {rows : List (List String)} {cells : List String} {cell : String}
  {w v : List Nat} {width i c m n excess : Nat} {line : String}

/-! ### Cells -/

theorem length_fit (width : Nat) (s : String) : (fit width s).length = min width s.length := by
  unfold fit
  dsimp only
  rw [String.length_toList]
  split
  · omega
  split
  · rw [String.length_ofList, List.length_take, String.length_toList]
  · simp only [String.length_ofList, List.length_append, List.length_take, String.length_toList,
      List.length_cons, List.length_nil]
    omega

theorem length_pad (width : Nat) (s : String) : (pad width s).length = max width s.length := by
  rw [pad, String.length_append, String.length_ofList, List.length_replicate]
  omega

theorem length_pad_fit (width : Nat) (s : String) : (pad width (fit width s)).length = width := by
  rw [length_pad, length_fit]
  omega

/-- What is shown of a cell in a column of this width: all of it, or its beginning and three
points. -/
inductive Shown (width : Nat) (cell : String) : (text : String) → Prop where
  | whole : cell.length ≤ width → Shown width cell cell
  | cut {front : List Char} : front <+: cell.toList → front.length + 3 = width →
    2 ≤ front.length → width < cell.length →
    Shown width cell (String.ofList (front ++ ['.', '.', '.']))

theorem shown_fit (h : min cell.length 5 ≤ width) : Shown width cell (fit width cell) := by
  unfold fit
  dsimp only
  rw [String.length_toList]
  split
  · rename_i hle
    exact .whole hle
  rw [if_neg (by omega)]
  refine .cut (List.take_prefix _ _) ?_ ?_ (by omega)
  all_goals
    rw [List.length_take, String.length_toList]
    omega

theorem fit_eq_self (h : cell.length ≤ width) : fit width cell = cell := if_pos h

/-! ### Lines -/

/-- The line of some texts: each of them filled up to the width of its column, two blanks between
them, and no blanks at the end. -/
def lineOf (widths : List Nat) (texts : List String) : String :=
  String.ofList (trimEnd ("  ".intercalate (texts.zipWith (fun s w => pad w s) widths)).toList)

/-- The cells of a row, cut to the widths of their columns. -/
def fitAll (widths : List Nat) (cells : List String) : List String :=
  cells.zipWith (fun cell w => fit w cell) widths

/-- Going through a list succeeds where all its elements allow it. -/
theorem mapM_eq_ite {α β : Type} {f : α → Option β} {p : α → Prop} [DecidablePred p] {g : α → β}
    {l : List α} (h : ∀ a ∈ l, f a = if p a then some (g a) else none) :
    l.mapM f = if ∀ a ∈ l, p a then some (l.map g) else none := by
  induction l with
  | nil => simp
  | cons a l ih =>
    obtain ⟨ha, hl⟩ := List.forall_mem_cons.1 h
    rw [List.mapM_cons, ha, ih hl]
    by_cases hp : p a
    · by_cases hl : ∀ a ∈ l, p a
      · rw [if_pos hp, if_pos hl, if_pos (List.forall_mem_cons.2 ⟨hp, hl⟩)]
        rfl
      · rw [if_neg hl, if_neg (fun h => hl (List.forall_mem_cons.1 h).2), if_pos hp]
        rfl
    · rw [if_neg hp, if_neg (fun h => hp (List.forall_mem_cons.1 h).1)]
      rfl

theorem formatRow?_eq (h : cells.length = v.length) :
    formatRow? v cells =
      if ∀ m ∈ v, m ≤ maximumWidth then some (lineOf v (fitAll v cells)) else none := by
  have hwidths : (∀ p ∈ cells.zip v, p.2 ≤ maximumWidth) ↔ ∀ m ∈ v, m ≤ maximumWidth := by
    rw [← List.forall_mem_map (f := Prod.snd) (P := (· ≤ maximumWidth)),
      List.map_snd_zip (Nat.le_of_eq h.symm)]
  have hcells : (cells.zip v).map (fun p => pad p.2 (fit p.2 p.1)) =
      (fitAll v cells).zipWith (fun s w => pad w s) v :=
    List.ext_getElem (by simp [fitAll]) fun i _ _ => by simp [fitAll]
  have hmap : (cells.zip v).mapM (fun p => pad? p.2 (fit p.2 p.1)) =
      if ∀ p ∈ cells.zip v, p.2 ≤ maximumWidth then
        some ((cells.zip v).map fun p => pad p.2 (fit p.2 p.1)) else none :=
    mapM_eq_ite fun _ _ => rfl
  rw [formatRow?, hmap, hcells]
  simp only [hwidths]
  split <;> rfl

theorem length_intercalate {α : Type} (sep : List α) (l : List (List α)) :
    (sep.intercalate l).length = (l.map List.length).sum + sep.length * (l.length - 1) := by
  induction l with
  | nil => rfl
  | cons a l ih =>
    cases l with
    | nil => simp
    | cons b l =>
      rw [List.intercalate_cons_cons, List.length_append, List.length_append, ih]
      simp only [List.map_cons, List.sum_cons, List.length_cons, Nat.add_sub_cancel, Nat.mul_succ]
      omega

theorem length_trimEnd_le (cs : List Char) : (trimEnd cs).length ≤ cs.length := by
  rw [trimEnd, List.length_reverse]
  simpa using (List.dropWhile_sublist isBlank (l := cs.reverse)).length_le

theorem length_lineOf_le (h : cells.length = v.length) :
    (lineOf v (fitAll v cells)).length ≤ v.sum + 2 * (v.length - 1) := by
  have hfit : (fitAll v cells).length = v.length := by simp [fitAll, h]
  have hlengths : ((fitAll v cells).zipWith (fun s w => pad w s) v).map String.length = v := by
    refine List.ext_getElem (by simp [hfit]) fun i _ _ => ?_
    simp [fitAll, length_pad_fit]
  rw [lineOf, String.length_ofList]
  refine Nat.le_trans (length_trimEnd_le _) (Nat.le_of_eq ?_)
  rw [String.toList_intercalate, length_intercalate, List.map_map]
  simp only [Function.comp_def, String.length_toList, hlengths, List.length_map,
    List.length_zipWith, hfit, Nat.min_self]
  rfl

/-! ### Widths -/

/-- The numbers of characters of the cells in a column, the one of the header included. -/
def cellLengths (rows : List (List String)) (c : Nat) : Set Nat :=
  {n | ∃ cells ∈ header :: rows, ∃ cell, cells[c]? = some cell ∧ cell.length = n}

theorem length_of_mem_rows (h : cells ∈ header :: x.rows) : cells.length = 7 := by
  rcases List.mem_cons.1 h with rfl | h
  · rfl
  · obtain ⟨i, hi, rfl⟩ := List.mem_mapIdx.1 h
    rfl

theorem naturalWidths_concat (rows : List (List String)) (cells : List String) :
    naturalWidths (rows ++ [cells]) =
      (naturalWidths rows).zipWith max (cells.map String.length) := by
  rw [naturalWidths, List.foldl_append]
  rfl

theorem length_naturalWidths (h : ∀ cells ∈ rows, cells.length = 7) :
    (naturalWidths rows).length = 7 := by
  induction rows using List.reverseRecOn with
  | nil => rfl
  | append_singleton rows cells ih =>
    obtain ⟨hrows, hcells⟩ := List.forall_mem_append.1 h
    rw [naturalWidths_concat, List.length_zipWith, ih hrows, List.length_map,
      hcells cells (List.mem_singleton_self cells)]
    rfl

theorem length_naturalWidths_rows (x : TermIndex) : (naturalWidths x.rows).length = 7 :=
  length_naturalWidths fun _ h => length_of_mem_rows (List.mem_cons_of_mem _ h)

theorem isGreatest_naturalWidths (h : (naturalWidths rows)[c]? = some n) :
    IsGreatest (cellLengths rows c) n := by
  induction rows using List.reverseRecOn generalizing n with
  | nil =>
    obtain ⟨cell, hcell, rfl⟩ := Option.map_eq_some_iff.1 ((List.getElem?_map ..).symm.trans h)
    refine ⟨⟨header, List.mem_singleton_self _, cell, hcell, rfl⟩, ?_⟩
    rintro m ⟨cells, hcells, cell', hcell', rfl⟩
    obtain rfl := List.mem_singleton.1 hcells
    obtain rfl := Option.some.inj (hcell.symm.trans hcell')
    exact Nat.le_refl _
  | append_singleton rows cells ih =>
    rw [naturalWidths_concat, List.getElem?_zipWith_eq_some] at h
    obtain ⟨m, k, hm, hk, rfl⟩ := h
    obtain ⟨cell, hcell, rfl⟩ := Option.map_eq_some_iff.1 ((List.getElem?_map ..).symm.trans hk)
    have hunion : cellLengths (rows ++ [cells]) c = cellLengths rows c ∪ {cell.length} := by
      ext k
      simp only [cellLengths, ← List.cons_append, List.mem_append, List.mem_singleton, or_and_right,
        exists_or, exists_eq_left, hcell, Option.some.injEq, exists_eq_left', Set.mem_union,
        Set.mem_ofPred_eq, Set.mem_singleton_iff, eq_comm (a := k)]
    rw [hunion]
    exact (ih hm).union isGreatest_singleton

/-- All cells have room in the natural widths. -/
theorem exists_naturalWidth (hcells : cells ∈ header :: x.rows) (hcell : cells[c]? = some cell) :
    ∃ n, (naturalWidths x.rows)[c]? = some n ∧ cell.length ≤ n := by
  have hw : (naturalWidths x.rows).length = 7 := length_naturalWidths_rows x
  have hc : c < (naturalWidths x.rows).length := by
    rw [hw, ← length_of_mem_rows hcells]
    exact (List.getElem?_eq_some_iff.1 hcell).1
  have hn := List.getElem?_eq_getElem hc
  exact ⟨_, hn, (isGreatest_naturalWidths hn).2 ⟨cells, hcells, cell, hcell, rfl⟩⟩

/-- Column `i` gives way, down to five characters. What is taken from its width is taken from the
excess, and both have that much. -/
def GivesWay (i : Nat) (w : List Nat) (excess : Nat) (w' : List Nat) (excess' : Nat) : Prop :=
  ∃ n cut, cut = min (n + cut - 5) excess ∧ w[i]? = some (n + cut) ∧ w' = w.set i n ∧
    excess = excess' + cut

theorem givesWay_shrink (h : i < w.length) (excess : Nat) :
    GivesWay i w excess (shrink i w excess).1 (shrink i w excess).2 := by
  have hi : w[i]? = some w[i] := List.getElem?_eq_getElem h
  obtain ⟨cut, hcut⟩ : ∃ cut, cut = min (w[i] - minimumWidth) excess := ⟨_, rfl⟩
  have hshrink : shrink i w excess = (w.modify i (· - cut), excess - cut) := by
    rw [hcut, shrink, hi]
    rfl
  have hle : cut ≤ w[i] ∧ cut ≤ excess := by omega
  rw [hshrink]
  refine ⟨w[i] - cut, cut, ?_, ?_, ?_, (Nat.sub_add_cancel hle.2).symm⟩
  · rw [Nat.sub_add_cancel hle.1]
    exact hcut
  · rw [Nat.sub_add_cancel hle.1, hi]
  · rw [List.modify_eq_set, hi]
    rfl

/-- The width of a table in which all cells have room. -/
def fullWidth (w : List Nat) : Nat := w.sum + 12

/-- The width of a table whose texts and labels have given way as far as they do. -/
def leastWidth (w : List Nat) : Nat := ((w.modify 2 (min · 5)).modify 3 (min · 5)).sum + 12

theorem fittedWidths_eq (hw : w.length = 7) (width : Nat) :
    fittedWidths w width = (shrink 2 (shrink 3 w (fullWidth w - width)).1
      (shrink 3 w (fullWidth w - width)).2).1 := by
  rw [fittedWidths, fullWidth, hw, List.sum_eq_foldl]

/-- The widths, one by one: only those of texts and labels are less than before. -/
theorem fittedWidths_cons (a₀ a₁ a₂ a₃ a₄ a₅ a₆ width : Nat) :
    let excess := fullWidth [a₀, a₁, a₂, a₃, a₄, a₅, a₆] - width
    let cutLabel := min (a₃ - 5) excess
    let cutRaw := min (a₂ - 5) (excess - cutLabel)
    fittedWidths [a₀, a₁, a₂, a₃, a₄, a₅, a₆] width =
      [a₀, a₁, a₂ - cutRaw, a₃ - cutLabel, a₄, a₅, a₆] :=
  fittedWidths_eq rfl width

theorem length_fittedWidths (hw : w.length = 7) (width : Nat) :
    (fittedWidths w width).length = 7 := by
  match w, hw with
  | [a₀, a₁, a₂, a₃, a₄, a₅, a₆], _ =>
    rw [fittedWidths_cons]
    rfl

theorem sum_fittedWidths_le (hw : w.length = 7) (width : Nat) :
    (fittedWidths w width).sum + 12 ≤ max width (leastWidth w) := by
  match w, hw with
  | [a₀, a₁, a₂, a₃, a₄, a₅, a₆], _ =>
    rw [fittedWidths_cons]
    simp only [leastWidth, fullWidth, List.modify_succ_cons, List.modify_zero_cons, List.sum_cons,
      List.sum_nil]
    generalize hexcess : _ - width = excess
    -- Labels and texts make up for the excess, or they have given way as far as they do.
    rcases Nat.le_total excess (a₃ - 5 + (a₂ - 5)) with h | h
    · refine Nat.le_trans ?_ (Nat.le_max_left _ _)
      omega
    · refine Nat.le_trans ?_ (Nat.le_max_right _ _)
      omega

theorem getElem?_fittedWidths (hw : w.length = 7) (width : Nat) (h : w[c]? = some n) :
    ∃ m, (fittedWidths w width)[c]? = some m ∧ min n 5 ≤ m ∧ m ≤ n ∧
      (c ≠ 2 ∧ c ≠ 3 ∨ fullWidth w ≤ width → m = n) := by
  match w, hw with
  | [a₀, a₁, a₂, a₃, a₄, a₅, a₆], _ =>
    rw [fittedWidths_cons]
    match c with
    | 0 | 1 | 4 | 5 | 6 => exact ⟨n, h, by omega, Nat.le_refl n, fun _ => rfl⟩
    | 2 =>
      obtain rfl : a₂ = n := Option.some.inj h
      refine ⟨_, rfl, by omega, Nat.sub_le _ _, fun h => ?_⟩
      omega
    | 3 =>
      obtain rfl : a₃ = n := Option.some.inj h
      refine ⟨_, rfl, by omega, Nat.sub_le _ _, fun h => ?_⟩
      omega
    | c + 7 => cases h

/-- A width is too much only if the display is, or the columns that have given way as far as they
do. -/
theorem le_maximumWidth (hw : w.length = 7) (h : max width (leastWidth w) ≤ maximumWidth)
    (hm : m ∈ fittedWidths w width) : m ≤ maximumWidth := by
  have hsum := sum_fittedWidths_le hw width
  have hle : m ≤ (fittedWidths w width).sum := List.le_sum_of_mem hm
  omega

/-! ### Tables -/

theorem table?_eq (hx : x.tokens ≠ []) (width : Nat) :
    let v := fittedWidths (naturalWidths x.rows) width
    x.table? width = if ∀ m ∈ v, m ≤ maximumWidth then
        some ("\n".intercalate ((header :: x.rows).map fun cells => lineOf v (fitAll v cells)))
      else none := by
  intro v
  have hv : v.length = 7 := length_fittedWidths (length_naturalWidths_rows x) width
  have hrows : (header :: x.rows).mapM (formatRow? v) =
      if ∀ cells ∈ header :: x.rows, ∀ m ∈ v, m ≤ maximumWidth then
        some ((header :: x.rows).map fun cells => lineOf v (fitAll v cells)) else none :=
    mapM_eq_ite fun cells hcells => formatRow?_eq ((length_of_mem_rows hcells).trans hv.symm)
  rw [table?, if_neg (by simpa using hx)]
  change Option.map _ ((header :: x.rows).mapM (formatRow? v)) = _
  rw [hrows]
  by_cases h : ∀ m ∈ v, m ≤ maximumWidth
  · rw [if_pos fun _ _ => h, if_pos h]
    rfl
  · rw [if_neg fun hall => h (hall header List.mem_cons_self), if_neg h]
    rfl

/-- A line of the table shows a row. It is not wider than the display, or than the columns that have
given way as far as they do; only texts and labels are shortened, and not even they if all cells
have room. -/
structure LineFits (w v : List Nat) (width : Nat) (cells : List String) (line : String) : Prop where
  length_le : line.length ≤ max width (leastWidth w)
  shown : ∃ texts : List String, line = lineOf v texts ∧ texts.length = cells.length ∧
    ∀ c cell, cells[c]? = some cell → ∃ text m, texts[c]? = some text ∧ v[c]? = some m ∧
      Shown m cell text ∧ (c ≠ 2 ∧ c ≠ 3 ∨ fullWidth w ≤ width → text = cell)

theorem lineFits_lineOf (width : Nat) (hcells : cells ∈ header :: x.rows) :
    let w := naturalWidths x.rows
    let v := fittedWidths w width
    LineFits w v width cells (lineOf v (fitAll v cells)) := by
  intro w v
  have hw : w.length = 7 := length_naturalWidths_rows x
  have hv : v.length = 7 := length_fittedWidths hw width
  refine ⟨?_, _, rfl, ?_, fun c cell hcell => ?_⟩
  · have h := length_lineOf_le ((length_of_mem_rows hcells).trans hv.symm)
    rw [hv] at h
    exact Nat.le_trans h (sum_fittedWidths_le hw width)
  · rw [fitAll, List.length_zipWith, length_of_mem_rows hcells, hv, Nat.min_self]
  · obtain ⟨n, hn, hle⟩ := exists_naturalWidth hcells hcell
    obtain ⟨m, hm, hleast, -, hfull⟩ := getElem?_fittedWidths hw width hn
    refine ⟨fit m cell, m, ?_, hm, shown_fit (by omega), fun h => fit_eq_self ?_⟩
    · exact List.getElem?_zipWith_eq_some.2 ⟨cell, m, hcell, hm, rfl⟩
    · exact hfull h ▸ hle

/-- **The table fits.** A column is as wide as its longest cell; if that is too much for the
display, the labels and then the texts give way down to five characters, and what is taken from
their widths is there to be taken. No line is wider than the display, or than the columns that have
given way as far as they do; no other cell is shortened, and none at all if all have room. These
lines are the table, unless a column is still wider than a text can be filled up to: then there is
none. That takes a display, or columns that do not give way, of more than this width. -/
theorem table_fits (x : TermIndex) (width : Nat) (hx : x.tokens ≠ []) :
    let w := naturalWidths x.rows
    let v := fittedWidths w width
    w.length = 7 ∧ (∀ c n, w[c]? = some n → IsGreatest (cellLengths x.rows c) n) ∧
    (∃ w' excess excess', GivesWay 3 w (fullWidth w - width) w' excess ∧
      GivesWay 2 w' excess v excess') ∧
    (max width (leastWidth w) ≤ maximumWidth → ∀ m ∈ v, m ≤ maximumWidth) ∧
    ∃ lines : List String, List.Forall₂ (LineFits w v width) (header :: x.rows) lines ∧
      x.table? width =
        if ∀ m ∈ v, m ≤ maximumWidth then some ("\n".intercalate lines) else none := by
  intro w v
  have hw : w.length = 7 := length_naturalWidths_rows x
  refine ⟨hw, fun c n => isGreatest_naturalWidths, ?_, fun h m => le_maximumWidth hw h,
    _, ?_, table?_eq hx width⟩
  · have hlabel := givesWay_shrink (show 3 < w.length by omega) (fullWidth w - width)
    have hraw := givesWay_shrink (i := 2) (w := (shrink 3 w (fullWidth w - width)).1)
      (by simp [shrink, hw]) (shrink 3 w (fullWidth w - width)).2
    rw [← fittedWidths_eq hw] at hraw
    exact ⟨_, _, _, hlabel, hraw⟩
  · rw [List.forall₂_map_right_iff, List.forall₂_same]
    exact fun cells => lineFits_lineOf width

/-- The label gives way by as much as is needed. -/
theorem table_fits_label :
    let x : TermIndex := ⟨[{ kind := .column, raw := "host", label := "name of the host" }]⟩
    x.tokens ≠ [] ∧ fullWidth (naturalWidths x.rows) = 53 ∧ leastWidth (naturalWidths x.rows) = 42 ∧
      x.table? 45 =
        some "#  Kind    Raw   Label     Path  Offset  Pair\n0  column  host  name ..." ∧
      ∃ lines : List String, x.table? 45 = some ("\n".intercalate lines) ∧
        ∀ line ∈ lines, line.length ≤ 45 := by
  intro x
  have hx : x.tokens ≠ [] := List.cons_ne_nil _ _
  have hleast : leastWidth (naturalWidths x.rows) = 42 := by decide +kernel
  obtain ⟨-, -, -, hwidths, lines, hlines, htable⟩ := table_fits x 45 hx
  rw [hleast] at hwidths
  rw [if_pos (hwidths (by decide))] at htable
  have hlengths := hlines.flip.imp fun line cells H => And.intro H.length_le H
  rw [hleast] at hlengths
  exact ⟨hx, by decide +kernel, hleast, by decide +kernel, lines, htable,
    ((List.forall₂_and_left _ _).1 hlengths).1⟩

end FilterQuery.TermIndex
