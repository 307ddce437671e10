import FilterQuery.Term.Index
import FilterQuery.Text.Blank

/-!
The terms of an index as a table with a line for each. On a narrow display the labels give way
first, then the texts; no other column is cut. A table with a column of more characters than a text
can be filled up to is not made.
-/

namespace FilterQuery.TermIndex

open Text

/-- The text cut to a width, with three points at the end if there is room for more than them. -/
def fit (width : Nat) (s : String) : String :=
  let cs := s.toList
  if cs.length ≤ width then s
  else if width ≤ 3 then String.ofList (cs.take width)
  else String.ofList (cs.take (width - 3) ++ ['.', '.', '.'])

/-- The text filled up with blanks. -/
def pad (width : Nat) (s : String) : String :=
  s ++ String.ofList (List.replicate (width - s.length) ' ')

/-- The greatest width that a text can be filled up to. -/
def maximumWidth : Nat := 0xFFFF

def pad? (width : Nat) (s : String) : Option String :=
  if width ≤ maximumWidth then some (pad width s) else none

def header : List String := ["#", "Kind", "Raw", "Label", "Path", "Offset", "Pair"]

def row (i : Nat) (t : Token) : List String :=
  [toString i, t.kind.name, t.raw, t.label, (t.path.map TermPath.toText).getD "",
    (t.sourceOffset.map toString).getD "", (t.counterpart.map toString).getD ""]

/-- The width of each column in which all its cells have room. -/
def naturalWidths (rows : List (List String)) : List Nat :=
  rows.foldl (fun widths row => widths.zipWith max (row.map String.length))
    (header.map String.length)

/-- The least width that the columns of texts and labels are cut to. -/
def minimumWidth : Nat := 5

/-- Takes up to `excess` from the width of column `i`. -/
def shrink (i : Nat) (widths : List Nat) (excess : Nat) : List Nat × Nat :=
  let cut := min (widths[i]?.getD 0 - minimumWidth) excess
  (widths.modify i (· - cut), excess - cut)

/-- The widths of the columns in a table of at most `width` characters, if that is possible. -/
def fittedWidths (widths : List Nat) (width : Nat) : List Nat :=
  let total := widths.foldl (· + ·) 0 + 2 * (widths.length - 1)
  let (widths, excess) := shrink 3 widths (total - width)
  (shrink 2 widths excess).1

/-- The line of a row, if none of the columns is too wide. -/
def formatRow? (widths : List Nat) (cells : List String) : Option String :=
  ((cells.zip widths).mapM fun p => pad? p.2 (fit p.2 p.1)).map fun texts =>
    String.ofList (trimEnd ("  ".intercalate texts).toList)

def rows (x : TermIndex) : List (List String) :=
  x.tokens.mapIdx row

/-- The table, if there are lines for all its rows. -/
def table? (x : TermIndex) (width : Nat) : Option String :=
  if x.tokens.isEmpty then some "No terms."
  else
    let widths := fittedWidths (naturalWidths x.rows) width
    ((header :: x.rows).mapM (formatRow? widths)).map "\n".intercalate

end FilterQuery.TermIndex
