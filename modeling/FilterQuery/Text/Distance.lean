/-!
The edit distance of two texts: how many characters have to be inserted, deleted or replaced to turn
one into the other.
-/

namespace FilterQuery.Text

/-- The rest of the row for one more character `c`, from the entry `left` on. `row` is the row
before, from the entry above `left` on. -/
def distanceCells (c : Char) (left : Nat) : (bs : List Char) → (row : List Nat) → List Nat
  | b :: bs, diagonal :: above :: row =>
    let cell := min (min (above + 1) (left + 1)) (diagonal + if c = b then 0 else 1)
    cell :: distanceCells c cell bs (above :: row)
  | _, _ => []

/-- The distances to all beginnings of `bs`, for text that is longer by `c`. -/
def distanceRow (bs : List Char) (row : List Nat) (c : Char) : List Nat :=
  let first := row.headD 0 + 1
  first :: distanceCells c first bs row

/-- The edit distance. -/
def distance (a b : List Char) : Nat :=
  (a.foldl (distanceRow b) (List.range (b.length + 1))).getLastD 0

end FilterQuery.Text
