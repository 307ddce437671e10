import FilterQuery.Text.Digit

/-!
Numbers written in decimal, read as an integer significand of at most 64 bits scaled by one power of
ten. The significand is rounded to a double first and scaled then, so a number of many digits may
come out one step away from the nearest double.
-/

namespace FilterQuery.Decimal

open Text

/-- A decimal number in the course of being read. -/
structure Scaled where
  significand : Nat
  exponent : Int
  deriving DecidableEq, Repr

namespace Scaled

/-- Adds the digits in front of the point. Once one does not fit, it and all after it count as
zeros. -/
def addWhole (s : Scaled) : List Char → Scaled
  | [] => s
  | c :: cs =>
    let n := s.significand * 10 + digitValue c
    if maxWord < n then { s with exponent := s.exponent + (cs.length + 1) }
    else addWhole { s with significand := n } cs

/-- Adds the digits behind the point. Once one does not fit, it and all after it are dropped. -/
def addFraction (s : Scaled) : List Char → Scaled
  | [] => s
  | c :: cs =>
    let n := s.significand * 10 + digitValue c
    if maxWord < n then s
    else addFraction { significand := n, exponent := s.exponent - 1 } cs

/-- The double `10 ^ n`, for `n` up to 308. -/
def power (n : Nat) : Float := Float.ofScientific 1 false n

/-- The number as a double; `none` if it is too large. -/
def toFloat? (s : Scaled) : Option Float :=
  let x := (UInt64.ofNat s.significand).toFloat
  if s.significand = 0 then some x
  else if 0 ≤ s.exponent then
    if 308 < s.exponent then none
    else
      let y := x * power s.exponent.toNat
      if y.isInf then none else some y
  else
    let n := (-s.exponent).toNat
    if n ≤ 308 then some (x / power n)
    else some (x / power 308 / power (min (n - 308) 308))

end Scaled
end FilterQuery.Decimal
