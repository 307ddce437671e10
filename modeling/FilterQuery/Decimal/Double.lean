/-!
Doubles as exact numbers, and the double nearest to a decimal one. Finite doubles are whole
multiples of `2 ^ -1074`, of which 53 bits at most are not zero; of two that are equally near the
one with an even last bit is taken.
-/

namespace FilterQuery.Decimal

def pow2 (n : Nat) : Nat := Nat.pow 2 n

def pow10 (n : Nat) : Nat := Nat.pow 10 n

inductive Double where
  /-- In units of `2 ^ -1074`. -/
  | finite (units : Int)
  | infinite (negative : Bool)
  | nan
  deriving DecidableEq, Repr

/-- The whole number nearest to `n / d`, the even one of two. -/
def roundDiv (n d : Nat) : Nat :=
  let q := n / d
  let twice := 2 * (n % d)
  if twice < d || (twice = d && q % 2 = 0) then q else q + 1

namespace Double

/-- The number of bits that a finite double keeps. -/
def precision : Nat := 53

/-- The first number past all finite doubles. -/
def limit : Nat := pow2 (1024 + 1074)

/-- The double nearest to `n / d` units. -/
def nearest (n d : Nat) : Double :=
  let bits := (n / d).log2 + 1
  let dropped := bits - precision
  let units := roundDiv n (d * pow2 dropped) * pow2 dropped
  if units < limit then finite units else infinite false

def negate : Double → Double
  | finite n => finite (-n)
  | infinite negative => infinite !negative
  | nan => nan

/-- The order of numbers. What is not a number counts as equal to everything. -/
def compare : Double → Double → Ordering
  | nan, _ | _, nan => .eq
  | finite a, finite b => Ord.compare a b
  | infinite a, infinite b => Ord.compare b a
  | infinite negative, finite _ => if negative then .lt else .gt
  | finite _, infinite negative => if negative then .gt else .lt

end Double

/-- A significand and a power of ten. -/
structure Literal where
  significand : Nat
  exponent : Int
  deriving DecidableEq, Repr

namespace Literal

/-- With more places than this on either side of the point there is only infinity or zero. -/
def maxPlaces : Nat := 400

/-- The nearest double. -/
def toDouble (l : Literal) : Double :=
  let places : Int := (Nat.toDigits 10 l.significand).length + l.exponent
  if l.significand = 0 || places < -maxPlaces then .finite 0
  else if (maxPlaces : Int) < places then .infinite false
  else if 0 ≤ l.exponent then .nearest (l.significand * pow10 l.exponent.toNat * pow2 1074) 1
  else .nearest (l.significand * pow2 1074) (pow10 l.exponent.natAbs)

end Literal
end FilterQuery.Decimal
