import FilterQuery.Decimal.Double

/-!
The shortest decimal that reads back as a given double, and its layout. A double is `m * 2 ^ q`; the
numbers that round to it form an interval around it, which includes its ends when `m` is even. The
coarsest decimal grid with a point in the interval gives the digits. Of two such points the one
nearer to the double is taken, and the even one of two equally near.
-/

namespace FilterQuery.Decimal

/-- A nonnegative finite double, as an integer multiple of `2 ^ -1074`. -/
structure Parts where
  mantissa : Nat
  /-- The exponent of the lowest bit of the mantissa, above `-1074`. -/
  shift : Nat
  deriving DecidableEq, Repr

/-- The absolute value of a finite double. -/
def Parts.ofFloat (x : Float) : Parts :=
  let bits := x.toBits.toNat
  let exponent := bits / pow2 52 % pow2 11
  let fraction := bits % pow2 52
  if exponent = 0 then ⟨fraction, 0⟩ else ⟨fraction + pow2 52, exponent - 1⟩

/-- Whether the sign bit is set. -/
def isNegative (x : Float) : Bool :=
  pow2 63 ≤ x.toBits.toNat

namespace Parts

/-- The lowest power of ten that a grid is tried for. -/
def floor : Nat := 350

/-- Four times the double, in units of `2 ^ -1074 * 10 ^ -floor`. -/
def value (p : Parts) : Nat := 4 * p.mantissa * pow2 p.shift * pow10 floor

/-- Half of the gap to the next double below, times four. -/
def halfBelow (p : Parts) : Nat :=
  (if p.mantissa = pow2 52 && p.shift != 0 then 1 else 2) * pow2 p.shift * pow10 floor

/-- Half of the gap to the next double above, times four. -/
def halfAbove (p : Parts) : Nat := 2 * pow2 p.shift * pow10 floor

/-- Whether the point, given in the units of `value`, reads back as the double. -/
def readsBack (p : Parts) (point : Nat) : Bool :=
  let low := p.value - p.halfBelow
  let high := p.value + p.halfAbove
  if p.mantissa % 2 = 0 then low ≤ point && point ≤ high else low < point && point < high

/-- The best point of the grid `10 ^ (e - floor)` that reads back, as a multiple of it. -/
def onGrid? (p : Parts) (e : Nat) : Option Nat :=
  let unit := 4 * pow2 1074 * pow10 e
  let d := p.value / unit
  let below := p.readsBack (d * unit)
  let above := p.readsBack ((d + 1) * unit)
  let twice := 2 * (p.value % unit)
  if below && above then
    if twice < unit || (twice = unit && d % 2 = 0) then some d else some (d + 1)
  else if below then some d
  else if above then some (d + 1)
  else none

/-- The digits and the exponent on the coarsest grid, from `10 ^ (e - floor)` on downwards. -/
def shortestFrom (p : Parts) : Nat → Nat × Int
  | 0 => ((p.onGrid? 0).getD 0, -floor)
  | e + 1 =>
    match p.onGrid? (e + 1) with
    | some d => (d, (e + 1 : Nat) - (floor : Int))
    | none => p.shortestFrom e

/-- The shortest digits `d` and the exponent `e` such that `d * 10 ^ e` reads back. -/
def shortest (p : Parts) : Nat × Int :=
  p.shortestFrom (floor + 310)

end Parts

def zeros (n : Nat) : List Char := List.replicate n '0'

/-- Positional from `1e-5` up to `1e16`, with a fraction always; scientific with a signed exponent
outside of that. -/
def layout (digits : List Char) (e : Int) : List Char :=
  let point : Int := digits.length + e
  if 0 ≤ e ∧ point ≤ 16 then digits ++ zeros e.toNat ++ ['.', '0']
  else if 0 < point ∧ point ≤ 16 then
    digits.take point.toNat ++ '.' :: digits.drop point.toNat
  else if -5 < point ∧ point ≤ 0 then '0' :: '.' :: zeros (-point).toNat ++ digits
  else
    let fraction := digits.drop 1
    let exponent := point - 1
    digits.take 1 ++ (if fraction.isEmpty then [] else '.' :: fraction) ++
      ['e', if exponent < 0 then '-' else '+'] ++ Nat.toDigits 10 exponent.natAbs

/-- The text of a finite double. -/
def format (x : Float) : String :=
  let p := Parts.ofFloat x
  let text :=
    if p.mantissa = 0 then ['0', '.', '0']
    else
      let (d, e) := p.shortest
      layout (Nat.toDigits 10 d) e
  String.ofList (if isNegative x then '-' :: text else text)

end FilterQuery.Decimal
