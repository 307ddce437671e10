import FilterQuery.Decimal.Double
import FilterQuery.Text.Digit

/-!
Doubles in text: a sign, then either decimal digits with a point and an exponent, all but one digit
of which may be missing, or the name of infinity or of not-a-number in any case. The value is the
double nearest to the number that is written.
-/

namespace FilterQuery.Decimal

open Text

/-- The exponent at the end of a literal: `0` if there is none. -/
def readExponent? (cs : List Char) : Option Int :=
  match cs with
  | [] => some 0
  | c :: cs =>
    if c = 'e' ∨ c = 'E' then
      let (negative, digits) :=
        match cs with
        | '+' :: ds => (false, ds)
        | '-' :: ds => (true, ds)
        | ds => (false, ds)
      if !digits.isEmpty && digits.all Char.isDigit then
        some (if negative then -(ofDigits digits) else ofDigits digits)
      else none
    else none

/-- A literal without its sign. -/
def Literal.read? (cs : List Char) : Option Literal :=
  let whole := cs.takeWhile Char.isDigit
  let (fraction, rest) :=
    match cs.dropWhile Char.isDigit with
    | '.' :: r => (r.takeWhile Char.isDigit, r.dropWhile Char.isDigit)
    | r => ([], r)
  if whole.isEmpty && fraction.isEmpty then none
  else
    (readExponent? rest).map fun e => ⟨ofDigits (whole ++ fraction), e - fraction.length⟩

namespace Double

def ofName? (cs : List Char) : Option Double :=
  match String.ofList (cs.map Char.toLower) with
  | "inf" | "infinity" => some (infinite false)
  | "nan" => some nan
  | _ => none

/-- The double that the whole text spells. -/
def parse? (cs : List Char) : Option Double :=
  let (negative, cs) :=
    match cs with
    | '+' :: r => (false, r)
    | '-' :: r => (true, r)
    | r => (false, r)
  ((ofName? cs).or ((Literal.read? cs).map Literal.toDouble)).map fun x =>
    if negative then x.negate else x

end Double
end FilterQuery.Decimal
