import FilterQuery.Decimal.Scaled
import FilterQuery.Json.Basic
import FilterQuery.Text.Digit

/-!
Reading the numbers of JSON text. An integer of more than 64 bits and `-0` are doubles; a number too
large for a double is an error.
-/

namespace FilterQuery.Json

open Decimal Text

/-- How a number is written, its sign apart. -/
structure Numeral where
  whole : List Char
  /-- The digits behind the point. -/
  fraction : Option (List Char)
  /-- Whether the exponent is negative, and its digits. -/
  exponent : Option (Bool × List Char)

/-- The largest exponent that is taken into account. -/
def maxExponent : Nat := 0x7FFFFFFF

namespace Numeral

/-- Digits stand wherever there have to be some, and no zero in front of others. -/
def isComplete (n : Numeral) : Bool :=
  !n.whole.isEmpty && (n.whole.head? != some '0' || n.whole.length == 1) &&
    n.fraction != some [] && n.exponent.all (!·.2.isEmpty)

/-- The double with a decimal exponent applied to it. -/
def applyExponent? (s : Scaled) (negative : Bool) (digits : List Char) : Option Float :=
  let e := ofDigits digits
  if maxExponent < e then
    if s.significand = 0 || negative then some 0.0 else none
  else
    let e : Int := if negative then -e else e
    { s with exponent := s.exponent + e }.toFloat?

def toFloat? (n : Numeral) : Option Float :=
  let s := (Scaled.addWhole ⟨0, 0⟩ n.whole).addFraction (n.fraction.getD [])
  match n.exponent with
  | some (negative, digits) => applyExponent? s negative digits
  | none => s.toFloat?

/-- The integer of at most 64 bits that the number is, if it is written as one. -/
def toInt? (negative : Bool) (n : Numeral) : Option Int :=
  let s := Scaled.addWhole ⟨0, 0⟩ n.whole
  if n.fraction.isSome || n.exponent.isSome || s.exponent != 0 then none
  else if !negative then some s.significand
  else if s.significand = 0 || 0x8000000000000000 < s.significand then none
  else some (-s.significand)

def value? (negative : Bool) (n : Numeral) : Option Json :=
  match n.toInt? negative with
  | some i => some (int i)
  | none => n.toFloat?.map fun x => real (if negative then -x else x)

end Numeral

def readFraction (cs : List Char) : Option (List Char) × List Char :=
  match cs with
  | '.' :: rest => (some (rest.takeWhile Char.isDigit), rest.dropWhile Char.isDigit)
  | rest => (none, rest)

theorem readFraction_length (cs : List Char) : (readFraction cs).2.length ≤ cs.length := by
  unfold readFraction
  split
  · exact Nat.le_succ_of_le (List.dropWhile_sublist _).length_le
  · exact Nat.le_refl _

/-- Whether there is a minus sign, and what follows a sign. -/
def readSign (cs : List Char) : Bool × List Char :=
  match cs with
  | '+' :: rest => (false, rest)
  | '-' :: rest => (true, rest)
  | rest => (false, rest)

theorem readSign_length (cs : List Char) : (readSign cs).2.length ≤ cs.length := by
  unfold readSign
  split <;> simp

def readExponent (cs : List Char) : Option (Bool × List Char) × List Char :=
  match cs with
  | c :: rest =>
    if c = 'e' ∨ c = 'E' then
      let (negative, rest) := readSign rest
      (some (negative, rest.takeWhile Char.isDigit), rest.dropWhile Char.isDigit)
    else (none, cs)
  | [] => (none, cs)

theorem readExponent_length (cs : List Char) : (readExponent cs).2.length ≤ cs.length := by
  unfold readExponent
  split
  · split
    · refine Nat.le_succ_of_le (Nat.le_trans ?_ (readSign_length _))
      exact (List.dropWhile_sublist _).length_le
    · exact Nat.le_refl _
  · exact Nat.le_refl _

/-- A number without its sign. -/
def readNumeral? (cs : List Char) : Option (Numeral × List Char) :=
  let whole := cs.takeWhile Char.isDigit
  let (fraction, rest) := readFraction (cs.dropWhile Char.isDigit)
  let (exponent, rest) := readExponent rest
  let n : Numeral := { whole, fraction, exponent }
  if n.isComplete then some (n, rest) else none

theorem readNumeral?_length {cs rest : List Char} {n : Numeral}
    (h : readNumeral? cs = some (n, rest)) : rest.length < cs.length := by
  have whole : (cs.takeWhile Char.isDigit).length + (cs.dropWhile Char.isDigit).length =
      cs.length := by
    rw [← List.length_append, List.takeWhile_append_dropWhile]
  have fraction := readFraction_length (cs.dropWhile Char.isDigit)
  have exponent := readExponent_length (readFraction (cs.dropWhile Char.isDigit)).2
  simp only [readNumeral?] at h
  split at h
  · rename_i complete
    simp only [Numeral.isComplete, Bool.and_eq_true, Bool.not_eq_true', List.isEmpty_eq_false_iff]
      at complete
    have := List.length_pos_iff.2 complete.1.1.1
    simp only [Option.some.injEq, Prod.mk.injEq] at h
    rw [← h.2]
    omega
  · cases h

def readNumber? (cs : List Char) : Option (Json × List Char) :=
  let (negative, digits) :=
    match cs with
    | '-' :: rest => (true, rest)
    | cs => (false, cs)
  (readNumeral? digits).bind fun (n, rest) => (n.value? negative).map (·, rest)

theorem readNumber?_length {cs rest : List Char} {j : Json}
    (h : readNumber? cs = some (j, rest)) : rest.length < cs.length := by
  simp only [readNumber?, Option.bind_eq_some_iff, Option.map_eq_some_iff] at h
  obtain ⟨⟨n, r⟩, hr, _, _, h⟩ := h
  have hr := readNumeral?_length hr
  simp only [Prod.mk.injEq] at h
  obtain ⟨-, rfl⟩ := h
  split at hr
  · exact Nat.lt_succ_of_lt hr
  · exact hr

end FilterQuery.Json
