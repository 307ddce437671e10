/-!
Digits, decimal and hexadecimal, and the unsigned numbers of 64 bits that decimal digits spell, with
or without a `+` in front.
-/

namespace FilterQuery.Text

/-- The value of a decimal digit. -/
def digitValue (c : Char) : Nat := c.toNat - 48

/-- The number that decimal digits spell, the most significant one first. -/
def ofDigits (cs : List Char) : Nat :=
  cs.foldl (fun n c => n * 10 + digitValue c) 0

/-- The largest number of 64 bits. -/
def maxWord : Nat := 0xFFFFFFFFFFFFFFFF

/-- The number that the whole text spells. -/
def readWord? (cs : List Char) : Option Nat :=
  let digits :=
    match cs with
    | '+' :: ds => ds
    | ds => ds
  if !digits.isEmpty && digits.all Char.isDigit && ofDigits digits ≤ maxWord then
    some (ofDigits digits)
  else none

/-- The value of a hexadecimal digit in upper or lower case. -/
def hexValue? (c : Char) : Option Nat :=
  if '0' ≤ c ∧ c ≤ '9' then some (c.toNat - 48)
  else if 'A' ≤ c ∧ c ≤ 'F' then some (c.toNat - 55)
  else if 'a' ≤ c ∧ c ≤ 'f' then some (c.toNat - 87)
  else none

/-- The upper case digit of a value below 16. -/
def hexDigit (n : Nat) : Char :=
  if n < 10 then Char.ofNat (48 + n) else Char.ofNat (55 + n)

theorem hexValue?_hexDigit {n : Nat} (H : n < 16) : hexValue? (hexDigit n) = some n := by
  have h : ∀ n : Fin 16, hexValue? (hexDigit n) = some n.1 := by decide
  exact h ⟨n, H⟩

end FilterQuery.Text
