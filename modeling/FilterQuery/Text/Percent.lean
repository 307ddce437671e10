import FilterQuery.Text.Digit
import FilterQuery.Text.Utf8

/-!
Percent coding. ASCII letters, digits and the four marks `-`, `_`, `.`, `~` stand for themselves;
every other character is written as the bytes of its UTF-8 form, each as `%` and two hexadecimal
digits. So no delimiter of a query and no blank occurs in coded text.
-/

namespace FilterQuery.Text.Percent

/-- Characters that coding leaves as they are. -/
def isKept (c : Char) : Bool :=
  c.isAlphanum || c == '-' || c == '_' || c == '.' || c == '~'

/-- One byte as `%` and two hexadecimal digits. -/
def escape (b : UInt8) : List Char :=
  ['%', hexDigit (b.toNat / 16), hexDigit (b.toNat % 16)]

def encodeChar (c : Char) : List Char :=
  if isKept c then [c] else (Utf8.bytesOf c).flatMap escape

def encodeChars (cs : List Char) : List Char :=
  cs.flatMap encodeChar

/-- The byte that the two digits after a `%` name. -/
def escaped? (high low : Char) : Option UInt8 :=
  match hexValue? high, hexValue? low with
  | some h, some l => some (UInt8.ofNat (h * 16 + l))
  | _, _ => none

/-- The bytes that coded text stands for. A `%` without two hexadecimal digits after it stands for
itself. -/
def bytes : List Char → List UInt8
  | [] => []
  | [c] => Utf8.bytesOf c
  | [c, d] => Utf8.bytesOf c ++ Utf8.bytesOf d
  | c :: h :: l :: rest =>
    if c = '%' then
      match escaped? h l with
      | some b => b :: bytes rest
      | none => Utf8.bytesOf c ++ bytes (h :: l :: rest)
    else Utf8.bytesOf c ++ bytes (h :: l :: rest)
termination_by cs => cs.length

def decodeChars (cs : List Char) : List Char :=
  Utf8.decode (bytes cs)

def encode (s : String) : String :=
  String.ofList (encodeChars s.toList)

def decode (s : String) : String :=
  String.ofList (decodeChars s.toList)

end FilterQuery.Text.Percent
