/-!
The UTF-8 form of text, byte by byte, and a reading of arbitrary bytes that never fails: every
longest ill-formed beginning of a character is read as one replacement character.
-/

namespace FilterQuery.Text.Utf8

/-- A byte `10xxxxxx`. -/
def isContinuation (b : UInt8) : Bool :=
  0x80 ≤ b && b ≤ 0xBF

/-- The bytes of one character, most significant bits first. -/
def bytesOf (c : Char) : List UInt8 :=
  let n := c.toNat
  if n < 0x80 then [UInt8.ofNat n]
  else if n < 0x800 then [UInt8.ofNat (0xC0 + n / 64), UInt8.ofNat (0x80 + n % 64)]
  else if n < 0x10000 then
    [UInt8.ofNat (0xE0 + n / 4096), UInt8.ofNat (0x80 + n / 64 % 64), UInt8.ofNat (0x80 + n % 64)]
  else
    [UInt8.ofNat (0xF0 + n / 262144), UInt8.ofNat (0x80 + n / 4096 % 64),
      UInt8.ofNat (0x80 + n / 64 % 64), UInt8.ofNat (0x80 + n % 64)]

def replacement : Char := '\uFFFD'

/-- The bytes that may follow `lead` at second place. They exclude overlong forms, surrogates and
numbers past the last code point. -/
def isSecond (lead b : UInt8) : Bool :=
  if lead == 0xE0 then 0xA0 ≤ b && b ≤ 0xBF
  else if lead == 0xED then 0x80 ≤ b && b ≤ 0x9F
  else if lead == 0xF0 then 0x90 ≤ b && b ≤ 0xBF
  else if lead == 0xF4 then 0x80 ≤ b && b ≤ 0x8F
  else isContinuation b

/-- How many bytes a character takes that starts with this byte, `0` when none does. -/
def lengthFrom (lead : UInt8) : Nat :=
  if lead < 0x80 then 1
  else if 0xC2 ≤ lead && lead ≤ 0xDF then 2
  else if 0xE0 ≤ lead && lead ≤ 0xEF then 3
  else if 0xF0 ≤ lead && lead ≤ 0xF4 then 4
  else 0

/-- The character that starts with `lead`, and the bytes after it. -/
def readChar (lead : UInt8) (rest : List UInt8) : Char × List UInt8 :=
  let bits (b : UInt8) : Nat := b.toNat % 64
  match lengthFrom lead, rest with
  | 1, rest => (Char.ofNat lead.toNat, rest)
  | 2, b :: rest =>
    if isSecond lead b then (Char.ofNat (lead.toNat % 32 * 64 + bits b), rest)
    else (replacement, b :: rest)
  | 3, b :: rest =>
    if isSecond lead b then
      match rest with
      | c :: rest =>
        if isContinuation c then
          (Char.ofNat (lead.toNat % 16 * 4096 + bits b * 64 + bits c), rest)
        else (replacement, c :: rest)
      | [] => (replacement, [])
    else (replacement, b :: rest)
  | 4, b :: rest =>
    if isSecond lead b then
      match rest with
      | c :: rest =>
        if isContinuation c then
          match rest with
          | d :: rest =>
            if isContinuation d then
              (Char.ofNat (lead.toNat % 8 * 262144 + bits b * 4096 + bits c * 64 + bits d), rest)
            else (replacement, d :: rest)
          | [] => (replacement, [])
        else (replacement, c :: rest)
      | [] => (replacement, [])
    else (replacement, b :: rest)
  | _, rest => (replacement, rest)

theorem readChar_length (lead : UInt8) (rest : List UInt8) :
    (readChar lead rest).2.length ≤ rest.length := by
  unfold readChar
  repeat' split
  all_goals simp
  all_goals omega

/-- The characters that the bytes spell. -/
def decode : List UInt8 → List Char
  | [] => []
  | lead :: rest =>
    (readChar lead rest).1 :: decode (readChar lead rest).2
termination_by bytes => bytes.length
decreasing_by
  have := readChar_length lead rest
  simp only [List.length_cons]
  omega

@[simp] theorem decode_nil : decode [] = [] := by
  simp [decode]

theorem decode_cons (lead : UInt8) (rest : List UInt8) :
    decode (lead :: rest) = (readChar lead rest).1 :: decode (readChar lead rest).2 := by
  rw [decode]

end FilterQuery.Text.Utf8
