import FilterQuery.Text.Blank
import FilterQuery.Text.Percent

/-!
A cursor over the characters of a query. Positions count bytes of UTF-8. Percent coded delimiters
are ordinary characters here, so they are never taken for structure.
-/

namespace FilterQuery

open Text

/-- The characters that end the text of a column or a value. -/
def delimiters : List Char := ['&', '|', '(', ')', '=', '!', '>', '<']

/-- A stretch of text without delimiters. -/
structure Run where
  /-- The text without the blanks around it. -/
  raw : List Char
  /-- Where `raw` starts; the start of the stretch when it is blank. -/
  offset : Nat
  deriving DecidableEq, Repr

namespace Run

def isEmpty (r : Run) : Bool := r.raw.isEmpty

/-- The text that the run is the percent coding of. -/
def decoded (r : Run) : String := String.ofList (Percent.decodeChars r.raw)

end Run

structure Scanner where
  position : Nat
  rest : List Char
  deriving DecidableEq, Repr

namespace Scanner

def ofString (s : String) : Scanner := ⟨0, s.toList⟩

def peek (s : Scanner) : Option Char := s.rest.head?

def peekSecond (s : Scanner) : Option Char := s.rest.tail.head?

def atEnd (s : Scanner) : Bool := s.rest.isEmpty

/-- Past the next character; at the end it stays where it is. -/
def advance (s : Scanner) : Scanner :=
  match s.rest with
  | [] => s
  | c :: rest => ⟨s.position + c.utf8Size, rest⟩

/-- Past the next character, if it is `c`. -/
def eat? (s : Scanner) (c : Char) : Option Scanner :=
  if s.peek = some c then some s.advance else none

/-- Past these characters, if they come next. -/
def eatAll? (s : Scanner) (cs : List Char) : Option Scanner :=
  if cs <+: s.rest then some ⟨s.position + byteSize cs, s.rest.drop cs.length⟩ else none

/-- Past all characters up to the first one without the property. -/
def skipWhile (p : Char → Bool) (s : Scanner) : Scanner :=
  ⟨s.position + byteSize (s.rest.takeWhile p), s.rest.dropWhile p⟩

def skipBlanks (s : Scanner) : Scanner := s.skipWhile isBlank

/-- The run up to the first of the characters in `stops`, and the scanner there. -/
def readRun (stops : List Char) (s : Scanner) : Run × Scanner :=
  let inRun := fun c => !stops.contains c
  let text := s.rest.takeWhile inRun
  let raw := trim text
  let leading := if raw.isEmpty then [] else text.takeWhile isBlank
  (⟨raw, s.position + byteSize leading⟩, s.skipWhile inRun)

@[simp] theorem peek_cons (n : Nat) (c : Char) (cs : List Char) :
    (⟨n, c :: cs⟩ : Scanner).peek = some c := rfl

@[simp] theorem peek_nil (n : Nat) : (⟨n, []⟩ : Scanner).peek = none := rfl

@[simp] theorem advance_cons (n : Nat) (c : Char) (cs : List Char) :
    (⟨n, c :: cs⟩ : Scanner).advance = ⟨n + c.utf8Size, cs⟩ := rfl

theorem skipWhile_rest_length (p : Char → Bool) (s : Scanner) :
    (s.skipWhile p).rest.length ≤ s.rest.length := by
  simpa [skipWhile] using (List.dropWhile_sublist p).length_le

theorem skipBlanks_rest_length (s : Scanner) : s.skipBlanks.rest.length ≤ s.rest.length :=
  skipWhile_rest_length _ s

theorem readRun_rest_length (stops : List Char) (s : Scanner) :
    (s.readRun stops).2.rest.length ≤ s.rest.length :=
  skipWhile_rest_length _ s

theorem advance_rest_length (s : Scanner) : s.advance.rest.length ≤ s.rest.length := by
  unfold advance
  split <;> simp_all

theorem advance_lt {s : Scanner} {c : Char} (H : s.peek = some c) :
    s.advance.rest.length < s.rest.length := by
  obtain ⟨n, _ | ⟨d, cs⟩⟩ := s
  · simp at H
  · simp

theorem eat?_rest_length {s t : Scanner} {c : Char} (H : s.eat? c = some t) :
    t.rest.length < s.rest.length := by
  simp only [eat?, Option.ite_none_right_eq_some, Option.some.injEq] at H
  exact H.2 ▸ advance_lt H.1

theorem eatAll?_rest_length {s t : Scanner} {cs : List Char} (H : s.eatAll? cs = some t) :
    t.rest.length + cs.length = s.rest.length := by
  simp only [eatAll?, Option.ite_none_right_eq_some, Option.some.injEq] at H
  have h := H.1.length_le
  rw [← H.2, List.length_drop]
  omega

end Scanner
end FilterQuery
