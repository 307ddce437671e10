import FilterQuery.Json.Numeral

/-!
Reading JSON text. Arrays and objects may nest 127 deep. Unpaired surrogates and raw control
characters in a string are errors. What is read is always shorter than what there was, which is why
reading ends.
-/

namespace FilterQuery.Json

open Text

/-- A strictly shorter rest of `cs`. -/
abbrev Rest (cs : List Char) := { rest : List Char // rest.length < cs.length }

def isSpace (c : Char) : Bool :=
  c == ' ' || c == '\t' || c == '\n' || c == '\r'

def skipSpaces (cs : List Char) : List Char := cs.dropWhile isSpace

theorem skipSpaces_length (cs : List Char) : (skipSpaces cs).length ≤ cs.length :=
  (List.dropWhile_sublist _).length_le

/-- How deep arrays and objects may nest. -/
def maxDepth : Nat := 127

/-- A unit of four hexadecimal digits. -/
def readUnit? (cs : List Char) : Option (Nat × List Char) :=
  match cs with
  | a :: b :: c :: d :: rest => do
    let a ← hexValue? a
    let b ← hexValue? b
    let c ← hexValue? c
    let d ← hexValue? d
    some (((a * 16 + b) * 16 + c) * 16 + d, rest)
  | _ => none

theorem readUnit?_length {cs rest : List Char} {n : Nat} (h : readUnit? cs = some (n, rest)) :
    rest.length < cs.length := by
  unfold readUnit? at h
  split at h
  · simp only [Option.bind_eq_bind, Option.bind_eq_some_iff] at h
    obtain ⟨_, _, _, _, _, _, _, _, h⟩ := h
    cases h
    simp only [List.length_cons]
    omega
  · cases h

/-- The character after `\u`. A high surrogate needs a low one after it. -/
def readCodePoint? (cs : List Char) : Option (Char × List Char) := do
  let (unit, rest) ← readUnit? cs
  if 0xDC00 ≤ unit && unit ≤ 0xDFFF then none
  else if 0xD800 ≤ unit && unit ≤ 0xDBFF then
    match rest with
    | '\\' :: 'u' :: rest =>
      let (low, rest) ← readUnit? rest
      if 0xDC00 ≤ low && low ≤ 0xDFFF then
        some (Char.ofNat (0x10000 + (unit - 0xD800) * 0x400 + (low - 0xDC00)), rest)
      else none
    | _ => none
  else some (Char.ofNat unit, rest)

theorem readCodePoint?_length {cs rest : List Char} {c : Char}
    (h : readCodePoint? cs = some (c, rest)) : rest.length < cs.length := by
  simp only [readCodePoint?, Option.bind_eq_bind, Option.bind_eq_some_iff] at h
  obtain ⟨⟨unit, r⟩, hr, h⟩ := h
  have hr := readUnit?_length hr
  split at h
  · cases h
  · split at h
    · split at h
      · rename_i heq
        obtain ⟨⟨low, r'⟩, hr', h⟩ := Option.bind_eq_some_iff.1 h
        have hr' := readUnit?_length hr'
        split at h
        · simp only [Option.some.injEq, Prod.mk.injEq] at h
          obtain ⟨-, rfl⟩ := h
          rw [show r = _ from heq] at hr
          simp only [List.length_cons] at hr
          omega
        · cases h
      · cases h
    · simp only [Option.some.injEq, Prod.mk.injEq] at h
      exact h.2 ▸ hr

/-- The character that an escape stands for, after its backslash. -/
def readEscape? (cs : List Char) : Option (Char × List Char) :=
  match cs with
  | '"' :: rest => some ('"', rest)
  | '\\' :: rest => some ('\\', rest)
  | '/' :: rest => some ('/', rest)
  | 'b' :: rest => some ('\x08', rest)
  | 'f' :: rest => some ('\x0c', rest)
  | 'n' :: rest => some ('\n', rest)
  | 'r' :: rest => some ('\r', rest)
  | 't' :: rest => some ('\t', rest)
  | 'u' :: rest => readCodePoint? rest
  | _ => none

theorem readEscape?_length {cs rest : List Char} {c : Char}
    (h : readEscape? cs = some (c, rest)) : rest.length < cs.length := by
  unfold readEscape? at h
  split at h
  case h_9 => exact Nat.lt_succ_of_lt (readCodePoint?_length h)
  case h_10 => cases h
  all_goals
    cases h
    simp

/-- The characters of a string behind its opening quote, and what follows its closing one. Before
them are those in `done`, of which the last one comes first. -/
def readChars? (done : List Char) (cs : List Char) : Option (List Char × List Char) :=
  match cs with
  | [] => none
  | '"' :: rest => some (done.reverse, rest)
  | '\\' :: rest =>
    match h : readEscape? rest with
    | none => none
    | some (c, after) =>
      have := readEscape?_length h
      readChars? (c :: done) after
  | c :: rest => if c < ' ' then none else readChars? (c :: done) rest
termination_by cs.length

theorem readChars?_length {done cs s rest : List Char}
    (h : readChars? done cs = some (s, rest)) : rest.length < cs.length := by
  fun_induction readChars? done cs with
  | case1 => cases h
  | case2 =>
    cases h
    simp
  | case3 => cases h
  | case4 _ _ _ _ _ hlt ih =>
    have := ih h
    simp only [List.length_cons]
    omega
  | case5 => cases h
  | case6 _ _ _ _ _ _ ih =>
    have := ih h
    simp only [List.length_cons]
    omega

/-- What follows a word at the beginning. -/
def dropWord? : List Char → List Char → Option (List Char)
  | [], cs => some cs
  | w :: word, c :: cs => if w = c then dropWord? word cs else none
  | _ :: _, [] => none

theorem dropWord?_length {word cs rest : List Char} (h : dropWord? word cs = some rest) :
    rest.length + word.length = cs.length := by
  fun_induction dropWord? word cs with
  | case1 =>
    cases h
    rfl
  | case2 _ _ _ ih =>
    have := ih h
    simp only [List.length_cons]
    omega
  | case3 => cases h
  | case4 => cases h

/-- One of the three names. -/
def readName? (cs : List Char) : Option (Json × List Char) :=
  (((dropWord? ['n', 'u', 'l', 'l'] cs).map (null, ·)).or
    ((dropWord? ['t', 'r', 'u', 'e'] cs).map (bool true, ·))).or
    ((dropWord? ['f', 'a', 'l', 's', 'e'] cs).map (bool false, ·))

theorem readName?_length {cs rest : List Char} {j : Json} (h : readName? cs = some (j, rest)) :
    rest.length < cs.length := by
  simp only [readName?, Option.or_eq_some_iff, Option.map_eq_some_iff, Prod.mk.injEq] at h
  rcases h with (⟨r, hr, _, rfl⟩ | ⟨_, r, hr, _, rfl⟩) | ⟨_, r, hr, _, rfl⟩ <;>
  · have := dropWord?_length hr
    simp only [List.length_cons, List.length_nil] at this
    omega

/-- A value that is not made of others. -/
def readScalar? (cs : List Char) : Option (Json × List Char) :=
  match cs with
  | '"' :: rest => (readChars? [] rest).map fun (s, rest) => (text (String.ofList s), rest)
  | cs => (readName? cs).or (readNumber? cs)

theorem readScalar?_length {cs rest : List Char} {j : Json} (h : readScalar? cs = some (j, rest)) :
    rest.length < cs.length := by
  unfold readScalar? at h
  split at h
  · simp only [Option.map_eq_some_iff, Prod.mk.injEq] at h
    obtain ⟨⟨s, r⟩, hr, _, rfl⟩ := h
    exact Nat.lt_succ_of_lt (readChars?_length hr)
  · rcases Option.or_eq_some_iff.1 h with h | ⟨_, h⟩
    · exact readName?_length h
    · exact readNumber?_length h

mutual

/-- A value inside `maxDepth - depth` arrays and objects, and what follows it. -/
def readValue (depth : Nat) (cs : List Char) : Option (Json × Rest cs) :=
  match h : skipSpaces cs with
  | '[' :: rest =>
    have h₁ : rest.length < cs.length := by
      have := skipSpaces_length cs
      simp only [h, List.length_cons] at this
      omega
    if depth = 0 then none
    else
      match h' : skipSpaces rest with
      | ']' :: after =>
        some (list [], ⟨after, by
          have := skipSpaces_length rest
          simp only [h', List.length_cons] at this
          omega⟩)
      | _ =>
        (readItems (depth - 1) rest).map fun (items, r) => (list items, ⟨r.1, Nat.lt_trans r.2 h₁⟩)
  | '{' :: rest =>
    have h₁ : rest.length < cs.length := by
      have := skipSpaces_length cs
      simp only [h, List.length_cons] at this
      omega
    if depth = 0 then none
    else
      match h' : skipSpaces rest with
      | '}' :: after =>
        some (object [], ⟨after, by
          have := skipSpaces_length rest
          simp only [h', List.length_cons] at this
          omega⟩)
      | _ =>
        (readFields (depth - 1) rest).map fun (fields, r) =>
          (ofFields fields, ⟨r.1, Nat.lt_trans r.2 h₁⟩)
  | other =>
    match h' : readScalar? other with
    | none => none
    | some (j, after) =>
      some (j, ⟨after, by
        have := skipSpaces_length cs
        have := readScalar?_length h'
        rw [h] at *
        omega⟩)
termination_by (cs.length, 0)

/-- Values with commas between them, up to a `]`. -/
def readItems (depth : Nat) (cs : List Char) : Option (List Json × Rest cs) :=
  match readValue depth cs with
  | none => none
  | some (j, ⟨rest, h⟩) =>
    match h' : skipSpaces rest with
    | ']' :: after =>
      some ([j], ⟨after, by
        have := skipSpaces_length rest
        simp only [h', List.length_cons] at this
        omega⟩)
    | ',' :: after =>
      have : after.length < cs.length := by
        have := skipSpaces_length rest
        simp only [h', List.length_cons] at this
        omega
      (readItems depth after).map fun (js, r) => (j :: js, ⟨r.1, Nat.lt_trans r.2 this⟩)
    | _ => none
termination_by (cs.length, 1)

/-- Fields with commas between them, up to a closing brace. -/
def readFields (depth : Nat) (cs : List Char) : Option (List (String × Json) × Rest cs) :=
  match h₀ : skipSpaces cs with
  | '"' :: rest =>
    match h₁ : readChars? [] rest with
    | none => none
    | some (name, rest') =>
      have h₁ := readChars?_length h₁
      match h₂ : skipSpaces rest' with
      | ':' :: rest'' =>
        have : rest''.length < cs.length := by
          have := skipSpaces_length cs
          have := skipSpaces_length rest'
          simp only [h₀, h₂, List.length_cons] at *
          omega
        match readValue depth rest'' with
        | none => none
        | some (j, ⟨rest₃, h₃⟩) =>
          match h₄ : skipSpaces rest₃ with
          | '}' :: after =>
            some ([(String.ofList name, j)], ⟨after, by
              have := skipSpaces_length rest₃
              simp only [h₄, List.length_cons] at this
              omega⟩)
          | ',' :: after =>
            have : after.length < cs.length := by
              have := skipSpaces_length rest₃
              simp only [h₄, List.length_cons] at this
              omega
            (readFields depth after).map fun (fields, r) =>
              ((String.ofList name, j) :: fields, ⟨r.1, Nat.lt_trans r.2 this⟩)
          | _ => none
      | _ => none
  | _ => none
termination_by (cs.length, 1)

end

/-- The value that the whole text spells. -/
def parse? (s : String) : Option Json :=
  match readValue maxDepth s.toList with
  | some (j, rest) => if (skipSpaces rest.1).isEmpty then some j else none
  | none => none

end FilterQuery.Json
