import FilterQuery.Proofs.Query.Spelling

/-!
Coded text in a query. Text is coded byte by byte, and what comes out is made of letters, digits,
four marks and escapes only. There is nothing in it at which a scanner stops and nothing that it
trims, so a column or value is read as it was written, whatever its characters are.
-/

namespace FilterQuery

open Text

variable {b : UInt8} {c : Char} {cs ds : List Char}

namespace Text.Utf8

/-- The bytes are those of the standard library. -/
theorem bytesOf_eq (c : Char) : bytesOf c = String.utf8EncodeChar c := by
  have hc := toNat_scalar c
  have hn : c.val.toNat = c.toNat := rfl
  have hlt (m n : Nat) : m ≤ n ↔ m < n + 1 := Nat.lt_add_one_iff.symm
  simp only [bytesOf, String.utf8EncodeChar, hn, hlt, Nat.reduceAdd]
  split_ifs
  · rfl
  · rw [Nat.mod_eq_of_lt (a := c.toNat / 64) (by omega), Nat.add_comm, Nat.add_comm (c.toNat % 64)]
  · rw [Nat.mod_eq_of_lt (a := c.toNat / 4096) (by omega)]
    simp only [Nat.add_comm]
  · rw [Nat.mod_eq_of_lt (a := c.toNat / 262144) (by omega)]
    simp only [Nat.add_comm]

theorem toList_toUTF8 (s : String) : s.toUTF8.data.toList = s.toList.flatMap bytesOf := by
  have hs : s.toUTF8 = (s.toList.flatMap String.utf8EncodeChar).toByteArray := by
    conv_lhs => rw [← String.ofList_toList (s := s)]
    rfl
  rw [hs, List.toList_data_toByteArray, funext bytesOf_eq]

/-- A character that is not ASCII has no ASCII byte. -/
theorem le_of_mem_bytesOf (h : 0x80 ≤ c.toNat) (hb : b ∈ bytesOf c) : 0x80 ≤ b.toNat := by
  have hc := toNat_scalar c
  unfold bytesOf at hb
  dsimp only at hb
  rw [if_neg (by omega)] at hb
  split at hb
  · simp only [List.mem_cons, List.not_mem_nil, or_false] at hb
    rcases hb with rfl | rfl <;> rw [toNat_ofNat (by omega)] <;> omega
  split at hb
  · simp only [List.mem_cons, List.not_mem_nil, or_false] at hb
    rcases hb with rfl | rfl | rfl <;> rw [toNat_ofNat (by omega)] <;> omega
  · simp only [List.mem_cons, List.not_mem_nil, or_false] at hb
    rcases hb with rfl | rfl | rfl | rfl <;> rw [toNat_ofNat (by omega)] <;> omega

end Text.Utf8

namespace Text.Percent

/-! ### Coding byte by byte -/

/-- One byte: itself if it is a character that is kept, else an escape. -/
def encodeByte (b : UInt8) : List Char :=
  if isKept (Char.ofNat b.toNat) then [Char.ofNat b.toNat] else escape b

theorem toNat_lt_of_isKept (h : isKept c = true) : c.toNat < 0x80 := by
  rcases toNat_of_isKept h with h | h | h | rfl | rfl | rfl | rfl
  iterate 3 omega
  all_goals decide

theorem encodeByte_of_le (h : 0x80 ≤ b.toNat) : encodeByte b = escape b := by
  have hb : b.toNat < 256 := b.toNat_lt
  have hn : (Char.ofNat b.toNat).toNat = b.toNat := by
    rw [Char.ofNat, dif_pos (.inl (by omega))]
    rfl
  rw [encodeByte, if_neg]
  intro hk
  have := toNat_lt_of_isKept hk
  omega

theorem encodeChar_eq (c : Char) : encodeChar c = (Utf8.bytesOf c).flatMap encodeByte := by
  by_cases hc : c.toNat < 0x80
  · have hb : Utf8.bytesOf c = [UInt8.ofNat c.toNat] := by
      rw [Utf8.bytesOf]
      exact if_pos hc
    have hn : Char.ofNat (UInt8.ofNat c.toNat).toNat = c := by
      rw [Utf8.toNat_ofNat (by omega), c.ofNat_toNat]
    rw [encodeChar, hb]
    simp only [List.flatMap_cons, List.flatMap_nil, List.append_nil, encodeByte, hn]
  · have hk : ¬ isKept c = true := fun hk => hc (toNat_lt_of_isKept hk)
    rw [encodeChar, if_neg hk]
    refine List.flatMap_congr fun b hb => (encodeByte_of_le ?_).symm
    exact Utf8.le_of_mem_bytesOf (Nat.le_of_not_lt hc) hb

theorem encodeChars_eq (cs : List Char) :
    encodeChars cs = (cs.flatMap Utf8.bytesOf).flatMap encodeByte := by
  rw [List.flatMap_assoc, encodeChars, funext encodeChar_eq]

/-! ### Coded text -/

/-- The hexadecimal digits, the letters among them as capitals. -/
def hexDigits : List Char := "0123456789ABCDEF".toList

/-- Letters, digits and the four marks as they are, and escapes: a `%` and two hexadecimal digits. -/
inductive Coded : List Char → Prop where
  | nil : Coded []
  | alphanum {c : Char} {cs : List Char} : c.isAlphanum = true → Coded cs → Coded (c :: cs)
  | mark {c : Char} {cs : List Char} : c ∈ ['-', '_', '.', '~'] → Coded cs → Coded (c :: cs)
  | escape {high low : Char} {cs : List Char} : high ∈ hexDigits → low ∈ hexDigits → Coded cs →
    Coded ('%' :: high :: low :: cs)

namespace Coded

theorem append (H : Coded cs) (H' : Coded ds) : Coded (cs ++ ds) := by
  induction H with
  | nil => exact H'
  | alphanum h _ ih => exact .alphanum h ih
  | mark h _ ih => exact .mark h ih
  | escape hh hl _ ih => exact .escape hh hl ih

theorem flatMap {α : Type} {f : α → List Char} (l : List α) (H : ∀ a ∈ l, Coded (f a)) :
    Coded (l.flatMap f) := by
  induction l with
  | nil => exact .nil
  | cons a l ih =>
    obtain ⟨ha, hl⟩ := List.forall_mem_cons.1 H
    exact ha.append (ih hl)

theorem of_isKept (h : isKept c = true) : Coded [c] := by
  simp only [isKept, Bool.or_eq_true, beq_iff_eq] at h
  rcases h with (((h | h) | h) | h) | h
  · exact .alphanum h .nil
  all_goals exact .mark (by simp [h]) .nil

theorem of_escape (b : UInt8) : Coded (Percent.escape b) := by
  have hb : b.toNat < 256 := b.toNat_lt
  have digit : ∀ n : Fin 16, hexDigit n ∈ hexDigits := by decide
  exact .escape (digit ⟨b.toNat / 16, by omega⟩) (digit ⟨b.toNat % 16, by omega⟩) .nil

end Coded

theorem coded_encodeByte (b : UInt8) : Coded (encodeByte b) := by
  rw [encodeByte]
  split
  · rename_i h
    exact .of_isKept h
  · exact .of_escape b

theorem coded_encodeChars (cs : List Char) : Coded (encodeChars cs) := by
  rw [encodeChars_eq]
  exact .flatMap _ fun b _ => coded_encodeByte b

/-- **Coding loses nothing and hides all structure.** Text is coded byte by byte and decoded to
what it was. Coded text holds letters, digits, the four marks and escapes only, so no delimiter and
no blank; in front of a delimiter or the end of the query a scanner reads exactly the coded text. -/
theorem read_encode (s : String) :
    (encode s).toList = s.toUTF8.data.toList.flatMap encodeByte ∧
    decode (encode s) = s ∧
    Coded (encode s).toList ∧
    (∀ c ∈ (encode s).toList, c ∉ delimiters ∧ isBlank c = false) ∧
    ∀ (p : Nat) (rest : List Char), Scanner.StopsAt delimiters rest →
      let (run, scanner) := (⟨p, (encode s).toList ++ rest⟩ : Scanner).readRun delimiters
      run = ⟨(encode s).toList, p⟩ ∧ run.decoded = s ∧
        scanner = ⟨p + (encode s).utf8ByteSize, rest⟩ := by
  have htext : (encode s).toList = encodeChars s.toList := String.toList_ofList
  refine ⟨?_, decode_encode s, ?_, fun c hc => ?_, fun p rest hrest => ?_⟩
  · rw [htext, encodeChars_eq, Utf8.toList_toUTF8]
  · rw [htext]
    exact coded_encodeChars _
  · have H : IsCoded c := isCoded_of_mem_encodeChars (htext ▸ hc)
    exact ⟨not_mem_delimiters_of_isCoded H, H.not_isBlank⟩
  · have hsize : (encode s).utf8ByteSize = byteSize (encodeChars s.toList) :=
      utf8ByteSize_ofList _
    rw [htext, hsize, Scanner.readRun_encodeChars s.toList hrest p]
    exact ⟨rfl, by rw [Run.decoded, decodeChars_encodeChars, String.ofList_toList], rfl⟩

/-- A percent sign with digits behind it, a delimiter and blanks, one of them not ASCII, are read
back from a query. -/
theorem read_encode_percent :
    Scanner.StopsAt delimiters "=1".toList ∧
    encode " 5%41\u3000&" = "%205%2541%E3%80%80%26" ∧
    (⟨3, "%205%2541%E3%80%80%26=1".toList⟩ : Scanner).readRun delimiters =
      (⟨"%205%2541%E3%80%80%26".toList, 3⟩, ⟨24, "=1".toList⟩) := by
  have hstop : Scanner.StopsAt delimiters "=1".toList := by
    intro c hc
    obtain rfl : '=' = c := by simpa using hc
    decide
  have htext : encode " 5%41\u3000&" = "%205%2541%E3%80%80%26" := by decide +kernel
  obtain ⟨-, -, -, -, hread⟩ := read_encode " 5%41\u3000&"
  obtain ⟨hrun, -, hscanner⟩ := hread 3 "=1".toList hstop
  rw [htext] at hrun hscanner
  exact ⟨hstop, htext, Prod.ext hrun hscanner⟩

end Text.Percent
end FilterQuery
