import FilterQuery.Proofs.Text.Utf8
import FilterQuery.Text.Blank
import FilterQuery.Text.Percent

/-!
Percent coding loses nothing: decoding reads the bytes of each coded character back, whatever coded
text follows. Coded text is made of kept characters and `%` alone, none of which is blank.
-/

namespace FilterQuery.Text.Percent

/-! ### The characters of coded text -/

/-- The characters that coded text is made of. -/
def IsCoded (c : Char) : Prop := isKept c = true ∨ c = '%'

theorem isKept_hexDigit {n : Nat} (h : n < 16) : isKept (hexDigit n) = true := by
  have H : ∀ n : Fin 16, isKept (hexDigit n) = true := by decide
  exact H ⟨n, h⟩

theorem isCoded_of_mem_escape {b : UInt8} {c : Char} (h : c ∈ escape b) : IsCoded c := by
  have hb : b.toNat < 256 := b.toNat_lt
  simp only [escape, List.mem_cons, List.not_mem_nil, or_false] at h
  rcases h with rfl | rfl | rfl
  · exact .inr rfl
  · exact .inl (isKept_hexDigit (by omega))
  · exact .inl (isKept_hexDigit (by omega))

theorem isCoded_of_mem_encodeChar {c d : Char} (h : d ∈ encodeChar c) : IsCoded d := by
  unfold encodeChar at h
  split at h
  · rename_i hc
    exact List.mem_singleton.mp h ▸ .inl hc
  · obtain ⟨b, -, hb⟩ := List.mem_flatMap.mp h
    exact isCoded_of_mem_escape hb

theorem isCoded_of_mem_encodeChars {cs : List Char} {d : Char} (h : d ∈ encodeChars cs) :
    IsCoded d := by
  obtain ⟨c, -, hc⟩ := List.mem_flatMap.mp h
  exact isCoded_of_mem_encodeChar hc

/-- Kept characters are ASCII: digits, letters and the four marks. -/
theorem toNat_of_isKept {c : Char} (h : isKept c = true) :
    (48 ≤ c.toNat ∧ c.toNat ≤ 57) ∨ (65 ≤ c.toNat ∧ c.toNat ≤ 90) ∨
      (97 ≤ c.toNat ∧ c.toNat ≤ 122) ∨ c = '-' ∨ c = '_' ∨ c = '.' ∨ c = '~' := by
  simp only [isKept, Bool.or_eq_true, beq_iff_eq] at h
  rcases h with (((h | h) | h) | h) | h
  · unfold Char.isAlphanum Char.isAlpha Char.isUpper Char.isLower Char.isDigit at h
    simp only [Bool.or_eq_true, Bool.and_eq_true, decide_eq_true_eq, ge_iff_le,
      UInt32.le_iff_toNat_le] at h
    rcases h with (h | h) | h
    · exact .inr (.inl h)
    · exact .inr (.inr (.inl h))
    · exact .inl h
  all_goals simp [h]

theorem IsCoded.not_isBlank {c : Char} (h : IsCoded c) : isBlank c = false := by
  rcases h with h | rfl
  · rcases toNat_of_isKept h with h | h | h | rfl | rfl | rfl | rfl
    iterate 3
      simp only [isBlank, Bool.or_eq_false_iff, Bool.and_eq_false_iff, decide_eq_false_iff_not,
        beq_eq_false_iff_ne]
      omega
    all_goals decide
  · decide

/-! ### Decoding -/

theorem bytes_escape_append (b : UInt8) (rest : List Char) :
    bytes (escape b ++ rest) = b :: bytes rest := by
  have hb : b.toNat < 256 := b.toNat_lt
  have hd : escaped? (hexDigit (b.toNat / 16)) (hexDigit (b.toNat % 16)) = some b := by
    rw [escaped?, hexValue?_hexDigit (by omega), hexValue?_hexDigit (by omega)]
    simp only [Nat.div_add_mod', UInt8.ofNat_toNat]
  simp only [escape, List.cons_append, List.nil_append]
  rw [bytes, if_pos rfl, hd]

theorem bytes_cons {c : Char} (h : c ≠ '%') (rest : List Char) :
    bytes (c :: rest) = Utf8.bytesOf c ++ bytes rest := by
  match rest with
  | [] => simp [bytes]
  | [d] => simp [bytes]
  | d :: e :: rest => rw [bytes, if_neg h]

theorem bytes_flatMap_escape (bs : List UInt8) (rest : List Char) :
    bytes (bs.flatMap escape ++ rest) = bs ++ bytes rest := by
  induction bs with
  | nil => rfl
  | cons b bs ih => rw [List.flatMap_cons, List.append_assoc, bytes_escape_append, ih,
      List.cons_append]

theorem bytes_encodeChar_append (c : Char) (rest : List Char) :
    bytes (encodeChar c ++ rest) = Utf8.bytesOf c ++ bytes rest := by
  unfold encodeChar
  split
  · rename_i hc
    refine bytes_cons ?_ rest
    rintro rfl
    simp [isKept] at hc
  · exact bytes_flatMap_escape _ rest

theorem bytes_encodeChars (cs : List Char) : bytes (encodeChars cs) = cs.flatMap Utf8.bytesOf := by
  induction cs with
  | nil => simp [encodeChars, bytes]
  | cons c cs ih =>
    rw [encodeChars, List.flatMap_cons, bytes_encodeChar_append, ← encodeChars, ih,
      List.flatMap_cons]

@[simp] theorem decodeChars_encodeChars (cs : List Char) : decodeChars (encodeChars cs) = cs := by
  rw [decodeChars, bytes_encodeChars, Utf8.decode_flatMap_bytesOf]

@[simp] theorem decode_encode (s : String) : decode (encode s) = s := by
  simp [encode, decode]

theorem bytes_ne_nil (c : Char) (cs : List Char) : bytes (c :: cs) ≠ [] := by
  match cs with
  | [] => simp [bytes]
  | [d] => simp [bytes]
  | d :: e :: cs =>
    rw [bytes]
    split
    · split <;> simp
    · simp

/-- Text that is written is never read as no text. -/
@[simp] theorem decodeChars_eq_nil {cs : List Char} : decodeChars cs = [] ↔ cs = [] := by
  cases cs with
  | nil => simp [decodeChars, bytes]
  | cons c cs => simp [decodeChars, bytes_ne_nil]

@[simp] theorem encodeChars_eq_nil {cs : List Char} : encodeChars cs = [] ↔ cs = [] := by
  refine ⟨fun h => ?_, fun h => by rw [h]; rfl⟩
  rw [← decodeChars_encodeChars cs, h, decodeChars_eq_nil]

end FilterQuery.Text.Percent
