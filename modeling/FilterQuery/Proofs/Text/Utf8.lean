import FilterQuery.Text.Utf8

/-!
Decoding is a left inverse of the UTF-8 form, whatever bytes follow. The bounds on the second byte
are what keeps overlong forms and surrogates out, so each length is looked at by itself.
-/

namespace FilterQuery.Text.Utf8

theorem toNat_ofNat {n : Nat} (h : n < 256) : (UInt8.ofNat n).toNat = n :=
  UInt8.toNat_ofNat_of_lt' h

/-- The surrogates are no characters. -/
theorem toNat_scalar (c : Char) :
    c.toNat < 0xD800 ∨ 0xDFFF < c.toNat ∧ c.toNat < 0x110000 := c.valid

theorem isContinuation_ofNat {n : Nat} (h : n < 64) :
    isContinuation (UInt8.ofNat (0x80 + n)) = true := by
  have hn := toNat_ofNat (n := 0x80 + n) (by omega)
  simp only [isContinuation, Bool.and_eq_true, decide_eq_true_eq, UInt8.le_iff_toNat_le, hn]
  exact ⟨Nat.le_add_right .., show 0x80 + n ≤ 0xBF by omega⟩

theorem lengthFrom_eq (b : UInt8) : lengthFrom b =
    if b.toNat < 0x80 then 1
    else if 0xC2 ≤ b.toNat ∧ b.toNat ≤ 0xDF then 2
    else if 0xE0 ≤ b.toNat ∧ b.toNat ≤ 0xEF then 3
    else if 0xF0 ≤ b.toNat ∧ b.toNat ≤ 0xF4 then 4
    else 0 := by
  simp only [lengthFrom, UInt8.lt_iff_toNat_lt, UInt8.le_iff_toNat_le, Bool.and_eq_true,
    decide_eq_true_eq]
  rfl

theorem isSecond_iff (lead b : UInt8) : isSecond lead b = true ↔
    (0x80 ≤ b.toNat ∧ b.toNat ≤ 0xBF) ∧ (lead.toNat = 0xE0 → 0xA0 ≤ b.toNat) ∧
      (lead.toNat = 0xED → b.toNat ≤ 0x9F) ∧ (lead.toNat = 0xF0 → 0x90 ≤ b.toNat) ∧
      (lead.toNat = 0xF4 → b.toNat ≤ 0x8F) := by
  have eq (a : UInt8) : lead = a ↔ lead.toNat = a.toNat := UInt8.toNat_inj.symm
  simp only [isSecond, isContinuation, beq_iff_eq, eq, UInt8.le_iff_toNat_le]
  repeat' split
  all_goals
    simp only [Bool.and_eq_true, decide_eq_true_eq, UInt8.reduceToNat] at *
    omega

/-! ### One character, by the number of its bytes -/

section
variable {n : Nat} (rest : List UInt8)

theorem readChar_one (h : n < 0x80) :
    readChar (UInt8.ofNat n) rest = (Char.ofNat n, rest) := by
  have hb := toNat_ofNat (n := n) (by omega)
  have hl : lengthFrom (UInt8.ofNat n) = 1 := by
    rw [lengthFrom_eq, hb, if_pos h]
  simp only [readChar, hl, hb]

theorem readChar_two (h : 0x80 ≤ n) (h' : n < 0x800) :
    readChar (UInt8.ofNat (0xC0 + n / 64)) (UInt8.ofNat (0x80 + n % 64) :: rest) =
      (Char.ofNat n, rest) := by
  have hb := toNat_ofNat (n := 0xC0 + n / 64) (by omega)
  have hb₁ := toNat_ofNat (n := 0x80 + n % 64) (by omega)
  have hl : lengthFrom (UInt8.ofNat (0xC0 + n / 64)) = 2 := by
    rw [lengthFrom_eq, hb, if_neg (by omega), if_pos (by omega)]
  have hs : isSecond (UInt8.ofNat (0xC0 + n / 64)) (UInt8.ofNat (0x80 + n % 64)) := by
    rw [isSecond_iff, hb, hb₁]; omega
  simp only [readChar, hl, hs, hb, hb₁, if_true]
  congr 2
  omega

/-- The second byte excludes the surrogates, so they have to be excluded here. -/
theorem readChar_three (h : 0x800 ≤ n) (h' : n < 0xD800 ∨ 0xDFFF < n ∧ n < 0x10000) :
    readChar (UInt8.ofNat (0xE0 + n / 4096))
      (UInt8.ofNat (0x80 + n / 64 % 64) :: UInt8.ofNat (0x80 + n % 64) :: rest) =
      (Char.ofNat n, rest) := by
  have hb := toNat_ofNat (n := 0xE0 + n / 4096) (by omega)
  have hb₁ := toNat_ofNat (n := 0x80 + n / 64 % 64) (by omega)
  have hb₂ := toNat_ofNat (n := 0x80 + n % 64) (by omega)
  have hl : lengthFrom (UInt8.ofNat (0xE0 + n / 4096)) = 3 := by
    rw [lengthFrom_eq, hb, if_neg (by omega), if_neg (by omega), if_pos (by omega)]
  have hs : isSecond (UInt8.ofNat (0xE0 + n / 4096)) (UInt8.ofNat (0x80 + n / 64 % 64)) := by
    rw [isSecond_iff, hb, hb₁]; omega
  simp only [readChar, hl, hs, isContinuation_ofNat (n := n % 64) (by omega), hb, hb₁, hb₂,
    if_true]
  congr 2
  omega

theorem readChar_four (h : 0x10000 ≤ n) (h' : n < 0x110000) :
    readChar (UInt8.ofNat (0xF0 + n / 262144))
      (UInt8.ofNat (0x80 + n / 4096 % 64) :: UInt8.ofNat (0x80 + n / 64 % 64) ::
        UInt8.ofNat (0x80 + n % 64) :: rest) = (Char.ofNat n, rest) := by
  have hb := toNat_ofNat (n := 0xF0 + n / 262144) (by omega)
  have hb₁ := toNat_ofNat (n := 0x80 + n / 4096 % 64) (by omega)
  have hb₂ := toNat_ofNat (n := 0x80 + n / 64 % 64) (by omega)
  have hb₃ := toNat_ofNat (n := 0x80 + n % 64) (by omega)
  have hl : lengthFrom (UInt8.ofNat (0xF0 + n / 262144)) = 4 := by
    rw [lengthFrom_eq, hb, if_neg (by omega), if_neg (by omega), if_neg (by omega),
      if_pos (by omega)]
  have hs : isSecond (UInt8.ofNat (0xF0 + n / 262144)) (UInt8.ofNat (0x80 + n / 4096 % 64)) := by
    rw [isSecond_iff, hb, hb₁]; omega
  simp only [readChar, hl, hs, isContinuation_ofNat (n := n % 64) (by omega),
    isContinuation_ofNat (n := n / 64 % 64) (by omega), hb, hb₁, hb₂, hb₃, if_true]
  congr 2
  omega

end

/-! ### Whole texts -/

/-- A character is read back from its bytes, and nothing behind them is touched. -/
theorem decode_bytesOf_append (c : Char) (rest : List UInt8) :
    decode (bytesOf c ++ rest) = c :: decode rest := by
  have hc := toNat_scalar c
  unfold bytesOf
  dsimp only
  split
  · rw [List.cons_append, decode_cons, List.nil_append, readChar_one _ (by omega), c.ofNat_toNat]
  split
  · simp only [List.cons_append, List.nil_append, decode_cons]
    rw [readChar_two _ (by omega) (by omega), c.ofNat_toNat]
  split
  · simp only [List.cons_append, List.nil_append, decode_cons]
    rw [readChar_three _ (by omega) (by omega), c.ofNat_toNat]
  · simp only [List.cons_append, List.nil_append, decode_cons]
    rw [readChar_four _ (by omega) (by omega), c.ofNat_toNat]

theorem decode_flatMap_bytesOf (cs : List Char) : decode (cs.flatMap bytesOf) = cs := by
  induction cs with
  | nil => simp
  | cons c cs ih => rw [List.flatMap_cons, decode_bytesOf_append, ih]

@[simp] theorem decode_eq_nil {bytes : List UInt8} : decode bytes = [] ↔ bytes = [] := by
  cases bytes <;> simp [decode_cons]

@[simp] theorem bytesOf_ne_nil (c : Char) : bytesOf c ≠ [] := by
  unfold bytesOf
  dsimp only
  repeat' split
  all_goals exact List.cons_ne_nil _ _

end FilterQuery.Text.Utf8
