import FilterQuery.Rule.Wildcard

/-!
What a pattern matches. The parts between the stars are looked for one behind the other, each at its
first occurrence. No other occurrence has to be tried: what stands behind any of them is the end of
what stands behind the first one, so parts that can be found there are found behind the first one.
-/

namespace FilterQuery.Wildcard

open Text

/-- The text is the pattern with some text, possibly empty, in the place of each `*`. -/
inductive Instance : (pattern text : List Char) → Prop where
  | nil : Instance [] []
  | star {pattern text : List Char} (run : List Char) : Instance pattern text →
    Instance ('*' :: pattern) (run ++ text)
  | char {c : Char} {pattern text : List Char} : c ≠ '*' → Instance pattern text →
    Instance (c :: pattern) (c :: text)

/-- The text is the parts in their order, with any text between two of them. -/
inductive Spaced : (parts : List (List Char)) → (text : List Char) → Prop where
  | last (part : List Char) : Spaced [part] part
  | cons {parts : List (List Char)} {text rest : List Char} (part : List Char) :
    Spaced parts text → text <:+ rest → Spaced (part :: parts) (part ++ rest)

variable {c : Char} {part cs text other rest pattern : List Char} {parts : List (List Char)}

/-! ### Parts in a row -/

theorem Spaced.ne_nil (H : Spaced parts text) : parts ≠ [] := by
  cases H <;> exact List.cons_ne_nil _ _

theorem spaced_singleton : Spaced [part] text ↔ text = part := by
  constructor
  · intro H
    cases H with
    | last => rfl
    | cons _ H => exact absurd rfl H.ne_nil
  · rintro rfl
    exact .last text

theorem spaced_cons (h : parts ≠ []) : Spaced (part :: parts) text ↔
    ∃ rest, text = part ++ rest ∧ ∃ other, Spaced parts other ∧ other <:+ rest := by
  constructor
  · intro H
    cases H with
    | last => exact absurd rfl h
    | cons _ H hs => exact ⟨_, rfl, _, H, hs⟩
  · rintro ⟨rest, rfl, other, H, hs⟩
    exact .cons part H hs

theorem spaced_cons_char : Spaced ((c :: part) :: parts) text ↔
    ∃ rest, text = c :: rest ∧ Spaced (part :: parts) rest := by
  constructor
  · intro H
    cases H with
    | last => exact ⟨part, rfl, .last part⟩
    | cons _ H hs => exact ⟨_, rfl, .cons part H hs⟩
  · rintro ⟨rest, rfl, H⟩
    cases H with
    | last => exact .last (c :: part)
    | cons _ H hs => exact .cons (c :: part) H hs

/-! ### Instances -/

theorem instance_star : Instance ('*' :: pattern) text ↔
    ∃ other, Instance pattern other ∧ other <:+ text := by
  constructor
  · intro H
    cases H with
    | star run H => exact ⟨_, H, List.suffix_append run _⟩
    | char h => exact absurd rfl h
  · rintro ⟨other, H, run, rfl⟩
    exact .star run H

theorem instance_char (h : c ≠ '*') : Instance (c :: pattern) text ↔
    ∃ rest, text = c :: rest ∧ Instance pattern rest := by
  constructor
  · intro H
    cases H with
    | star => exact absurd rfl h
    | char _ H => exact ⟨_, rfl, H⟩
  · rintro ⟨rest, rfl, H⟩
    exact .char h H

/-- An instance of a pattern is the parts of the pattern with any text between them. -/
theorem instance_iff_spaced : Instance pattern text ↔ Spaced (splitAll '*' pattern) text := by
  induction pattern generalizing text with
  | nil =>
    rw [splitAll, spaced_singleton]
    constructor
    · rintro ⟨⟩
      rfl
    · rintro rfl
      exact .nil
  | cons c pattern ih =>
    have hne := splitAll_ne_nil '*' pattern
    rw [splitAll]
    split
    · rename_i hc
      rw [hc, instance_star, spaced_cons hne]
      simp [ih]
    · rename_i hc
      rw [instance_char hc]
      obtain ⟨part, parts, hs⟩ := List.exists_cons_of_ne_nil hne
      simp only [ih, hs, spaced_cons_char]

/-! ### First occurrences -/

theorem isSuffix_of_afterFirst? (h : afterFirst? part cs = some rest) : part ++ rest <:+ cs := by
  induction cs with
  | nil =>
    rw [afterFirst?] at h
    split at h
    · rename_i hp
      obtain rfl := Option.some.inj h
      obtain rfl := List.isEmpty_iff.1 hp
      exact List.nil_suffix
    · cases h
  | cons c cs ih =>
    rw [afterFirst?] at h
    split at h
    · rename_i hp
      obtain rfl := Option.some.inj h
      exact ⟨[], List.prefix_iff_eq_append.1 hp⟩
    · exact (ih h).trans (List.suffix_cons c cs)

/-- What stands behind any occurrence is the end of what stands behind the first one. -/
theorem exists_afterFirst? (h : part ++ other <:+ cs) :
    ∃ rest, afterFirst? part cs = some rest ∧ other <:+ rest := by
  induction cs with
  | nil =>
    obtain ⟨rfl, rfl⟩ := List.append_eq_nil_iff.1 (List.suffix_nil.1 h)
    exact ⟨[], rfl, List.nil_suffix⟩
  | cons c cs ih =>
    rw [afterFirst?]
    split <;> rename_i hp
    · refine ⟨_, rfl, ?_⟩
      have hother : other <:+ c :: cs := (List.suffix_append part other).trans h
      refine List.suffix_of_suffix_length_le hother (List.drop_suffix _ _) ?_
      have := h.length_le
      rw [List.length_append] at this
      rw [List.length_drop]
      omega
    · rcases List.suffix_cons_iff.1 h with he | h
      · exact absurd ⟨other, he⟩ hp
      · exact ih h

/-! ### Matching -/

/-- Parts that are looked for at their first occurrences are found wherever they stand. -/
theorem matchesParts_iff (h : parts ≠ []) :
    matchesParts parts cs = true ↔ ∃ text, Spaced parts text ∧ text <:+ cs := by
  induction parts generalizing cs with
  | nil => exact absurd rfl h
  | cons part parts ih =>
    cases parts with
    | nil => simp [matchesParts, spaced_singleton]
    | cons next parts =>
      have ih {cs : List Char} := @ih cs (List.cons_ne_nil next parts)
      rw [matchesParts]
      constructor
      · intro H
        split at H
        · rename_i rest hrest
          obtain ⟨text, hs, ht⟩ := ih.1 H
          exact ⟨_, .cons part hs ht, isSuffix_of_afterFirst? hrest⟩
        · cases H
      · rintro ⟨text, H, ht⟩
        obtain ⟨rest, rfl, other, hs, ho⟩ := (spaced_cons (List.cons_ne_nil next parts)).1 H
        obtain ⟨behind, hbehind, hr⟩ := exists_afterFirst? ht
        rw [hbehind]
        exact ih.2 ⟨other, hs, ho.trans hr⟩
      · simp

theorem matchesChars_iff_spaced :
    matchesChars pattern text = true ↔ Spaced (splitAll '*' pattern) text := by
  rw [matchesChars]
  match splitAll '*' pattern, splitAll_ne_nil '*' pattern with
  | [part], _ =>
    simp only [beq_iff_eq, spaced_singleton]
    exact eq_comm
  | first :: next :: parts, _ =>
    have hne := List.cons_ne_nil next parts
    simp only [Bool.and_eq_true, decide_eq_true_eq, matchesParts_iff hne, spaced_cons hne]
    constructor
    · rintro ⟨hp, H⟩
      exact ⟨_, (List.prefix_iff_eq_append.1 hp).symm, H⟩
    · rintro ⟨rest, rfl, H⟩
      rw [List.drop_left]
      exact ⟨List.prefix_append first rest, H⟩

/-- **Patterns match exactly their instances.** -/
theorem accepts_iff_instance (pattern text : String) :
    accepts pattern text = true ↔ Instance pattern.toList text.toList :=
  matchesChars_iff_spaced.trans instance_iff_spaced.symm

/-- The last part does not reach into what has been found for those in front of it. -/
example : accepts "a*b*ab" "abab" = true ∧ accepts "a*b*ab" "abb" = false := by
  decide +kernel

end FilterQuery.Wildcard
