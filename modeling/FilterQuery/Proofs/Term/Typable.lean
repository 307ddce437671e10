import FilterQuery.Proofs.Rule.Terms

/-!
Terms that can be typed. Columns and values have to be free of delimiters, and of blanks at their
ends. An empty value is not typed at all, so its term will be missing, which changes neither the
text nor what may follow.
-/

namespace FilterQuery

open Text

/-- Text that can be typed as it is: nothing in it ends a column or value, and no blank at an end is
lost. -/
structure Typable (s : String) : Prop where
  not_delimiter : ∀ c ∈ s.toList, c ∉ delimiters
  head : ∀ c ∈ s.toList.head?, isBlank c = false
  last : ∀ c ∈ s.toList.getLast?, isBlank c = false

theorem typable_iff {s : String} : Typable s ↔ (s.toList.all (!delimiters.contains ·) &&
    s.toList.head?.all (!isBlank ·) && s.toList.getLast?.all (!isBlank ·)) = true := by
  simp only [Bool.and_eq_true, List.all_eq_true, Option.all_eq_true, Bool.not_eq_true',
    List.contains_eq_mem, decide_eq_false_iff_not]
  constructor
  · rintro ⟨h, h', h''⟩
    exact ⟨⟨h, h'⟩, h''⟩
  · rintro ⟨⟨h, h'⟩, h''⟩
    exact ⟨h, h', h''⟩

instance (s : String) : Decidable (Typable s) := decidable_of_iff' _ typable_iff

theorem Typable.trim_eq {s : String} (H : Typable s) : trim s.toList = s.toList :=
  trim_of_ends H.head H.last

theorem Typable.trimmed_eq {s : String} (H : Typable s) : trimmed s = s := by
  rw [trimmed, H.trim_eq, String.ofList_toList]

/-- Columns and values are coded as they are in canonical texts, and can be typed. -/
def Token.Typable (t : Token) : Prop :=
  t.kind.isFreeText = true → t.raw = Percent.encode t.text ∧ FilterQuery.Typable t.text

namespace Token

variable {t : Token}

theorem typable_of_raw {s : String} (hr : t.raw = Percent.encode s) (hs : FilterQuery.Typable s) :
    t.Typable := by
  intro hf
  rw [text_of_raw hf hr]
  exact ⟨hr, hs⟩

theorem text_eq_empty (hr : t.raw = "") : t.text = "" := by
  cases hf : t.kind.isFreeText with
  | true => exact text_of_raw (s := "") hf (hr.trans (by decide))
  | false => rw [text_of_symbol hf, hr]

theorem Typable.text_ne (H : t.Typable) (hr : t.raw ≠ "") : t.text ≠ "" := by
  intro ht
  cases hf : t.kind.isFreeText with
  | true => exact hr ((H hf).1.trans (by rw [ht]; decide))
  | false => exact hr ((text_of_symbol hf).symm.trans ht)

/-- What comes from the text of terms does not depend on terms without text. -/
theorem flatMap_filter {α : Type} {f : Token → List α} (h : ∀ t, t.raw = "" → f t = [])
    (ts : List Token) : (ts.filter (·.raw ≠ "")).flatMap f = ts.flatMap f := by
  induction ts with
  | nil => rfl
  | cons t ts ih =>
    rw [List.filter_cons, List.flatMap_cons]
    split <;> rename_i hr
    · rw [List.flatMap_cons, ih]
    · rw [h t (by simpa using hr), ih, List.nil_append]

end Token

/-- A condition without a list whose texts can be typed. -/
def Condition.Typable (c : Condition) : Prop :=
  FilterQuery.Typable c.column ∧
    match c.value with
    | .flag _ => True
    | .text s => FilterQuery.Typable s
    | .list _ => False

theorem Fragment.typable_of_isMark {f : Fragment} (hf : f.isMark = true) (path : Path) :
    (f.token path).Typable := by
  cases f with
  | column | operator | value => cases hf
  | _ =>
    intro h
    cases h

theorem Condition.Typable.fragments {c : Condition} (H : c.Typable) :
    ∀ f ∈ c.fragments, ∀ path, (f.token path).Typable := by
  obtain ⟨hcolumn, hvalue⟩ := H
  have column (path : Path) : ((Fragment.column c).token path).Typable :=
    Token.typable_of_raw rfl hcolumn
  have operator (path : Path) : ((Fragment.operator c).token path).Typable := fun h => nomatch h
  have value {s : String} (hs : c.value = .text s) (path : Path) :
      ((Fragment.value c).token path).Typable := by
    rw [hs] at hvalue
    exact Token.typable_of_raw (congrArg Value.render hs) hvalue
  rw [Condition.fragments]
  cases hv : c.value with
  | flag set =>
    cases set with
    | true => simpa using column
    | false => simpa using ⟨Fragment.typable_of_isMark rfl, column⟩
  | text s => simpa using ⟨column, operator, value hv⟩
  | list items =>
    rw [hv] at hvalue
    cases hvalue

namespace Rule

/-- The terms of a rule that are typed. -/
def typedTerms (r : Rule) : List Token := r.terms.filter (·.raw ≠ "")

variable {r : Rule}

theorem typable_of_mem_terms (hc : ∀ c ∈ r.conditions, c.Typable) : ∀ t ∈ r.terms, t.Typable := by
  have written : ∀ p ∈ r.write false, ∀ path, (p.2.token path).Typable := by
    refine write_of (P := fun fs => ∀ p ∈ fs, ∀ path, (p.2.token path).Typable)
      (List.forall_mem_nil _) ?_ ?_ ?_ r false ?_
    · intro fs gs hf hg p hp
      exact (List.mem_append.1 hp).elim (hf p) (hg p)
    · intro i fs hf p hp
      obtain ⟨q, hq, rfl⟩ := List.mem_map.1 hp
      exact hf q hq
    · intro f hf p hp
      rw [List.mem_singleton.1 hp]
      exact Fragment.typable_of_isMark hf
    · intro c hmem p hp
      obtain ⟨f, hf, rfl⟩ := List.mem_map.1 hp
      exact (hc c hmem).fragments f hf
  intro t ht
  obtain ⟨p, hp, rfl⟩ := List.mem_map.1 ht
  rw [fragments] at hp
  split at hp
  · cases hp
  · exact written p hp p.1

theorem typable_of_mem_typedTerms (hc : ∀ c ∈ r.conditions, c.Typable) :
    ∀ t ∈ r.typedTerms, t.Typable ∧ t.text ≠ "" := by
  intro t ht
  obtain ⟨ht, hr⟩ := List.mem_filter.1 ht
  have H := typable_of_mem_terms hc t ht
  exact ⟨H, H.text_ne (by simpa using hr)⟩

theorem legal_typedTerms (hc : ∀ c ∈ r.conditions, trimmed c.column ≠ "") :
    Legal .column 0 r.typedTerms :=
  (r.legal_terms_iff.2 hc).filter (.inl rfl)

theorem rawOf_typedTerms (r : Rule) : TermIndex.rawOf r.typedTerms = r.render := by
  rw [← r.rawOf_terms, ← String.toList_inj, TermIndex.rawOf, TermIndex.rawOf, String.toList_join,
    String.toList_join, List.flatMap_map, List.flatMap_map]
  exact Token.flatMap_filter (fun t hr => congrArg String.toList hr) _

/-- What is typed for all terms is what is typed for these. -/
theorem text_typedTerms (r : Rule) : r.typedTerms.flatMap (·.text.toList) =
    (TermIndex.ofRule r).tokens.flatMap (·.text.toList) := by
  have hmap : (TermIndex.ofRule r).tokens.map (·.text.toList) = r.terms.map (·.text.toList) :=
    TermIndex.map_pairFrom fun _ _ => rfl
  calc r.typedTerms.flatMap (·.text.toList)
    _ = r.terms.flatMap (·.text.toList) :=
      Token.flatMap_filter (fun t hr => congrArg String.toList (Token.text_eq_empty hr)) _
    _ = (TermIndex.ofRule r).tokens.flatMap (·.text.toList) := by
      rw [List.flatMap_def, List.flatMap_def, hmap]

end Rule
end FilterQuery
