import FilterQuery.Proofs.Rule.Spelling
import FilterQuery.Proofs.Term.Legality

/-!
The terms of a rule. They spell its canonical text, there is a column among them for each of its
conditions, and they are legal unless a column is blank.
-/

namespace FilterQuery

open Text

namespace Rule

variable {rs : List Rule}

theorem map_enclose (group : Bool) (fs : List (Path × Fragment)) : (enclose group fs).map Prod.snd =
    if group then .groupOpen :: fs.map Prod.snd ++ [.groupClose] else fs.map Prod.snd := by
  cases group <;> simp [enclose]

theorem map_beneath (i : Nat) (fs : List (Path × Fragment)) :
    (beneath i fs).map Prod.snd = fs.map Prod.snd := by
  rw [beneath, List.map_map]
  rfl

section
variable {P : List Fragment → Prop}
  (join : ∀ {fs gs op i}, P fs → P gs → P (fs ++ .separator op i :: gs))
include join

/-- What can be joined holds of the children if it holds of each of them. -/
theorem children_of {operand : Bool}
    (ih : ∀ r ∈ rs, r.isVacant = false → P ((r.write operand).map Prod.snd)) (op : Connective)
    (i : Nat) : (rs.all isVacant = false → P ((writeChildren operand op false i rs).map Prod.snd)) ∧
      ∀ fs, P fs → P (fs ++ (writeChildren operand op true i rs).map Prod.snd) := by
  induction rs generalizing i with
  | nil => exact ⟨fun h => (by cases h), fun fs hfs => by simpa [writeChildren] using hfs⟩
  | cons r rs ihs =>
    obtain ⟨hr, ih⟩ := List.forall_mem_cons.1 ih
    obtain ⟨first, further⟩ := ihs ih (i + 1)
    rw [writeChildren, writeChildren]
    split <;> rename_i hv
    · exact ⟨fun h => first (by simpa [hv] using h), further⟩
    · have hr := hr (by simpa using hv)
      simp only [List.map_append, map_beneath, if_true, Bool.false_eq_true, if_false, List.map_nil,
        List.nil_append, List.map_cons, List.append_assoc]
      refine ⟨fun _ => further _ hr, fun fs hfs => ?_⟩
      have := further _ (@join _ _ op i hfs hr)
      simpa using this

/-- What holds of the pieces of each condition, and of pieces that are negated, grouped or joined,
holds of the pieces of the rule. -/
theorem pieces_of (negation : ∀ {fs}, P fs → P (.negation :: fs))
    (group : ∀ {fs}, P fs → P (.groupOpen :: fs ++ [.groupClose])) (r : Rule) (operand : Bool)
    (condition : ∀ c ∈ r.conditions, P c.fragments)
    (hv : r.isVacant = false) : P ((r.write operand).map Prod.snd) := by
  have enclosed {b : Bool} {fs : List (Path × Fragment)} (h : P (fs.map Prod.snd)) :
      P ((enclose b fs).map Prod.snd) := by
    rw [map_enclose]
    split
    · exact group h
    · exact h
  induction r using induction generalizing operand with
  | condition c =>
    rw [write, List.map_map]
    have := condition c List.mem_cons_self
    simpa [Function.comp_def] using this
  | chain op rs ih =>
    rw [isVacant, allVacant_eq] at hv
    rw [conditions_chain] at condition
    have ih (operand : Bool) : ∀ r ∈ rs, r.isVacant = false → P ((r.write operand).map Prod.snd) :=
      fun r hr => ih r hr operand fun c hc => condition c (List.mem_flatMap_of_mem hr hc)
    have children {operand : Bool} {op : Connective} :
        P ((writeChildren operand op false 0 rs).map Prod.snd) :=
      (children_of join (ih operand) op 0).1 hv
    obtain ⟨group, inner, op', h⟩ := write_chain_cases operand op rs
    rcases h with h | h <;> rw [h]
    · exact enclosed children
    · exact negation (enclosed children)

end

/-! ### Columns -/

theorem conditions_of_isVacant {r : Rule} (h : r.isVacant = true) : r.conditions = [] := by
  induction r using induction with
  | condition c => cases h
  | chain op rs ih =>
    rw [isVacant, allVacant_eq, List.all_eq_true] at h
    rw [conditions_chain, List.flatMap_eq_nil_iff]
    exact fun r hr => ih r hr (h r hr)

end Rule

/-- The condition whose column a piece is. -/
def Fragment.column? : Fragment → Option Condition
  | column c => some c
  | _ => none

/-- The conditions whose columns are among the pieces. -/
def columnsOf (fs : List (Path × Fragment)) : List Condition := fs.filterMap (·.2.column?)

@[simp] theorem columnsOf_append (fs gs : List (Path × Fragment)) :
    columnsOf (fs ++ gs) = columnsOf fs ++ columnsOf gs := List.filterMap_append

@[simp] theorem columnsOf_beneath (i : Nat) (fs : List (Path × Fragment)) :
    columnsOf (Rule.beneath i fs) = columnsOf fs := by
  simp [columnsOf, Rule.beneath, List.filterMap_map]

theorem columnsOf_enclose (group : Bool) (fs : List (Path × Fragment)) :
    columnsOf (Rule.enclose group fs) = columnsOf fs := by
  cases group with
  | false => rfl
  | true => simp [Rule.enclose, columnsOf, Fragment.column?]

namespace Rule

variable {rs : List Rule}

theorem columnsOf_writeChildren {operand : Bool}
    (ih : ∀ r ∈ rs, columnsOf (r.write operand) = r.conditions) (op : Connective) (follows : Bool)
    (i : Nat) : columnsOf (writeChildren operand op follows i rs) = rs.flatMap conditions := by
  induction rs generalizing follows i with
  | nil => rfl
  | cons r rs ihs =>
    obtain ⟨hr, ih⟩ := List.forall_mem_cons.1 ih
    rw [writeChildren, List.flatMap_cons]
    split <;> rename_i hv
    · rw [ihs ih, conditions_of_isVacant hv, List.nil_append]
    · rw [columnsOf_append, columnsOf_append, columnsOf_beneath, hr, ihs ih]
      cases follows <;> rfl

/-- The columns that are written are those of the conditions, in order. -/
theorem columnsOf_write (r : Rule) (operand : Bool) :
    columnsOf (r.write operand) = r.conditions := by
  induction r using induction generalizing operand with
  | condition c =>
    obtain ⟨column, op, value, note⟩ := c
    rw [write]
    cases value with
    | flag b => cases b <;> rfl
    | _ => rfl
  | chain op rs ih =>
    have children {operand : Bool} {op : Connective} :
        columnsOf (writeChildren operand op false 0 rs) = rs.flatMap conditions :=
      columnsOf_writeChildren (fun r hr => ih r hr operand) op false 0
    rw [conditions_chain]
    obtain ⟨group, inner, op', h⟩ := write_chain_cases operand op rs
    have H := (columnsOf_enclose group _).trans (@children inner op')
    rcases h with h | h <;> rw [h]
    · exact H
    · exact H

theorem columnsOf_fragments (r : Rule) : columnsOf r.fragments = r.conditions := by
  rw [fragments]
  split <;> rename_i hv
  · rw [conditions_of_isVacant hv]
    rfl
  · exact columnsOf_write r false

end Rule

/-! ### Legality -/

theorem Fragment.text_column (c : Condition) (path : Path) :
    ((Fragment.column c).token path).text = c.column :=
  Token.text_of_raw rfl rfl

/-- Terms that may stand behind an operand. -/
def Follows (depth : Nat) (us : List Token) : Prop := ∀ e, e ≠ .column → Legal e depth us

/-- Terms that may stand wherever an operand may begin, and behind which an operand has ended. -/
def OperandTerms (ts : List Token) : Prop :=
  ∀ depth us, Follows depth us → Legal .column depth (ts ++ us)

namespace OperandTerms

variable {ts us : List Token}

theorem negation (H : OperandTerms ts) : OperandTerms (Fragment.negation.token [] :: ts) :=
  fun depth us hu => .cons rfl (H depth us hu)

theorem grouped (H : OperandTerms ts) :
    OperandTerms (Fragment.groupOpen.token [] :: ts ++ [Fragment.groupClose.token []]) := by
  intro depth us hu
  have hclose : Follows (depth + 1) (Fragment.groupClose.token [] :: us) := by
    intro e he
    refine .cons ⟨he, Nat.succ_pos depth, rfl⟩ (hu .connective ?_)
    simp
  have H := H (depth + 1) _ hclose
  rw [List.cons_append, List.cons_append, List.append_assoc]
  exact .cons ⟨rfl, rfl⟩ H

theorem joined (H : OperandTerms ts) (H' : OperandTerms us) (op : Connective) (i : Nat) :
    OperandTerms (ts ++ (Fragment.separator op i).token [] :: us) := by
  intro depth vs hv
  rw [List.append_assoc]
  refine H depth _ fun e he => .cons ?_ (H' depth vs hv)
  have hs : op.separator.toString = "&" ∨ op.separator.toString = "|" := by
    cases op <;> decide
  simpa [Token.Fits, Fragment.token, Fragment.raw, he] using hs

theorem condition {c : Condition} (hc : trimmed c.column ≠ "") :
    OperandTerms (c.fragments.map (Fragment.token [])) := by
  have column {e : Expect} (he : e = .column) (depth : Nat) :
      ((Fragment.column c).token []).Fits e depth := by
    refine ⟨he, ?_⟩
    rwa [Fragment.text_column]
  intro depth us hu
  have operator := hu .operator (by simp)
  have connective := hu .connective (by simp)
  unfold Condition.fragments
  split
  · exact .cons (column rfl depth) operator
  · exact .cons rfl (.cons (column rfl depth) operator)
  · exact .cons (column rfl depth) (.cons ⟨rfl, c.comparison, rfl⟩ (.cons rfl connective))

end OperandTerms

namespace Rule

theorem word_token (f : Fragment) (path : Path) : (f.token path).word = (f.token []).word := by
  cases f <;> rfl

theorem map_word_terms (r : Rule) :
    r.terms.map Token.word = ((r.fragments.map Prod.snd).map (Fragment.token [])).map Token.word := by
  rw [terms, List.map_map, List.map_map, List.map_map]
  exact List.map_congr_left fun p _ => word_token p.2 p.1

theorem operandTerms_write {r : Rule} (hc : ∀ c ∈ r.conditions, trimmed c.column ≠ "")
    (hv : r.isVacant = false) (operand : Bool) :
    OperandTerms (((r.write operand).map Prod.snd).map (Fragment.token [])) := by
  refine pieces_of (P := fun fs => OperandTerms (fs.map (Fragment.token []))) ?_ ?_ ?_ r operand ?_ hv
  · intro fs gs op i H H'
    rw [List.map_append]
    exact H.joined H' op i
  · intro fs H
    exact H.negation
  · intro fs H
    rw [List.map_append]
    exact H.grouped
  · exact fun c hmem => .condition (hc c hmem)

/-- The terms of a rule are legal unless a column is blank. -/
theorem legal_terms_iff (r : Rule) :
    Legal .column 0 r.terms ↔ ∀ c ∈ r.conditions, trimmed c.column ≠ "" := by
  constructor
  · intro H c hc
    rw [← columnsOf_fragments] at hc
    obtain ⟨⟨path, f⟩, hf, hcol⟩ := List.mem_filterMap.1 hc
    obtain rfl : f = .column c := by
      cases f <;> simp [Fragment.column?] at hcol
      rw [hcol]
    rw [← Fragment.text_column c path]
    exact H.column_not_blank (List.mem_map_of_mem hf) rfl
  · intro h
    refine Legal.congr ?_ (map_word_terms r)
    rw [fragments]
    split <;> rename_i hv
    · exact .nil
    · have H := operandTerms_write h (by simpa using hv) false
      simpa using H 0 [] fun _ _ => .nil

theorem raw_token (f : Fragment) (path : Path) : (f.token path).raw = f.raw := by
  cases f <;> rfl

theorem rawOf_terms (r : Rule) : TermIndex.rawOf r.terms = r.render := by
  rw [TermIndex.rawOf, terms, List.map_map, render]
  exact congrArg String.join (List.map_congr_left fun p _ => raw_token p.2 p.1)

end Rule
end FilterQuery
