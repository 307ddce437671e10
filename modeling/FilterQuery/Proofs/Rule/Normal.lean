import FilterQuery.Proofs.Query.Spelling
import FilterQuery.Rule.Match
import Mathlib.Data.List.Basic

/-!
Normal rules, and the normal form of a rule: chains without a condition are left out, chains of one
child give way to it, and tests are turned over where they are negated. A normal rule is its own
normal form, and the normal form matches the same records.
-/

namespace FilterQuery

namespace Condition

/-- A condition as it is read: the comparison of a test says nothing and is always the same. -/
structure Normal (c : Condition) : Prop extends c.WellFormed where
  comparison_eq : ∀ b, c.value = .flag b → c.comparison = .eq

/-- The condition without its annotation and without the comparison of a test. -/
def normalForm (c : Condition) : Condition :=
  match c.value with
  | .flag b => { column := c.column, comparison := .eq, value := .flag b }
  | _ => c.bare

theorem Normal.normalForm_eq {c : Condition} (H : c.Normal) : c.normalForm = c.bare := by
  have h := H.comparison_eq
  obtain ⟨column, op, value, note⟩ := c
  cases value with
  | flag b => simp only [normalForm, bare, show op = .eq from h b rfl]
  | _ => rfl

@[simp] theorem accepts_normalForm (c : Condition) (record : Record) :
    c.normalForm.accepts record = c.accepts record := by
  obtain ⟨column, op, value, note⟩ := c
  cases value <;> rfl

end Condition

namespace Rule

/-- Induction over a rule: what holds of all children holds of the chain. -/
theorem induction {motive : Rule → Prop} (condition : ∀ c, motive (condition c))
    (chain : ∀ op rs, (∀ r ∈ rs, motive r) → motive (chain op rs)) (r : Rule) : motive r :=
  @Rule.rec motive (fun rs => ∀ r ∈ rs, motive r) condition chain (fun _ h => nomatch h)
    (fun _ _ hr hrs _ hs => (List.mem_cons.1 hs).elim (fun h => h ▸ hr) (hrs _)) r

/-- The bare test of a column. -/
def isTest : Rule → Bool
  | condition { value := .flag _, .. } => true
  | _ => false

/-- Rules as they are read: no chain could be replaced by its only child, and nothing is negated
that could be turned over instead. -/
inductive Normal : Rule → Prop where
  | condition {c : Condition} : c.Normal → Normal (condition c)
  | chain {op : Connective} {rs : List Rule} : op ≠ .none → 2 ≤ rs.length →
    (∀ r ∈ rs, Normal r) → Normal (chain op rs)
  | none {r : Rule} : Normal r → r.isTest = false → Normal (chain .none [r])

/-! ### Joining and negating -/

@[simp] theorem join?_eq_none {op : Connective} {rs : List Rule} :
    join? op rs = Option.none ↔ rs = [] := by
  match rs with
  | [] => simp [join?]
  | [r] => simp [join?]
  | r :: s :: rs => simp [join?]

theorem join?_of_two_le {op : Connective} {rs : List Rule} (h : 2 ≤ rs.length) :
    join? op rs = some (chain op rs) := by
  match rs, h with
  | r :: s :: rs, _ => rfl

theorem negate_of_not_isTest {r : Rule} (h : r.isTest = false) : r.negate = chain .none [r] := by
  cases r with
  | chain op rs => rfl
  | condition c =>
    obtain ⟨column, op, value, note⟩ := c
    cases value with
    | flag b => cases h
    | _ => rfl

theorem negate_of_isTest {r : Rule} (h : r.isTest = true) : ∃ c, r.negate = condition c := by
  cases r with
  | chain op rs => cases h
  | condition c =>
    obtain ⟨column, op, value, note⟩ := c
    cases value with
    | flag b => exact ⟨_, rfl⟩
    | _ => cases h

@[simp] theorem isTest_bare (r : Rule) : r.bare.isTest = r.isTest := by
  cases r with
  | chain op rs => simp [isTest]
  | condition c =>
    obtain ⟨column, op, value, note⟩ := c
    cases value <;> rfl

/-! ### The normal form -/

mutual

/-- What the canonical text of the rule is read as; nothing if it has no condition. -/
def normalForm? : Rule → Option Rule
  | condition c => some (condition c.normalForm)
  | chain .none children => (join? .any (normalForms children)).map negate
  | chain op children => join? op (normalForms children)

def normalForms : List Rule → List Rule
  | [] => []
  | r :: rs => r.normalForm?.toList ++ normalForms rs

end

theorem normalForms_eq (rs : List Rule) : normalForms rs = rs.filterMap normalForm? := by
  induction rs with
  | nil => rfl
  | cons r rs ih => cases h : r.normalForm? <;> simp [normalForms, ih, h]

@[simp] theorem normalForm?_condition (c : Condition) :
    (condition c).normalForm? = some (condition c.normalForm) := rfl

@[simp] theorem normalForm?_none (rs : List Rule) :
    (chain .none rs).normalForm? = (join? .any (rs.filterMap normalForm?)).map negate := by
  rw [normalForm?, normalForms_eq]

theorem normalForm?_chain {op : Connective} (h : op ≠ .none) (rs : List Rule) :
    (chain op rs).normalForm? = join? op (rs.filterMap normalForm?) := by
  cases op <;> first | exact absurd rfl h | rw [normalForm?, normalForms_eq]; intro h; cases h

/-- A rule is left out exactly if it is not written. -/
theorem normalForm?_eq_none (r : Rule) : r.normalForm? = Option.none ↔ r.isVacant = true := by
  induction r using induction with
  | condition c => simp [isVacant]
  | chain op rs ih =>
    have H : rs.filterMap normalForm? = [] ↔ rs.all isVacant = true := by
      simp only [List.filterMap_eq_nil_iff, List.all_eq_true]
      exact forall₂_congr ih
    cases op <;> simp [normalForm?, normalForms_eq, isVacant, allVacant_eq, H]

/-- Normal rules stay as they are. -/
theorem Normal.normalForm?_eq {r : Rule} (H : r.Normal) : r.normalForm? = some r.bare := by
  induction H with
  | condition h => simp [h.normalForm_eq]
  | @chain op rs hop hl _ ih =>
    have hrs : rs.filterMap normalForm? = rs.map bare := by
      rw [List.filterMap_congr fun r hr => ih r hr, ← List.filterMap_eq_map]
      rfl
    rw [normalForm?_chain hop, hrs, join?_of_two_le (by simpa using hl), bare_chain]
  | @none r _ ht ih =>
    have hn : r.bare.negate = .chain .none [r.bare] := negate_of_not_isTest (by simpa using ht)
    simp [ih, join?, hn]

theorem Normal.isVacant_eq_false {r : Rule} (H : r.Normal) : r.isVacant = false := by
  have h := mt (normalForm?_eq_none r).2
  simpa [H.normalForm?_eq] using h

end Rule
end FilterQuery
