import FilterQuery.Proofs.Rule.Spelling
import Mathlib.Data.List.Forall2

/-!
Reading the canonical text of a rule. Wherever an operand may begin, the lexemes of a rule are read
as its normal form; so the canonical text is read as the normal form of the whole.
-/

namespace FilterQuery

open Parse

namespace Parse

theorem repeat_negate (n : Nat) (r : Rule) :
    Nat.repeat Rule.negate n r.negate = Nat.repeat Rule.negate (n + 1) r := by
  induction n with
  | zero => rfl
  | succ n ih => rw [Nat.repeat, ih]; rfl

namespace Group

/-- One more negation in front of an operand. -/
theorem add_negation (g : Group) (r : Option Rule) :
    ({ g with negations := g.negations + 1 } : Group).add r = g.add (r.map Rule.negate) := by
  cases r with
  | none => rfl
  | some r => simp only [add, Option.map_some, repeat_negate]

/-- The operands read so far in a group, when all of them are joined alike. -/
def Collects (op : Connective) (g : Group) (rs : List Rule) : Prop :=
  g.negations = 0 ∧
    match op with
    | .all => g.terms = [] ∧ g.operands = rs
    | _ => g.next.terms = rs

theorem Collects.result {op : Connective} (hop : op ≠ .none) {g : Group} {rs : List Rule}
    (H : g.Collects op rs) : g.result = Rule.join? op rs := by
  obtain ⟨-, H⟩ := H
  cases op with
  | none => exact absurd rfl hop
  | any => rw [Group.result, H]
  | all =>
    obtain ⟨ht, rfl⟩ := H
    rw [Group.result, next, ht]
    cases Rule.join? .all g.operands <;> rfl

end Group

namespace State

theorem operand_negation (s : State) (r : Option Rule) :
    (s.advance .negation).operand r = s.operand (r.map Rule.negate) := by
  simp [advance, operand, Group.add_negation]

/-- What can be read behind any state in which an operand may begin, as one operand. -/
def ReadsAs (ls : List Lexeme) (r : Option Rule) : Prop :=
  ∀ s : State, s.filled = false → Reads s ls (s.operand r)

/-- What can be read as the content of a group, and what the group stands for. -/
def ReadsIn (ls : List Lexeme) (r : Option Rule) : Prop :=
  ∀ outer, ∃ g : Group, g.negations = 0 ∧ g.result = r ∧ Reads ⟨{}, outer, false⟩ ls ⟨g, outer, true⟩

theorem ReadsAs.negation {ls : List Lexeme} {r : Option Rule} (H : ReadsAs ls r) :
    ReadsAs (.negation :: ls) (r.map Rule.negate) := by
  intro s hs
  rw [← operand_negation]
  exact .cons (fun _ => hs) (H _ hs)

theorem ReadsAs.readsIn {ls : List Lexeme} {r : Option Rule} (H : ReadsAs ls r) :
    ReadsIn ls r := by
  intro outer
  refine ⟨_, rfl, ?_, H ⟨{}, outer, false⟩ rfl⟩
  cases r <;> rfl

theorem ReadsIn.grouped {ls : List Lexeme} {r : Option Rule} (H : ReadsIn ls r) :
    ReadsAs (Rule.grouped ls) r := by
  intro s hs
  obtain ⟨g, -, hr, H⟩ := H (s.group :: s.outer)
  refine .cons (fun _ => hs) (H.append ?_)
  have hc : s.operand r = State.advance ⟨g, s.group :: s.outer, true⟩ .groupClose := by
    rw [advance, settle_of_filled rfl, close, hr]
    rfl
  rw [hc]
  exact .mark rfl .nil

/-- Behind one operand, the separator and another one. -/
theorem ReadsAs.separated {ls : List Lexeme} {op : Connective} (hop : op ≠ .none) {r : Rule}
    (H : ReadsAs ls (some r)) {g : Group} {rs : List Rule} (hg : g.Collects op rs)
    (outer : List Group) : ∃ g' : Group, g'.Collects op (rs ++ [r]) ∧
      Reads ⟨g, outer, true⟩ (Rule.separator op :: ls) ⟨g', outer, true⟩ := by
  obtain ⟨hn, hg⟩ := hg
  cases op with
  | none => exact absurd rfl hop
  | all =>
    obtain ⟨ht, rfl⟩ := hg
    refine ⟨g.add (some r), ⟨rfl, ht, ?_⟩, .mark rfl (H ⟨g, outer, false⟩ rfl)⟩
    simp [Group.add, hn, Nat.repeat]
  | any =>
    refine ⟨g.next.add (some r), ⟨rfl, ?_⟩, .mark rfl (H ⟨g.next, outer, false⟩ rfl)⟩
    have hn' : g.next.negations = 0 := hn
    change (g.next.add (some r)).next.terms = rs ++ [r]
    rw [← show g.next.terms = rs from hg, Group.next, Group.add, hn']
    rfl

end State
end Parse

namespace Rule

/-- Lexemes that read as operands, each as a rule. -/
abbrev ReadsAll (lss : List (List Lexeme)) (ns : List Rule) : Prop :=
  List.Forall₂ (fun ls n => State.ReadsAs ls (some n)) lss ns

section
variable {op : Connective} {lss : List (List Lexeme)} {ns : List Rule}

/-- Operands that are joined alike are read one after another. -/
theorem ReadsAll.reads (H : ReadsAll lss ns) (hop : op ≠ .none) {g : Group} {rs : List Rule}
    (hg : g.Collects op rs) (outer : List Group) :
    ∃ g' : Group, g'.Collects op (rs ++ ns) ∧
      State.Reads ⟨g, outer, true⟩ (lss.flatMap (separator op :: ·)) ⟨g', outer, true⟩ := by
  induction H generalizing g rs with
  | nil => exact ⟨g, by simpa using hg, .nil⟩
  | cons hl _ ih =>
    obtain ⟨g₁, hg₁, H₁⟩ := hl.separated hop hg outer
    obtain ⟨g₂, hg₂, H₂⟩ := ih hg₁
    exact ⟨g₂, by simpa using hg₂, H₁.append H₂⟩

theorem ReadsAll.readsIn (H : ReadsAll lss ns) (hop : op ≠ .none) (hne : ns ≠ []) :
    State.ReadsIn (separated (separator op) lss) (join? op ns) := by
  intro outer
  cases H with
  | nil => exact absurd rfl hne
  | @cons ls n lss ns hl H =>
    have hg : (({} : Group).add (some n)).Collects op [n] := by
      refine ⟨rfl, ?_⟩
      cases op <;> simp [Group.add, Group.next, Nat.repeat, join?]
    obtain ⟨g, hg, H'⟩ := ReadsAll.reads H hop hg outer
    exact ⟨g, hg.1, hg.result hop, (hl ⟨{}, outer, false⟩ rfl).append H'⟩

end

theorem exists_normalForm? {r : Rule} (h : r.isVacant = false) : ∃ n, r.normalForm? = some n :=
  Option.ne_none_iff_exists'.1 fun hn => by simp [(normalForm?_eq_none r).1 hn] at h

theorem filterMap_written (rs : List Rule) :
    (written rs).filterMap normalForm? = rs.filterMap normalForm? := by
  induction rs with
  | nil => rfl
  | cons r rs ih =>
    cases hv : r.isVacant with
    | true => rw [written_cons_of_vacant hv, ih, List.filterMap_cons, (normalForm?_eq_none r).2 hv]
    | false => rw [written_cons hv, List.filterMap_cons, ih, ← List.filterMap_cons]

theorem written_ne_nil {rs : List Rule} (h : rs.filterMap normalForm? ≠ []) : written rs ≠ [] :=
  fun he => h (by rw [← filterMap_written, he]; rfl)

theorem readsAs_lexemes (c : Condition) :
    State.ReadsAs c.lexemes (some (condition c.normalForm)) := by
  have unit : State.ReadsAs [.unit (some c.positive)] (some (condition c.positive)) :=
    fun s hs => .single fun _ => hs
  obtain ⟨column, op, value, note⟩ := c
  cases value with
  | flag b =>
    cases b with
    | false => exact unit.negation
    | true => exact unit
  | _ => exact unit

section
variable {rs : List Rule}
  (ih : ∀ w ∈ rs, ∀ n, w.normalForm? = some n →
    State.ReadsAs (w.spelling true) (some n) ∧ State.ReadsIn (w.spelling false) (some n))
include ih

theorem readsAs_of_mem_written {w : Rule} (h : w ∈ written rs) : ∃ n, w.normalForm? = some n ∧
    State.ReadsAs (w.spelling true) (some n) ∧ State.ReadsIn (w.spelling false) (some n) := by
  obtain ⟨hw, hv⟩ := mem_written.1 h
  obtain ⟨n, hn⟩ := exists_normalForm? hv
  exact ⟨n, hn, ih w hw n hn⟩

/-- The children that are written read as their normal forms. -/
theorem readsAll_written :
    ReadsAll ((written rs).map (spelling true)) (rs.filterMap normalForm?) := by
  have children (ws : List Rule) (H : ∀ w ∈ ws, ∃ n, w.normalForm? = some n ∧
      State.ReadsAs (w.spelling true) (some n)) :
      ReadsAll (ws.map (spelling true)) (ws.filterMap normalForm?) := by
    induction ws with
    | nil => exact .nil
    | cons w ws ih =>
      obtain ⟨⟨n, hn, hw⟩, H⟩ := List.forall_mem_cons.1 H
      rw [List.map_cons, List.filterMap_cons, hn]
      exact .cons hw (ih H)
  rw [← filterMap_written]
  refine children _ fun w hw => ?_
  obtain ⟨n, hn, h, -⟩ := readsAs_of_mem_written ih hw
  exact ⟨n, hn, h⟩

/-- The operand of a `!` is its only child or stands in parentheses; either reads as one operand. -/
theorem readsAs_none {n : Rule} (hn : (chain .none rs).normalForm? = some n) (operand : Bool) :
    State.ReadsAs ((chain .none rs).spelling operand) (some n) := by
  rw [normalForm?_none] at hn
  obtain ⟨m, hm, rfl⟩ := Option.map_eq_some_iff.1 hn
  have hne : rs.filterMap normalForm? ≠ [] := fun he => by rw [he] at hm; cases hm
  rw [spelling_none]
  split <;> rename_i hg
  · have body := (readsAll_written ih).readsIn (by decide : Connective.any ≠ .none) hne
    rw [hm] at body
    exact body.grouped.negation
  · rcases written_cases (written_ne_nil hne) with ⟨w, hw, -⟩ | hv
    -- An only child is not joined with anything, so the `!` stands in front of it.
    · obtain ⟨n, hn, h, -⟩ := readsAs_of_mem_written ih (hw ▸ List.mem_cons_self)
      rw [← filterMap_written, hw, List.filterMap_cons, hn] at hm
      obtain rfl : n = m := Option.some.inj hm
      simpa [hw, separated] using h.negation
    · simp [needsGroup, hv] at hg

theorem reads_chain {op : Connective} (hop : op ≠ .none) {n : Rule}
    (hn : (chain op rs).normalForm? = some n) :
    State.ReadsAs ((chain op rs).spelling true) (some n) ∧
      State.ReadsIn ((chain op rs).spelling false) (some n) := by
  rw [normalForm?_chain hop] at hn
  have hne : rs.filterMap normalForm? ≠ [] := fun he => by rw [he] at hn; cases hn
  rw [spelling_chain true hop, spelling_chain false hop]
  rcases written_cases (written_ne_nil hne) with ⟨w, hw, hv⟩ | hv
  · obtain ⟨m, hm, h, h'⟩ := readsAs_of_mem_written ih (hw ▸ List.mem_cons_self)
    rw [← filterMap_written, hw, List.filterMap_cons, hm] at hn
    obtain rfl : m = n := Option.some.inj hn
    simpa [hw, hv, separated] using ⟨h, h'⟩
  · have body := (readsAll_written ih).readsIn hop hne
    rw [hn] at body
    simpa [hv] using ⟨body.grouped, body⟩

end

/-- **A rule reads as its normal form**, as an operand and as the content of a group. -/
theorem reads_spelling {r n : Rule} (hn : r.normalForm? = some n) :
    State.ReadsAs (r.spelling true) (some n) ∧ State.ReadsIn (r.spelling false) (some n) := by
  induction r using induction generalizing n with
  | condition c =>
    obtain rfl := Option.some.inj hn
    rw [spelling_condition, spelling_condition]
    exact ⟨readsAs_lexemes c, (readsAs_lexemes c).readsIn⟩
  | chain op rs ih =>
    have ih : ∀ w ∈ rs, ∀ n, w.normalForm? = some n →
        State.ReadsAs (w.spelling true) (some n) ∧ State.ReadsIn (w.spelling false) (some n) :=
      fun w hw _ => ih w hw
    by_cases hop : op = .none
    · subst hop
      exact ⟨readsAs_none ih hn true, (readsAs_none ih hn false).readsIn⟩
    · exact reads_chain ih hop hn

/-- The lexemes of the canonical text fit, and lead to the normal form. -/
theorem reads_canonical (r : Rule) :
    ∃ t, State.Reads {} r.canonical t ∧ t.finish = r.normalForm? := by
  cases hv : r.isVacant with
  | true =>
    rw [(normalForm?_eq_none r).2 hv, canonical, if_pos hv]
    exact ⟨{}, .nil, rfl⟩
  | false =>
    obtain ⟨n, hn⟩ := exists_normalForm? hv
    obtain ⟨g, -, hr, H⟩ := (reads_spelling hn).2 []
    rw [canonical, if_neg (by simp [hv]), hn]
    exact ⟨_, H, by rw [State.finish, State.settle_of_filled rfl]; exact hr⟩

end Rule
end FilterQuery
