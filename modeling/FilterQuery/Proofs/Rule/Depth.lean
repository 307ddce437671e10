import FilterQuery.Proofs.Query.Derivation
import FilterQuery.Proofs.Rule.RoundTrip

/-!
How deep the canonical text nests. That depth is a function of the rule alone, and the canonical
text of a query is read again exactly if it keeps within the limit. The canonical text may nest
deeper than the query, by a pair of parentheses for every `!` and every group, and one for a query
of several alternatives.
-/

namespace FilterQuery

namespace Opening

/-- The lexemes of an operand: `k` more are open along them than before, and behind them no negation
is left in front of it. -/
def Spans (ls : List Lexeme) (k : Nat) : Prop :=
  ∀ os, peak os ls = os.length + k ∧ ls.foldl behind os = settle os

/-- The lexemes of the content of a group, or of a part of it. -/
def SpansIn (ls : List Lexeme) (k : Nat) : Prop :=
  ∀ os, settle os = os → peak os ls = os.length + k ∧ ls.foldl behind os = os

variable {ls ms : List Lexeme} {k m : Nat}

theorem spans_unit (c : Option Condition) : Spans [.unit c] 0 := by
  intro os
  have := settle_length_le os
  refine ⟨?_, rfl⟩
  simp only [peak, behind]
  omega

theorem spansIn_nil : SpansIn [] 0 := fun _ _ => ⟨rfl, rfl⟩

theorem spansIn_separator (op : Connective) : SpansIn [Rule.separator op] 0 := by
  intro os hs
  rw [Rule.separator]
  split <;> simp [peak, behind, hs]

theorem Spans.negation (H : Spans ls k) : Spans (.negation :: ls) (k + 1) := by
  intro os
  obtain ⟨hp, hb⟩ := H (.negation :: os)
  refine ⟨?_, by rw [List.foldl_cons, behind, hb, settle_negation]⟩
  rw [peak, behind, hp, List.length_cons]
  omega

theorem Spans.spansIn (H : Spans ls k) : SpansIn ls k :=
  fun os hs => ⟨(H os).1, (H os).2.trans hs⟩

theorem SpansIn.append (H : SpansIn ls k) (H' : SpansIn ms m) :
    SpansIn (ls ++ ms) (max k m) := by
  intro os hs
  obtain ⟨hp, hb⟩ := H os hs
  obtain ⟨hp', hb'⟩ := H' os hs
  refine ⟨?_, by rw [List.foldl_append, hb, hb']⟩
  rw [peak_append, hp, hb, hp', Nat.add_max_add_left]

theorem SpansIn.grouped (H : SpansIn ls k) : Spans (Rule.grouped ls) (k + 1) := by
  intro os
  obtain ⟨hp, hb⟩ := H (.group :: os) (settle_group os)
  have hc : behind (.group :: os) .groupClose = settle os := by simp [behind]
  constructor
  · have := settle_length_le os
    rw [Rule.grouped, List.cons_append, peak, behind, peak_append, hp, hb, peak, hc, peak,
      List.length_cons]
    omega
  · rw [Rule.grouped, List.cons_append, List.foldl_cons, behind, List.foldl_append, hb,
      List.foldl_cons, hc, List.foldl_nil]

end Opening

namespace Rule

open Opening

/-! ### The depth of a rule -/

mutual

/-- How many `!` and grouping parentheses are open at once in the text of the rule at the most. -/
def levels (operand : Bool) : Rule → Nat
  | condition c => if c.value = .flag false then 1 else 0
  | chain .none children => (if needsGroup children then 2 else 1) + levelsOf true children
  | chain _ children =>
    let several : Bool := 2 ≤ visible children
    (if operand && several then 1 else 0) + levelsOf (operand || several) children

def levelsOf (operand : Bool) : List Rule → Nat
  | [] => 0
  | r :: rs => max (if r.isVacant then 0 else r.levels operand) (levelsOf operand rs)

end

variable {op : Connective} {r : Rule} {rs : List Rule}

theorem levels_chain (operand : Bool) (h : op ≠ .none) (rs : List Rule) :
    (chain op rs).levels operand =
      (if operand && decide (2 ≤ visible rs) then 1 else 0) +
        levelsOf (operand || decide (2 ≤ visible rs)) rs := by
  cases op <;> first | exact absurd rfl h | rw [levels]; intro h; cases h

theorem levelsOf_eq (operand : Bool) (rs : List Rule) :
    levelsOf operand rs = ((written rs).map (levels operand)).foldr max 0 := by
  induction rs with
  | nil => rfl
  | cons r rs ih =>
    rw [levelsOf, ih]
    cases hv : r.isVacant with
    | true => simp [written_cons_of_vacant hv]
    | false => simp [written_cons hv]

theorem levelsOf_le_iff {operand : Bool} {k : Nat} :
    levelsOf operand rs ≤ k ↔ ∀ r ∈ written rs, r.levels operand ≤ k := by
  rw [levelsOf_eq]
  induction written rs with
  | nil => simp
  | cons r rs ih => rw [List.map_cons, List.foldr_cons, Nat.max_le, ih, List.forall_mem_cons]

theorem levelsOf_le {operand : Bool} {k : Nat} (h : ∀ r ∈ rs, r.levels operand ≤ k) :
    levelsOf operand rs ≤ k :=
  levelsOf_le_iff.2 fun r hr => h r (mem_written.1 hr).1

/-! ### The depth of the text -/

section
variable (op : Connective) {ws : List Rule}
  (H : ∀ w ∈ ws, Spans (w.spelling true) (w.levels true))
include H

/-- Each behind a separator. -/
theorem spansIn_flatMap : SpansIn ((ws.map (spelling true)).flatMap (separator op :: ·))
    ((ws.map (levels true)).foldr max 0) := by
  induction ws with
  | nil => exact spansIn_nil
  | cons w ws ih =>
    have hw := (spansIn_separator op).append (H w List.mem_cons_self).spansIn
    rw [Nat.zero_max] at hw
    exact hw.append (ih fun w hw => H w (List.mem_cons_of_mem _ hw))

theorem spansIn_separated : SpansIn (separated (separator op) (ws.map (spelling true)))
    ((ws.map (levels true)).foldr max 0) := by
  cases ws with
  | nil => exact spansIn_nil
  | cons w ws =>
    have hws := spansIn_flatMap op fun w hw => H w (List.mem_cons_of_mem _ hw)
    exact (H w List.mem_cons_self).spansIn.append hws

end

theorem spans_lexemes (c : Condition) (operand : Bool) :
    Spans c.lexemes ((condition c).levels operand) := by
  rw [Condition.lexemes, levels]
  split
  · exact (spans_unit _).negation
  · exact spans_unit _

section
variable (ih : ∀ w ∈ rs, w.isVacant = false →
    Spans (w.spelling true) (w.levels true) ∧ SpansIn (w.spelling false) (w.levels false))
include ih

theorem spansIn_children (op : Connective) :
    SpansIn (separated (separator op) ((written rs).map (spelling true))) (levelsOf true rs) := by
  rw [levelsOf_eq]
  refine spansIn_separated op fun w hw => ?_
  obtain ⟨hw, hv⟩ := mem_written.1 hw
  exact (ih w hw hv).1

theorem spans_of_written {w : Rule} (h : written rs = [w]) :
    Spans (w.spelling true) (w.levels true) ∧ SpansIn (w.spelling false) (w.levels false) := by
  obtain ⟨hw, hv⟩ := mem_written.1 (h ▸ List.mem_cons_self : w ∈ written rs)
  exact ih w hw hv

theorem spans_none (hne : written rs ≠ []) (operand : Bool) :
    Spans ((chain .none rs).spelling operand) ((chain .none rs).levels operand) := by
  rw [spelling_none, levels]
  split <;> rename_i hg
  · have H := (spansIn_children ih .any).grouped.negation
    rwa [Nat.add_assoc, Nat.add_comm] at H
  · rcases written_cases hne with ⟨w, hw, -⟩ | hv
    · obtain ⟨H, -⟩ := spans_of_written ih hw
      rw [levelsOf_eq, hw]
      simpa [separated, Nat.add_comm] using H.negation
    · simp [needsGroup, hv] at hg

theorem spans_chain (hop : op ≠ .none) (hne : written rs ≠ []) :
    Spans ((chain op rs).spelling true) ((chain op rs).levels true) ∧
      SpansIn ((chain op rs).spelling false) ((chain op rs).levels false) := by
  rw [spelling_chain true hop, spelling_chain false hop, levels_chain true hop,
    levels_chain false hop]
  rcases written_cases hne with ⟨w, hw, hv⟩ | hv
  · rw [levelsOf_eq, levelsOf_eq, hw]
    simpa [hv, separated] using spans_of_written ih hw
  · have body := spansIn_children ih op
    simpa [hv, Nat.add_comm] using And.intro body.grouped body

end

theorem spans_spelling (hv : r.isVacant = false) :
    Spans (r.spelling true) (r.levels true) ∧ SpansIn (r.spelling false) (r.levels false) := by
  induction r using induction with
  | condition c =>
    rw [spelling_condition, spelling_condition]
    exact ⟨spans_lexemes c true, (spans_lexemes c false).spansIn⟩
  | chain op rs ih =>
    have hne : written rs ≠ [] := by
      simpa [isVacant, allVacant_eq, written] using hv
    by_cases hop : op = .none
    · subst hop
      exact ⟨spans_none ih hne true, (spans_none ih hne false).spansIn⟩
    · exact spans_chain ih hop hne

/-- The depth of the canonical text. -/
theorem maxOpen_render_eq_levels (hc : ∀ c ∈ r.conditions, c.WellFormed) (hv : r.isVacant = false) :
    maxOpen r.render = r.levels false := by
  rw [maxOpen_render hc, canonical, if_neg (by simp [hv])]
  simpa using ((spans_spelling hv).2 [] rfl).1

/-! ### Against the depth of the query -/

theorem levels_false_le_true (r : Rule) : r.levels false ≤ r.levels true := by
  induction r using induction with
  | condition c => exact Nat.le_refl _
  | chain op rs ih =>
    have H : levelsOf false rs ≤ levelsOf true rs := by
      refine levelsOf_le_iff.2 fun r hr => ?_
      exact Nat.le_trans (ih r (mem_written.1 hr).1) (levelsOf_le_iff.1 (Nat.le_refl _) r hr)
    by_cases hop : op = .none
    · subst hop
      exact Nat.le_refl _
    · rw [levels_chain false hop, levels_chain true hop]
      cases decide (2 ≤ visible rs) with
      | true => exact Nat.add_le_add_right (Nat.zero_le 1) _
      | false => exact Nat.add_le_add_left H 0

theorem levels_condition_le (c : Condition) (operand : Bool) : (condition c).levels operand ≤ 1 := by
  rw [levels]
  split <;> omega

theorem levels_negate_le (r : Rule) : r.negate.levels true ≤ r.levels true + 2 := by
  cases ht : r.isTest with
  | false =>
    have H : levelsOf true [r] ≤ r.levels true := levelsOf_le (by simp)
    rw [negate_of_not_isTest ht, levels]
    split <;> omega
  | true =>
    obtain ⟨c, hc⟩ := negate_of_isTest ht
    have := levels_condition_le c true
    rw [hc]
    omega

/-- Only operands that stand beside others are put into parentheses. -/
theorem levels_of_join? {op : Connective} (hop : op ≠ .none) {k : Nat}
    (h : join? op rs = some r) (H : ∀ s ∈ rs, s.levels true ≤ k) :
    r.levels false ≤ k ∧ r.levels true ≤ k + 1 := by
  match rs with
  | [s] =>
    obtain rfl := Option.some.inj h
    have hs := H s List.mem_cons_self
    exact ⟨Nat.le_trans s.levels_false_le_true hs, Nat.le_succ_of_le hs⟩
  | s :: t :: rs =>
    obtain rfl := Option.some.inj h
    have hk := levelsOf_le H
    have hk' : levelsOf (decide (2 ≤ visible (s :: t :: rs))) (s :: t :: rs) ≤ k := by
      cases decide (2 ≤ visible (s :: t :: rs)) with
      | true => exact hk
      | false => exact levelsOf_le fun u hu => Nat.le_trans u.levels_false_le_true (H u hu)
    rw [levels_chain false hop, levels_chain true hop, Bool.false_and, Bool.true_and, Bool.false_or,
      Bool.true_or]
    refine ⟨?_, ?_⟩
    · rw [if_neg Bool.false_ne_true]
      omega
    · split <;> omega

end Rule

/-- How many parentheses more than the query the canonical text may put around a part of it, where
each `!` and each group of the query makes up for two. -/
def Part.slack : Part → Nat
  | .operand => 0
  | .alternative => 1
  | .content => 2

namespace Derives

variable {limit n : Nat} {part : Part} {r : Rule}

theorem levels_le (H : Derives limit part n r) (hn : n ≤ limit) :
    r.levels true + 2 * n ≤ 2 * limit + part.slack := by
  -- A `!` is written with a pair of parentheses at most, and the two that a group may need, one
  -- around its alternatives and one around it, stand for the pair that it had.
  induction H with
  | unit hc =>
    rw [Rule.levels, if_neg hc.value_ne_false]
    omega
  | @negate n r hl _ ih =>
    have h := r.levels_negate_le
    have ih := ih hl
    omega
  | group hl _ ih =>
    have ih := ih hl
    simp only [Part.slack] at ih ⊢
    omega
  | @alternative n rs r _ hr ih =>
    have H : ∀ s ∈ rs, s.levels true ≤ 2 * limit - 2 * n := fun s hs => by
      have ih := ih s hs hn
      simp only [Part.slack] at ih
      omega
    have h := (Rule.levels_of_join? (by decide) hr H).2
    simp only [Part.slack]
    omega
  | @content n rs r _ hr ih =>
    have H : ∀ s ∈ rs, s.levels true ≤ 2 * limit + 1 - 2 * n := fun s hs => by
      have ih := ih s hs hn
      simp only [Part.slack] at ih
      omega
    have h := (Rule.levels_of_join? (by decide) hr H).2
    simp only [Part.slack]
    omega

/-- The whole is not put into parentheses. -/
theorem levels_false_le (H : Derives limit .content 0 r) : r.levels false ≤ 2 * limit + 1 := by
  cases H with
  | content hrs hr =>
    exact (Rule.levels_of_join? (by decide) hr fun s hs => (hrs s hs).levels_le (Nat.zero_le _)).1

end Derives

namespace Rule

variable {query : String} {r : Rule}

theorem wellFormed_of_parse (h : parse query = .ok r) : ∀ c ∈ r.conditions, c.WellFormed := by
  rcases derives_of_parse h with rfl | H
  · exact List.forall_mem_nil _
  · exact H.normal.wellFormed

/-- **Reading the canonical text of a query again.** It nests as deep as the rule has levels, which
are at most one more than twice the depth of the query. Within the limit it is read as the same
rule; beyond it, it is refused. -/
theorem parse_render_of_parse (h : parse query = .ok r) :
    maxOpen r.render = r.levels false ∧ r.levels false ≤ 2 * maxOpen query + 1 ∧
      (r.levels false ≤ maxNesting → ∃ r', parse r.render = .ok r' ∧ r'.Same r) ∧
      (maxNesting < r.levels false → ∃ e, parse r.render = .error e ∧ e.reason = .nestingTooDeep) := by
  have hc := wellFormed_of_parse h
  obtain ⟨hm, hl, hb⟩ : maxOpen r.render = r.levels false ∧
      r.levels false ≤ 2 * maxOpen query + 1 ∧ r.normalForm?.getD empty = r.bare := by
    rcases derives_of_parse h with rfl | H
    · exact ⟨maxOpen_render hc, Nat.zero_le _, rfl⟩
    · refine ⟨maxOpen_render_eq_levels hc (H.normal.isVacant_eq_false), H.levels_false_le, ?_⟩
      rw [H.normal.normalForm?_eq]
      rfl
  refine ⟨hm, hl, fun h => ?_, fun h => parse_render_error hc (hm ▸ h)⟩
  obtain ⟨r', hp, hr⟩ := parse_render hc (hm ▸ h)
  exact ⟨r', hp, hr.trans hb⟩

theorem parse_render_of_alternatives :
    ∃ r, parse "(a&b|c)&d|e" = .ok r ∧ ∃ r', parse r.render = .ok r' ∧ r'.Same r := by
  have ho : (parse "(a&b|c)&d|e").toOption.isSome = true := by decide +kernel
  have hm : maxOpen "(a&b|c)&d|e" = 1 := by decide +kernel
  obtain ⟨r, hr⟩ := Option.isSome_iff_exists.1 ho
  have h := parse_eq_ok_of_toOption hr
  obtain ⟨-, hl, H, -⟩ := parse_render_of_parse h
  rw [hm] at hl
  exact ⟨r, h, H (Nat.le_trans hl (by decide))⟩

/-- Of 33 negations, all but the last one get parentheses: `!(!( … !(!a=1) … ))`. -/
theorem parse_render_of_negations :
    ∃ r e, parse "!!!!!!!!!!!!!!!!!!!!!!!!!!!!!!!!!a=1" = .ok r ∧
      maxOpen r.render = maxNesting + 1 ∧
      parse r.render = .error e ∧ e.reason = .nestingTooDeep := by
  have h : (parse "!!!!!!!!!!!!!!!!!!!!!!!!!!!!!!!!!a=1").toOption.map (fun r => maxOpen r.render) =
      some (maxNesting + 1) := by decide +kernel
  obtain ⟨r, hr, hm⟩ := Option.map_eq_some_iff.1 h
  have hp := parse_eq_ok_of_toOption hr
  obtain ⟨e, he⟩ := parse_render_error (wellFormed_of_parse hp) (hm ▸ Nat.lt_succ_self maxNesting)
  exact ⟨r, e, hp, hm, he⟩

end Rule
end FilterQuery
