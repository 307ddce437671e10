import FilterQuery.Proofs.Query.Reading
import FilterQuery.Proofs.Rule.Normal

/-!
The rules that queries stand for, as derivations: an operand is a unit, a negated operand or a
group, operands are joined to an alternative, and alternatives to the content of a group or a query.
Whatever is mended on the way, what has been read of a query is always derived in this way, no
deeper than the query opens groups and negations.
-/

namespace FilterQuery

/-! ### Units -/

/-- A condition as a unit gives it: a test is a positive one. -/
structure Condition.Unit (c : Condition) : Prop extends c.WellFormed where
  positive_eq : c.positive = c.bare

theorem Condition.Unit.normal {c : Condition} (H : c.Unit) : c.Normal where
  toWellFormed := H.toWellFormed
  comparison_eq b hb := by
    have h := H.positive_eq
    rw [positive, hb] at h
    exact (congrArg Condition.comparison h).symm

theorem Condition.Unit.value_ne_false {c : Condition} (H : c.Unit) : c.value ≠ .flag false := by
  intro hv
  have h := H.positive_eq
  rw [positive, hv] at h
  have h : Value.flag true = c.value := congrArg Condition.value h
  rw [hv] at h
  cases h

namespace Scanner

variable {s t : Scanner}

theorem decoded_ne {r : Run} (h : r.isEmpty = false) : r.decoded ≠ "" := by
  intro hd
  rw [Run.decoded, String.ofList_eq_empty_iff, Text.Percent.decodeChars_eq_nil] at hd
  rw [Run.isEmpty, hd] at h
  cases h

theorem readItems_ne_nil (s : Scanner) : s.readItems.1 ≠ [] := by
  rw [readItems]
  dsimp only
  split
  · exact List.cons_ne_nil _ _
  · split <;> exact List.cons_ne_nil _ _

theorem readValue_ne (s : Scanner) : s.readValue.1 ≠ .list [] ∧ ∀ b, s.readValue.1 ≠ .flag b := by
  rw [readValue]
  dsimp only
  split
  · refine ⟨fun h => ?_, by simp⟩
    exact readItems_ne_nil _ (Value.list.inj h)
  · split
    · exact ⟨by simp, by simp⟩
    · exact ⟨by simp, by simp⟩

theorem readUnit_unit {c : Condition} (h : s.readUnit.1 = some c) : c.Unit := by
  rw [readUnit] at h
  dsimp only at h
  split at h
  · simp only [Option.ite_none_left_eq_some, Bool.not_eq_true, Option.some.injEq] at h
    obtain ⟨hc, rfl⟩ := h
    exact { column_ne := decoded_ne hc, value_ne := by simp, positive_eq := rfl }
  · rename_i u _
    simp only [Option.ite_none_left_eq_some, Bool.not_eq_true, Option.some.injEq] at h
    obtain ⟨hc, rfl⟩ := h
    obtain ⟨hl, hf⟩ := readValue_ne u
    refine { column_ne := decoded_ne hc, value_ne := hl, positive_eq := ?_ }
    unfold Condition.positive
    split <;> rename_i hv
    · exact absurd hv (hf _)
    · rfl

theorem readLexeme?_unit_mem {o : Occurrence} {c : Condition} (h : s.readLexeme? = some (o, t))
    (hc : o.lexeme = .unit (some c)) : c.Unit := by
  rw [readLexeme?] at h
  dsimp only at h
  split at h
  · cases h
  · simp only [Option.some.injEq, Prod.mk.injEq] at h
    obtain ⟨rfl, -⟩ := h
    split at hc <;> try cases hc
    rename_i h
    exact readUnit_unit (Lexeme.unit.inj hc)

theorem unit_of_mem_lexemes {o : Occurrence} {c : Condition} (h : o ∈ s.lexemes)
    (hc : o.lexeme = .unit (some c)) : c.Unit := by
  fun_induction lexemes s with
  | case1 s hs => cases h
  | case2 s o' t hs ih =>
    rcases List.mem_cons.1 h with rfl | h
    · exact readLexeme?_unit_mem hs hc
    · exact ih h

end Scanner

/-! ### Derivations -/

/-- The parts of a query that stand for a rule. -/
inductive Part where
  | operand
  /-- Operands between which there are only `&`. -/
  | alternative
  /-- What stands in parentheses, or the whole query. -/
  | content
  deriving DecidableEq, Repr

/-- `Derives limit part n r`: the part can stand for `r` where `n` groups and negations are open
around it, and at most `limit` are open anywhere in it. -/
inductive Derives (limit : Nat) : Part → Nat → Rule → Prop where
  | unit {n : Nat} {c : Condition} : c.Unit → Derives limit .operand n (.condition c)
  | negate {n : Nat} {r : Rule} : n < limit → Derives limit .operand (n + 1) r →
    Derives limit .operand n r.negate
  | group {n : Nat} {r : Rule} : n < limit → Derives limit .content (n + 1) r →
    Derives limit .operand n r
  | alternative {n : Nat} {rs : List Rule} {r : Rule} :
    (∀ r ∈ rs, Derives limit .operand n r) → Rule.join? .all rs = some r →
    Derives limit .alternative n r
  | content {n : Nat} {rs : List Rule} {r : Rule} :
    (∀ r ∈ rs, Derives limit .alternative n r) → Rule.join? .any rs = some r →
    Derives limit .content n r

/-- Negations that are open in front of an operand end with it. -/
theorem Derives.repeat_negate {limit n k : Nat} {r : Rule} (hk : n + k ≤ limit)
    (H : Derives limit .operand (n + k) r) :
    Derives limit .operand n (Nat.repeat Rule.negate k r) := by
  induction k generalizing n with
  | zero => exact H
  | succ k ih =>
    rw [Nat.repeat]
    refine .negate (by omega) (ih (by omega) ?_)
    rwa [Nat.add_right_comm]

namespace Parse

variable {limit : Nat}

namespace Group

/-- What a group has read is derived, where `n` is open around its operands. -/
structure Derived (limit n : Nat) (g : Group) : Prop where
  operands : ∀ r ∈ g.operands, Derives limit .operand n r
  terms : ∀ r ∈ g.terms, Derives limit .alternative n r

variable {g : Group} {n : Nat}

theorem Derived.start : Derived limit n {} :=
  ⟨List.forall_mem_nil _, List.forall_mem_nil _⟩

theorem Derived.add (H : g.Derived limit n) (hn : n + g.negations ≤ limit) {r : Option Rule}
    (hr : ∀ s ∈ r, Derives limit .operand (n + g.negations) s) :
    (g.add r).Derived limit n := by
  refine ⟨fun s hs => ?_, H.terms⟩
  rcases List.mem_append.1 hs with hs | hs
  · exact H.operands s hs
  · cases r with
    | none => cases hs
    | some r =>
      obtain rfl : s = _ := by simpa using hs
      exact Derives.repeat_negate hn (hr r rfl)

theorem Derived.next (H : g.Derived limit n) : g.next.Derived limit n := by
  refine ⟨List.forall_mem_nil _, fun s hs => ?_⟩
  rcases List.mem_append.1 hs with hs | hs
  · exact H.terms s hs
  · exact .alternative H.operands (by simpa using hs)

theorem Derived.result (H : g.Derived limit n) : ∀ r ∈ g.result, Derives limit .content n r :=
  fun _ hr => .content H.next.terms hr

end Group

/-- The groups of a state, the innermost first, each below what is open around it. -/
def StackDerived (limit : Nat) : List Group → Prop
  | [] => True
  | g :: outer => g.Derived limit (State.openingsOf outer).length ∧ StackDerived limit outer

namespace State

variable {s t : State} {l : Lexeme} {ls : List Lexeme}

/-- Everything that has been read is derived. -/
def Derived (limit : Nat) (s : State) : Prop := StackDerived limit (s.group :: s.outer)

theorem nesting_eq (s : State) : s.nesting = (openingsOf s.outer).length + s.group.negations := by
  rw [← length_openings, openings, List.length_append, List.length_replicate, Nat.add_comm]

theorem Derived.operand (H : s.Derived limit) (hn : s.nesting ≤ limit) {r : Option Rule}
    (hr : ∀ q ∈ r, Derives limit .operand s.nesting q) : (s.operand r).Derived limit := by
  rw [nesting_eq] at hn hr
  exact ⟨H.1.add hn hr, H.2⟩

theorem Derived.settle (H : s.Derived limit) (hn : s.nesting ≤ limit) :
    s.settle.Derived limit := by
  rw [State.settle]
  split
  · exact H.operand hn (by simp)
  · exact H

theorem Derived.close (H : s.Derived limit) (hn : s.nesting ≤ limit) :
    s.close.Derived limit := by
  rw [State.close]
  split
  · exact H
  · rename_i g outer ho
    rw [Derived, ho] at H
    rw [nesting_eq, ho] at hn
    simp only [openingsOf_cons, List.length_cons, List.length_append, List.length_replicate] at hn
    refine ⟨H.2.1.add (by omega) fun r hr => .group (by omega) ?_, H.2.2⟩
    have := H.1.result r hr
    simp only [openingsOf_cons, List.length_cons, List.length_append, List.length_replicate] at this
    rwa [Nat.add_comm (openingsOf outer).length]

theorem nesting_settle_le (s : State) : s.settle.nesting ≤ s.nesting := by
  rw [nesting_eq, nesting_eq, settle_outer, State.settle]
  split
  · exact Nat.le_add_right ..
  · exact Nat.le_refl _

theorem Derived.advance (H : s.Derived limit) (hn : s.nesting ≤ limit)
    (hl : ∀ c, l = .unit (some c) → c.Unit) : (s.advance l).Derived limit := by
  have hs := H.settle hn
  cases l with
  | conj => exact hs
  | disj =>
    rw [State.advance]
    split
    · exact ⟨hs.1.next, hs.2⟩
    · exact hs
  | groupOpen => exact ⟨.start, H⟩
  | groupClose => exact hs.close (Nat.le_trans s.nesting_settle_le hn)
  | negation => exact ⟨⟨H.1.operands, H.1.terms⟩, H.2⟩
  | unit c =>
    refine H.operand hn fun r hr => ?_
    obtain ⟨d, hd, rfl⟩ := Option.map_eq_some_iff.1 hr
    exact .unit (hl d (hd ▸ rfl))

theorem Reads.derived (H : Reads s ls t) (hs : s.Settled) (hd : s.Derived limit)
    (hp : Opening.peak s.openings ls ≤ limit) (hl : ∀ c, .unit (some c) ∈ ls → c.Unit) :
    t.Derived limit ∧ t.nesting ≤ limit := by
  -- The peak bounds what is open in every state on the way, which is where a part is derived.
  induction H with
  | nil => exact ⟨hd, length_openings _ ▸ hp⟩
  | @cons s t l ls hb _ ih =>
    rw [Opening.peak, length_openings, Nat.max_le, ← openings_advance hs] at hp
    exact ih (settled_advance hs hb)
      (hd.advance hp.1 fun c hc => hl c (hc ▸ List.mem_cons_self)) hp.2
      fun c hc => hl c (List.mem_cons_of_mem _ hc)

/-- At the end of the query the open groups are closed one after another. -/
theorem StackDerived.closeAll {outer : List Group} (H : StackDerived limit outer)
    (hn : (openingsOf outer).length ≤ limit) {r : Option Rule}
    (hr : ∀ q ∈ r, Derives limit .content (openingsOf outer).length q) :
    ∀ q ∈ outer.foldl (fun r g => (g.add r).result) r, Derives limit .content 0 q := by
  induction outer generalizing r with
  | nil => exact hr
  | cons g outer ih =>
    simp only [openingsOf_cons, List.length_cons, List.length_append, List.length_replicate] at hn hr
    refine ih H.2 (by omega) (H.1.add (by omega) fun q hq => .group (by omega) ?_).result
    rw [Nat.add_comm (openingsOf outer).length]
    exact hr q hq

theorem Derived.finish (H : s.Derived limit) (hn : s.nesting ≤ limit) :
    ∀ r ∈ s.finish, Derives limit .content 0 r := by
  have hs := H.settle hn
  have hn' := Nat.le_trans s.nesting_settle_le hn
  rw [nesting_eq, settle_outer] at hn'
  rw [Derived, settle_outer] at hs
  exact StackDerived.closeAll hs.2 (by omega) hs.1.result

end State
end Parse

/-- **What a query stands for** is the empty rule or derived, no deeper than the query opens groups
and negations. -/
theorem Rule.derives_of_parse {query : String} {r : Rule} (h : parse query = .ok r) :
    r = empty ∨ Derives (maxOpen query) .content 0 r := by
  obtain ⟨t, H, -, rfl⟩ := parse_eq_ok_iff.1 h
  have hu : ∀ c, .unit (some c) ∈ (lexemes query).map (·.lexeme) → c.Unit := by
    intro c hc
    obtain ⟨o, ho, hl⟩ := List.mem_map.1 hc
    exact Scanner.unit_of_mem_lexemes ho hl
  obtain ⟨hd, hn⟩ : t.Derived (maxOpen query) ∧ t.nesting ≤ maxOpen query :=
    H.derived Parse.State.settled_start ⟨.start, trivial⟩ (Nat.le_refl _) hu
  cases hf : t.finish with
  | none => exact .inl rfl
  | some r => exact .inr (hd.finish hn r hf)

/-! ### Derived rules are normal -/

namespace Rule

theorem Normal.negate {r : Rule} (H : r.Normal) : r.negate.Normal := by
  cases ht : r.isTest with
  | false =>
    rw [negate_of_not_isTest ht]
    exact .none H ht
  | true =>
    cases H with
    | @condition c h =>
      obtain ⟨column, op, value, note⟩ := c
      cases value with
      | flag b =>
        refine .condition { column_ne := h.column_ne, value_ne := by simp, comparison_eq := ?_ }
        exact fun _ _ => h.comparison_eq b rfl
      | _ => cases ht
    | _ => cases ht

theorem Normal.of_join? {op : Connective} (hop : op ≠ .none) {rs : List Rule} {r : Rule}
    (h : join? op rs = some r) (H : ∀ r ∈ rs, r.Normal) : r.Normal := by
  match rs with
  | [s] =>
    obtain rfl := Option.some.inj h
    exact H s List.mem_cons_self
  | s :: t :: rs =>
    obtain rfl := Option.some.inj h
    exact .chain hop (by simp) H

end Rule

theorem Derives.normal {limit n : Nat} {part : Part} {r : Rule} (H : Derives limit part n r) :
    r.Normal := by
  induction H with
  | unit hc => exact .condition hc.normal
  | negate _ _ ih => exact ih.negate
  | group _ _ ih => exact ih
  | alternative _ hr ih => exact .of_join? (by decide) hr ih
  | content _ hr ih => exact .of_join? (by decide) hr ih

/-- **Every query that is accepted stands for a normal rule**, or for the empty one. -/
theorem Rule.normal_of_parse {query : String} {r : Rule} (h : parse query = .ok r) :
    r = empty ∨ r.Normal :=
  (derives_of_parse h).imp_right Derives.normal

theorem Rule.normal_of_parse_mended :
    ∃ r, parse "!!(a b) & | !(c=(1|)" = .ok r ∧ (r = empty ∨ r.Normal) := by
  have ho : (parse "!!(a b) & | !(c=(1|)").toOption.isSome = true := by decide +kernel
  obtain ⟨r, h⟩ := Option.isSome_iff_exists.1 ho
  exact ⟨r, parse_eq_ok_of_toOption h, normal_of_parse (parse_eq_ok_of_toOption h)⟩

end FilterQuery
