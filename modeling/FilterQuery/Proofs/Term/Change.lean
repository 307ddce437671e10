import FilterQuery.Proofs.Term.Editing
import Mathlib.Algebra.Ring.Nat

/-!
What a recorded change says. It names a range of terms and how many came in for them; every other
term keeps its kind, text and label. Changes that are replayed one after another lead from the terms
at first to the terms at last, so they account for every term that came or went.
-/

namespace FilterQuery

/-- What a term says and is shown as. -/
def Token.face (t : Token) : TokenKind × String × String := (t.kind, t.raw, t.label)

namespace Change

variable {c : Change} {cs ds : List Change} {ts us vs : List Token}

/-- The change leads from some terms to others. It takes `removed` terms away at `start` and puts
`inserted` ones in their place; the terms before and behind keep their faces. -/
structure Leads (c : Change) (ts us : List Token) : Prop where
  removed_le : c.start + c.removed ≤ ts.length
  inserted_le : c.start + c.inserted ≤ us.length
  before : (us.take c.start).map Token.face = (ts.take c.start).map Token.face
  behind : (us.drop (c.start + c.inserted)).map Token.face =
    (ts.drop (c.start + c.removed)).map Token.face

theorem Leads.length_eq (H : c.Leads ts us) : us.length + c.removed = ts.length + c.inserted := by
  have h := congrArg List.length H.behind
  have hr := H.removed_le
  have hi := H.inserted_le
  simp only [List.length_map, List.length_drop] at h
  omega

/-- Changes in a row lead from some terms to others. -/
inductive Replay : List Change → List Token → List Token → Prop where
  | nil {ts : List Token} : Replay [] ts ts
  | cons {c : Change} {cs : List Change} {ts us vs : List Token} : c.Leads ts us →
    Replay cs us vs → Replay (c :: cs) ts vs

theorem Replay.single (H : c.Leads ts us) : Replay [c] ts us := .cons H .nil

theorem Replay.append (H : Replay cs ts us) (H' : Replay ds us vs) : Replay (cs ++ ds) ts vs := by
  induction H with
  | nil => exact H'
  | cons hc _ ih => exact .cons hc (ih H')

/-- All that came and went adds up. -/
theorem Replay.length_eq (H : Replay cs ts us) :
    us.length + (cs.map removed).sum = ts.length + (cs.map inserted).sum := by
  induction H with
  | nil => rfl
  | @cons c cs ts us vs hc _ ih =>
    have h := hc.length_eq
    simp only [List.map_cons, List.sum_cons]
    omega

end Change

namespace TermIndex

/-- **A replaced range** is recorded as what was done to the terms, be the range out of bounds or
reversed. -/
theorem leads_splice (x : TermIndex) (start stop : Nat) (added : List Token) :
    (x.splice start stop added).2.1.Leads x.tokens (x.splice start stop added).2.2.tokens := by
  have hface : (x.splice start stop added).2.2.tokens.map Token.face = _ :=
    map_splice (fun _ _ _ => rfl) (fun _ _ => rfl) x start stop added
  have hlength := congrArg List.length hface
  have hremoved := length_removed x start stop added
  have hbefore : (x.tokens.take (min start (min stop x.tokens.length))).length =
      min start (min stop x.tokens.length) := List.length_take_of_le (by omega)
  simp only [List.length_map, List.length_append, List.length_drop, hbefore] at hlength
  change Change.Leads ⟨min start (min stop x.tokens.length), (x.splice start stop added).1.length,
    added.length⟩ _ _
  constructor <;> dsimp only
  · omega
  · omega
  · rw [List.map_take, hface, ← List.map_take, List.append_assoc, List.take_left' hbefore]
  · rw [List.map_drop, hface, ← List.map_drop, hremoved, List.drop_left' (by simp [hbefore])]

end TermIndex
end FilterQuery
