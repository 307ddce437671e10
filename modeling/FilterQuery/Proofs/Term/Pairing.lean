import FilterQuery.Term.Index

/-!
Pairing parentheses. The links depend on the kinds of the terms alone, and they move with the terms:
where terms that are no parentheses give way to others, all links behind them shift alike.
-/

namespace FilterQuery

namespace Token

/-- What a term says. -/
def word (t : Token) : TokenKind × String := (t.kind, t.raw)

/-- Where a term belongs. -/
def place (t : Token) : Option TermPath × Option Nat := (t.path, t.sourceOffset)

/-- The term with its link moved. -/
def relink (f : Nat → Nat) (t : Token) : Token := { t with counterpart := t.counterpart.map f }

/-- The term with no link. -/
def unlink (t : Token) : Token := { t with counterpart := none }

/-- Terms that are no parentheses. -/
abbrev Plain (ts : List Token) : Prop := ∀ t ∈ ts, t.kind.isGrouping = false

/-- Terms that are no parentheses have no link. -/
abbrev Unlinked (ts : List Token) : Prop :=
  ∀ t ∈ ts, t.kind.isGrouping = false → t.counterpart = none

theorem ext_of_map {ts us : List Token} (hw : ts.map word = us.map word)
    (hl : ts.map label = us.map label) (hp : ts.map place = us.map place)
    (hc : ts.map counterpart = us.map counterpart) : ts = us := by
  induction ts generalizing us with
  | nil => simpa using hw
  | cons t ts ih =>
    cases us with
    | nil => simp at hw
    | cons u us =>
      obtain ⟨kind, raw, label, path, offset, link⟩ := t
      obtain ⟨kind', raw', label', path', offset', link'⟩ := u
      simp only [List.map_cons, List.cons.injEq, word, place, Prod.mk.injEq] at hw hl hp hc
      obtain ⟨⟨rfl, rfl⟩, hw⟩ := hw
      obtain ⟨rfl, hl⟩ := hl
      obtain ⟨⟨rfl, rfl⟩, hp⟩ := hp
      obtain ⟨rfl, hc⟩ := hc
      rw [ih hw hl hp hc]

end Token

namespace TermIndex

open Token

/-! ### One term -/

/-- The open parentheses behind a term at index `i`, the innermost first. -/
def openedBehind (i : Nat) (k : TokenKind) (opened : List Nat) : List Nat :=
  match k with
  | .groupOpen => i :: opened
  | .groupClose => opened.tail
  | _ => opened

/-- The link of a term, from what is open before it and what closes behind it. -/
def linkOf (k : TokenKind) (opened : List Nat) (closes : List (Option Nat)) : Option Nat :=
  match k with
  | .groupOpen => closes.head?.join
  | .groupClose => opened.head?
  | _ => none

/-- What closes the parentheses that are open before a term at index `i`. -/
def closesBefore (i : Nat) (k : TokenKind) (opened : List Nat) (closes : List (Option Nat)) :
    List (Option Nat) :=
  match k with
  | .groupOpen => closes.tail
  | .groupClose => if opened.isEmpty then closes else some i :: closes
  | _ => closes

variable {ts us : List Token} {i : Nat} {opened : List Nat}

theorem pairFrom_cons (i : Nat) (opened : List Nat) (t : Token) (ts : List Token) :
    pairFrom i opened (t :: ts) =
      let paired := pairFrom (i + 1) (openedBehind i t.kind opened) ts
      ({ t with counterpart := linkOf t.kind opened paired.2 } :: paired.1,
        closesBefore i t.kind opened paired.2) := by
  cases hk : t.kind with
  | groupClose => cases opened <;> simp [pairFrom, hk, openedBehind, linkOf, closesBefore]
  | _ => simp [pairFrom, hk, openedBehind, linkOf, closesBefore]

section
variable (f : Nat → Nat) (k : TokenKind) (opened : List Nat) (closes : List (Option Nat))

theorem openedBehind_map :
    openedBehind (f i) k (opened.map f) = (openedBehind i k opened).map f := by
  cases k <;> simp [openedBehind]

theorem linkOf_map :
    linkOf k (opened.map f) (closes.map (Option.map f)) = (linkOf k opened closes).map f := by
  cases k with
  | groupOpen => cases closes <;> simp [linkOf]
  | _ => simp [linkOf]

theorem closesBefore_map : closesBefore (f i) k (opened.map f) (closes.map (Option.map f)) =
    (closesBefore i k opened closes).map (Option.map f) := by
  cases k with
  | groupClose => cases opened <;> simp [closesBefore]
  | _ => simp [closesBefore]

end

theorem openedBehind_of_plain {k : TokenKind} (h : k.isGrouping = false) :
    openedBehind i k opened = opened := by
  cases k <;> first | rfl | cases h

theorem linkOf_of_plain {k : TokenKind} (h : k.isGrouping = false) (closes : List (Option Nat)) :
    linkOf k opened closes = none := by
  cases k <;> first | rfl | cases h

theorem closesBefore_of_plain {k : TokenKind} (h : k.isGrouping = false)
    (closes : List (Option Nat)) : closesBefore i k opened closes = closes := by
  cases k <;> first | rfl | cases h

/-! ### Terms in a row -/

theorem map_pairFrom {α : Type} {g : Token → α} (h : ∀ t l, g { t with counterpart := l } = g t) :
    (pairFrom i opened ts).1.map g = ts.map g := by
  induction ts generalizing i opened with
  | nil => rfl
  | cons t ts ih => simp [pairFrom_cons, h, ih]

theorem pairFrom_congr (h : ts.map kind = us.map kind) :
    (pairFrom i opened ts).1.map counterpart = (pairFrom i opened us).1.map counterpart ∧
      (pairFrom i opened ts).2 = (pairFrom i opened us).2 := by
  induction ts generalizing us i opened with
  | nil =>
    obtain rfl : us = [] := by simpa using h
    exact ⟨rfl, rfl⟩
  | cons t ts ih =>
    obtain _ | ⟨u, us⟩ := us
    · simp at h
    obtain ⟨hk, h⟩ := List.cons.inj h
    obtain ⟨hl, hc⟩ := @ih us (i + 1) (openedBehind i t.kind opened) h
    simp [pairFrom_cons, ← hk, hl, hc]

/-- Terms in which every parenthesis is linked to the one that goes with it. -/
def Linked (ts : List Token) : Prop := pair ts = ts

theorem Linked.of_counterparts (h : (pair ts).map counterpart = ts.map counterpart) : Linked ts :=
  ext_of_map (map_pairFrom fun _ _ => rfl) (map_pairFrom fun _ _ => rfl)
    (map_pairFrom fun _ _ => rfl) h

theorem linked_nil : Linked [] := rfl

theorem linked_pair (ts : List Token) : Linked (pair ts) :=
  .of_counterparts (pairFrom_congr (map_pairFrom fun _ _ => rfl)).1

/-- Terms of the same kinds with the same links are linked if the others are. -/
theorem Linked.congr (H : Linked ts) (hk : us.map kind = ts.map kind)
    (hc : us.map counterpart = ts.map counterpart) : Linked us := by
  have h : (pair us).map counterpart = (pair ts).map counterpart := (pairFrom_congr hk).1
  exact .of_counterparts (h.trans ((congrArg (List.map counterpart) H).trans hc.symm))

/-- Parentheses are paired in the same way wherever they stand. -/
theorem pairFrom_relink {f : Nat → Nat} {j : Nat} (hf : ∀ n, f (i + n) = j + n) :
    pairFrom j (opened.map f) ts =
      ((pairFrom i opened ts).1.map (relink f), (pairFrom i opened ts).2.map (Option.map f)) := by
  induction ts generalizing i j opened with
  | nil =>
    rw [pairFrom, pairFrom, List.map_map, List.map_map]
    rfl
  | cons t ts ih =>
    obtain rfl : f i = j := hf 0
    have hf' : ∀ n, f (i + 1 + n) = f i + 1 + n := fun n => by
      rw [Nat.add_assoc, hf, Nat.add_assoc]
    simp only [pairFrom_cons, openedBehind_map, ih hf', linkOf_map, closesBefore_map, List.map_cons,
      relink]

theorem pairFrom_append_of_plain (h : Plain us) :
    pairFrom i opened (us ++ ts) = (us.map unlink ++ (pairFrom (i + us.length) opened ts).1,
      (pairFrom (i + us.length) opened ts).2) := by
  induction us generalizing i with
  | nil => rfl
  | cons u us ih =>
    obtain ⟨hu, h⟩ := List.forall_mem_cons.1 h
    rw [List.cons_append, pairFrom_cons, openedBehind_of_plain hu, ih h]
    simp only [linkOf_of_plain hu, closesBefore_of_plain hu, List.length_cons, List.map_cons, unlink,
      List.cons_append, Nat.add_comm us.length, Nat.add_assoc]

section
variable {removed added post : List Token} (hr : Plain removed) (ha : Plain added)
  (hu : Unlinked added) {f : Nat → Nat} {start : Nat}
  (hf : ∀ n < start, f n = n)
  (hf' : ∀ n, f (start + removed.length + n) = start + added.length + n)
include hr ha hu hf hf'

/-- Where terms that are no parentheses give way to others, links behind them move with the terms.
-/
theorem pairFrom_replace {pre : List Token} {closes : List (Option Nat)}
    (hs : i + pre.length = start) (ho : ∀ j ∈ opened, j < start)
    (H : pairFrom i opened (pre ++ (removed ++ post)) = (pre ++ (removed ++ post), closes)) :
    pairFrom i opened (pre ++ (added ++ post)) =
      ((pre ++ (added ++ post)).map (relink f), closes.map (Option.map f)) := by
  induction pre generalizing i opened closes with
  | nil =>
    obtain rfl : i = start := hs
    have hopened : opened.map f = opened := by
      simpa using List.map_congr_left fun j hj => hf j (ho j hj)
    have hadded : added.map unlink = added.map (relink f) := by
      refine List.map_congr_left fun t ht => ?_
      rw [unlink, relink, hu t ht (ha t ht)]
      rfl
    have hpost := @pairFrom_relink post _ opened f _ hf'
    rw [hopened] at hpost
    rw [List.nil_append, pairFrom_append_of_plain hr, Prod.mk.injEq] at H
    obtain ⟨H, rfl⟩ := H
    obtain ⟨-, H⟩ := List.append_inj H (by simp)
    rw [List.nil_append, pairFrom_append_of_plain ha, hpost, H, hadded, List.map_append]
  | cons t pre ih =>
    rw [List.length_cons] at hs
    simp only [List.cons_append, pairFrom_cons, Prod.mk.injEq, List.cons.injEq] at H ⊢
    obtain ⟨⟨ht, H⟩, rfl⟩ := H
    have hlink : linkOf t.kind opened _ = t.counterpart := congrArg counterpart ht
    have hopened : ∀ j ∈ openedBehind i t.kind opened, j < start := by
      intro j hj
      unfold openedBehind at hj
      split at hj
      · rcases List.mem_cons.1 hj with rfl | hj
        · omega
        · exact ho j hj
      · exact ho j (List.mem_of_mem_tail hj)
      · exact ho j hj
    have hfi : f i = i := hf i (by omega)
    have hfo : opened.map f = opened := by
      simpa using List.map_congr_left fun j hj => hf j (ho j hj)
    have H := @ih (i + 1) _ _ (by omega) hopened (Prod.ext H rfl)
    have hlinks := linkOf_map f t.kind opened
    have hcloses := @closesBefore_map i f t.kind opened
    rw [hfo] at hlinks hcloses
    rw [hfi] at hcloses
    simp only [H, hlinks, hcloses, hlink, List.map_cons, relink, and_self]

end

end TermIndex
end FilterQuery
