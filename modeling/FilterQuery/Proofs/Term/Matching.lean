import FilterQuery.Proofs.Term.Pairing
import Mathlib.Data.List.Induction

/-!
What pairing finds. A parenthesis goes with the one that encloses, together with it, terms whose
parentheses are balanced; this says nothing of how it is found. Pairing links every parenthesis to
the one that it goes with, and to none where there is no such one.
-/

namespace FilterQuery

namespace TermIndex

open Token

variable {ts us : List Token} {t : Token} {i j k m d : Nat} {opened : List Nat}

/-! ### Balanced terms -/

/-- How many parentheses are open behind a term, with so many open before; none if it closes one
where none is open. -/
def levelBehind? (k : TokenKind) (d : Nat) : Option Nat :=
  match k with
  | .groupOpen => some (d + 1)
  | .groupClose => if d = 0 then none else some (d - 1)
  | _ => some d

/-- How many are open behind some terms. -/
def level? (d : Nat) (ts : List Token) : Option Nat :=
  ts.foldlM (fun d t => levelBehind? t.kind d) d

/-- Terms that close exactly the parentheses that they open. -/
def Balanced (ts : List Token) : Prop := level? 0 ts = some 0

instance (ts : List Token) : Decidable (Balanced ts) := inferInstanceAs (Decidable (_ = _))

/-- An opening parenthesis at `i`, a closing one at `j`, and balanced terms between them. -/
structure Encloses (ts : List Token) (i j : Nat) : Prop where
  lt : i < j
  opens : ts[i]?.map kind = some .groupOpen
  closes : ts[j]?.map kind = some .groupClose
  balanced : Balanced ((ts.take j).drop (i + 1))

theorem Encloses.lt_length (H : Encloses ts i j) : j < ts.length := by
  obtain ⟨t, ht, -⟩ := Option.map_eq_some_iff.1 H.closes
  exact (List.getElem?_eq_some_iff.1 ht).1

theorem level?_cons (d : Nat) (t : Token) (ts : List Token) :
    level? d (t :: ts) = (levelBehind? t.kind d).bind fun d => level? d ts := rfl

theorem level?_append (d : Nat) (ts us : List Token) :
    level? d (ts ++ us) = (level? d ts).bind fun d => level? d us := List.foldlM_append

theorem levelBehind?_of_plain {k : TokenKind} (h : k.isGrouping = false) (d : Nat) :
    levelBehind? k d = some d := by
  cases k <;> first | rfl | cases h

/-! ### What closes a parenthesis -/

/-- Term `n` closes what is open before some terms and has `m` others inside of it: the others have
been closed before. -/
def ClosesAt (m : Nat) (ts : List Token) (n : Nat) : Prop :=
  ts[n]?.map kind = some .groupClose ∧ level? m (ts.take n) = some 0

theorem ClosesAt.cons_iff {n : Nat} (h : levelBehind? t.kind m = some d) :
    ClosesAt m (t :: ts) (n + 1) ↔ ClosesAt d ts n := by
  rw [ClosesAt, ClosesAt, List.take_succ_cons, level?_cons, h]
  rfl

/-- What the first term does not close is closed among the rest, where places are one less. -/
theorem ClosesAt.exists_cons_iff (h : levelBehind? t.kind m = some d)
    (ht : t.kind = .groupClose → m ≠ 0) : (∃ n, k = i + n ∧ ClosesAt m (t :: ts) n) ↔
      ∃ n, k = i + 1 + n ∧ ClosesAt d ts n := by
  constructor
  · rintro ⟨_ | n, rfl, H⟩
    · exact absurd (Option.some.inj H.2) (ht (Option.some.inj H.1))
    · exact ⟨n, by omega, (cons_iff h).1 H⟩
  · rintro ⟨n, rfl, H⟩
    exact ⟨n + 1, by omega, (cons_iff h).2 H⟩

/-- Pairing finds what closes the parentheses that are open before some terms. -/
theorem closes_iff (hm : m < opened.length) :
    (pairFrom i opened ts).2[m]?.join = some k ↔ ∃ n, k = i + n ∧ ClosesAt m ts n := by
  induction ts generalizing i opened m with
  | nil =>
    have hn : (opened.map fun _ => (none : Option Nat))[m]?.join = none := by
      rw [List.getElem?_map]
      cases opened[m]? <;> rfl
    refine iff_of_false (fun h => ?_) ?_
    · cases hn.symm.trans h
    · rintro ⟨n, -, h, -⟩
      cases h
  | cons t ts ih =>
    rw [pairFrom_cons]
    by_cases hp : t.kind.isGrouping = false
    · have ht : t.kind ≠ .groupClose := fun h => by rw [h] at hp; cases hp
      rw [ClosesAt.exists_cons_iff (levelBehind?_of_plain hp m) (absurd · ht)]
      simp only [openedBehind_of_plain hp, closesBefore_of_plain hp, ih hm]
    cases hk : t.kind with
    | groupOpen =>
      have hm : m + 1 < (i :: opened).length := by simpa
      rw [ClosesAt.exists_cons_iff (d := m + 1) (by rw [hk]; rfl) (by simp [hk]), ← ih hm]
      simp [closesBefore, openedBehind]
    | groupClose =>
      obtain ⟨j, outer, rfl⟩ := List.exists_cons_of_length_pos (Nat.zero_lt_of_lt hm)
      cases m with
      | zero =>
        -- It is the innermost open one, and the first term closes it.
        change some i = some k ↔ _
        constructor
        · rintro ⟨⟩
          exact ⟨0, rfl, congrArg some hk, rfl⟩
        · rintro ⟨_ | n, rfl, -, hl⟩
          · rfl
          · rw [List.take_succ_cons, level?_cons, hk] at hl
            cases hl
      | succ m =>
        have hm : m < outer.length := by simpa using hm
        rw [ClosesAt.exists_cons_iff (d := m) (by rw [hk]; rfl) (by simp), ← ih hm]
        rfl
    | _ => simp [hk, TokenKind.isGrouping] at hp

/-! ### What a parenthesis closes -/

/-- The parentheses that are open behind terms that start at index `i`, the innermost first. -/
def openedAfter (i : Nat) (opened : List Nat) : List Token → List Nat
  | [] => opened
  | t :: ts => openedAfter (i + 1) (openedBehind i t.kind opened) ts

theorem openedAfter_concat (i : Nat) (opened : List Nat) (ts : List Token) (t : Token) :
    openedAfter i opened (ts ++ [t]) =
      openedBehind (i + ts.length) t.kind (openedAfter i opened ts) := by
  induction ts generalizing i opened with
  | nil => rfl
  | cons u ts ih =>
    rw [List.cons_append, openedAfter, openedAfter, ih, List.length_cons, Nat.add_right_comm,
      Nat.add_assoc]

/-- Term `j` is open behind some terms and has `m` others inside of it: those that follow it leave
as many open. -/
def OpenAt (m : Nat) (ts : List Token) (j : Nat) : Prop :=
  ts[j]?.map kind = some .groupOpen ∧ level? 0 (ts.drop (j + 1)) = some m

theorem OpenAt.concat_iff : OpenAt m (ts ++ [t]) j ↔
    (j = ts.length ∧ t.kind = .groupOpen ∧ m = 0) ∨
      ∃ d, OpenAt d ts j ∧ levelBehind? t.kind d = some m := by
  rw [OpenAt]
  rcases Nat.lt_trichotomy j ts.length with hj | rfl | hj
  · rw [List.getElem?_append_left hj, List.drop_append_of_le_length hj, level?_append,
      Option.bind_eq_some_iff]
    simp [OpenAt, level?, Nat.ne_of_lt hj, and_assoc]
  · simp [OpenAt, level?, eq_comm]
  · have hn : ts[j]? = none := List.getElem?_eq_none (Nat.le_of_lt hj)
    have hn' : (ts ++ [t])[j]? = none :=
      List.getElem?_eq_none (by rw [List.length_append]; exact hj)
    simp [OpenAt, hn, hn', Nat.ne_of_gt hj]

theorem openedAfter_iff : (openedAfter 0 [] ts)[m]? = some j ↔ OpenAt m ts j := by
  induction ts using List.reverseRecOn generalizing m with
  | nil => simp [openedAfter, OpenAt]
  | append_singleton ts t ih =>
    rw [openedAfter_concat, Nat.zero_add, OpenAt.concat_iff]
    by_cases hp : t.kind.isGrouping = false
    · have hk : t.kind ≠ .groupOpen := fun h => by rw [h] at hp; cases hp
      simp [openedBehind_of_plain hp, levelBehind?_of_plain hp, ih, hk]
    cases hk : t.kind with
    | groupOpen =>
      cases m with
      | zero => simp [openedBehind, levelBehind?, eq_comm]
      | succ m => simp [openedBehind, levelBehind?, ih]
    | groupClose =>
      have hd (d : Nat) : levelBehind? .groupClose d = some m ↔ d = m + 1 := by
        cases d <;> simp [levelBehind?]
      simp [openedBehind, hd, ih]
    | _ => simp [hk, TokenKind.isGrouping] at hp

/-! ### Links -/

/-- The link of the term at an index. -/
def link? (ts : List Token) (i : Nat) : Option Nat := ts[i]?.bind counterpart

theorem link?_eq (ts : List Token) (i : Nat) : link? ts i = (ts.map counterpart)[i]?.join := by
  rw [link?, List.getElem?_map]
  cases ts[i]? <;> rfl

theorem drop_pairFrom (i : Nat) (opened : List Nat) (us ts : List Token) :
    (pairFrom i opened (us ++ ts)).1.drop us.length =
      (pairFrom (i + us.length) (openedAfter i opened us) ts).1 := by
  induction us generalizing i opened with
  | nil => rfl
  | cons u us ih =>
    rw [List.cons_append, pairFrom_cons, openedAfter, List.length_cons, List.drop_succ_cons, ih,
      Nat.add_right_comm, Nat.add_assoc]

theorem link?_pair_eq (h : ts[i]? = some t) : link? (pair ts) i =
    linkOf t.kind (openedAfter 0 [] (ts.take i))
      (pairFrom (i + 1) (openedBehind i t.kind (openedAfter 0 [] (ts.take i)))
        (ts.drop (i + 1))).2 := by
  obtain ⟨hi, rfl⟩ := List.getElem?_eq_some_iff.1 h
  have hlen : (ts.take i).length = i := List.length_take_of_le (Nat.le_of_lt hi)
  have hd := drop_pairFrom 0 [] (ts.take i) (ts.drop i)
  rw [hlen, List.take_append_drop, Nat.zero_add, List.drop_eq_getElem_cons hi, pairFrom_cons] at hd
  rw [link?, pair, ← List.head?_drop, hd]
  rfl

theorem Encloses.iff_closes (h : ts[i]?.map kind = some .groupOpen) : Encloses ts i j ↔
    ∃ n, j = i + 1 + n ∧ ClosesAt 0 (ts.drop (i + 1)) n := by
  constructor
  · rintro ⟨hlt, -, hc, hb⟩
    obtain ⟨n, rfl⟩ := Nat.exists_eq_add_of_le hlt
    rw [Balanced, List.drop_take, Nat.add_sub_cancel_left] at hb
    exact ⟨n, rfl, by rwa [List.getElem?_drop], hb⟩
  · rintro ⟨n, rfl, hc, hb⟩
    rw [List.getElem?_drop] at hc
    refine ⟨by omega, h, hc, ?_⟩
    rwa [Balanced, List.drop_take, Nat.add_sub_cancel_left]

theorem Encloses.iff_opened (h : ts[j]?.map kind = some .groupClose) : Encloses ts i j ↔
    OpenAt 0 (ts.take j) i := by
  constructor
  · rintro ⟨hlt, ho, -, hb⟩
    exact ⟨by rwa [List.getElem?_take_of_lt hlt], hb⟩
  · rintro ⟨ho, hb⟩
    by_cases hlt : i < j
    · exact ⟨hlt, by rwa [List.getElem?_take_of_lt hlt] at ho, h, hb⟩
    · rw [List.getElem?_take_eq_none (Nat.le_of_not_lt hlt)] at ho
      cases ho

/-- **Pairing** links a parenthesis to the one that it encloses balanced terms with, and no other
term to any. -/
theorem link?_pair : link? (pair ts) i = some j ↔ Encloses ts i j ∨ Encloses ts j i := by
  cases h : ts[i]?.map kind with
  | none =>
    have hkind : (pair ts)[i]?.map kind = ts[i]?.map kind := by
      rw [← List.getElem?_map, ← List.getElem?_map]
      exact congrArg (·[i]?) (map_pairFrom fun _ _ => rfl)
    rw [h, Option.map_eq_none_iff] at hkind
    rw [link?, hkind]
    refine ⟨nofun, ?_⟩
    rintro (H | H)
    · exact absurd (h.symm.trans H.opens) nofun
    · exact absurd (h.symm.trans H.closes) nofun
  | some k =>
    have not_opens (hk : k ≠ .groupOpen) : ¬ Encloses ts i j :=
      fun H => hk (Option.some.inj (h.symm.trans H.opens))
    have not_closes (hk : k ≠ .groupClose) : ¬ Encloses ts j i :=
      fun H => hk (Option.some.inj (h.symm.trans H.closes))
    obtain ⟨t, ht, rfl⟩ := Option.map_eq_some_iff.1 h
    rw [link?_pair_eq ht]
    cases hk : t.kind with
    | groupOpen =>
      rw [hk] at h not_closes
      have hm : 0 < (i :: openedAfter 0 [] (ts.take i)).length := Nat.zero_lt_succ _
      rw [or_iff_left (not_closes nofun), Encloses.iff_closes h, ← closes_iff hm,
        ← List.head?_eq_getElem?]
      rfl
    | groupClose =>
      rw [hk] at h not_opens
      rw [or_iff_right (not_opens nofun), Encloses.iff_opened h, ← openedAfter_iff,
        ← List.head?_eq_getElem?]
      rfl
    | _ =>
      rw [hk] at not_opens not_closes
      simp [linkOf, not_opens, not_closes]

end TermIndex
end FilterQuery
