import FilterQuery.Proofs.Editor.Keystroke
import FilterQuery.Proofs.Editor.Request
import FilterQuery.Proofs.Term.Change

/-!
How a typed character is dispatched. One handler takes it as part of a column or a value, another as
part of a symbol, and each may hand it on to the other, or commit a term and have the character
begin the next one. Every hand-over brings the end nearer, so the character is dealt with after
three of them at most. Terms are only added, and no more than two.
-/

namespace FilterQuery

open Text

/-- No symbol is the empty text. -/
theorem Expect.exactSymbol?_empty (e : Expect) (depth : Nat) :
    exactSymbol? "" (e.symbols depth) = none :=
  e.symbols_of (P := fun symbols => exactSymbol? "" symbols = none) (by cases e <;> decide)
    (by cases e <;> decide) depth

namespace Editor

/-! ### Handlers -/

inductive Handler where
  /-- Takes a character as part of a column or a value. -/
  | freeText
  /-- Takes a character as part of a symbol. -/
  | symbol
  deriving DecidableEq, Repr

section
variable (c : Char) (now : Nat)

/-- What a handler makes of the editor, and the handler that it hands the character on to, if it
does. -/
def Handler.handle (ed : Editor) : Handler → Option Handler × Editor
  | .freeText =>
    if ed.expect.freeText?.isNone then (some .symbol, ed)
    else if delimiters.contains c then
      if (trim ed.fragment.toList).isEmpty then (some .symbol, { ed with fragment := "" })
      else
        match ed.commitFreeText? with
        | some ed => (some .freeText, ed)
        | none => (none, ({ ed with fragment := ed.fragment.push c } : Editor).refresh)
    else if isBlank c && ed.fragment.isEmpty then (none, ed)
    else (none, ed.extend (ed.fragment.push c) now)
  | .symbol =>
    if isBlank c && ed.fragment.isEmpty then (none, ed)
    else
      let symbols := ed.expect.symbols ed.openGroups
      let text := ed.fragment.push c
      match matchSymbol text symbols with
      | .exact (name, kind) => (none, ed.pushTerm (.symbol kind name))
      | .partially => (none, ed.extend text now)
      | .none =>
        match exactSymbol? ed.fragment symbols with
        | some (name, kind) => (some .freeText, ed.pushTerm (.symbol kind name))
        | none => (none, ed.refuse text)

/-- A handler that is given the character ends with an editor, after so many hand-overs. -/
inductive Handled : Handler → Editor → Nat → Editor → Prop where
  | done {h : Handler} {ed ed' : Editor} : h.handle c now ed = (none, ed') → Handled h ed 0 ed'
  | passed {h h' : Handler} {ed ed' ed'' : Editor} {n : Nat} : h.handle c now ed = (some h', ed') →
    Handled h' ed' n ed'' → Handled h ed (n + 1) ed''

/-- How many hand-overs are left at most. -/
def Handler.rank (ed : Editor) : Handler → Nat
  | .freeText => if ed.fragment.isEmpty then 1 else 3
  | .symbol => if ed.fragment.isEmpty then 0 else 2

end

/-! ### Terms that are added -/

/-- The terms stay as they are, and no more than `n` are added behind them. -/
def Appends (n : Nat) (ed ed' : Editor) : Prop :=
  ∃ us : List Token, us.length ≤ n ∧
    ed'.terms.tokens.map Token.face = (ed.terms.tokens ++ us).map Token.face

/-- How many terms a character can add: the fragment and a symbol of its own. -/
def room (ed : Editor) : Nat := if ed.fragment.isEmpty then 1 else 2

variable {ed ed' ed'' : Editor} {m n : Nat} {c : Char} {now : Nat} {h h' : Handler}

theorem Appends.of_terms (h : ed'.terms = ed.terms) (n : Nat) : Appends n ed ed' :=
  ⟨[], Nat.zero_le n, by rw [h, List.append_nil]⟩

theorem Appends.mono (H : Appends m ed ed') (h : m ≤ n) : Appends n ed ed' := by
  obtain ⟨us, hl, hus⟩ := H
  exact ⟨us, hl.trans h, hus⟩

theorem Appends.trans (H : Appends m ed ed') (H' : Appends n ed' ed'') :
    Appends (m + n) ed ed'' := by
  obtain ⟨us, hl, hus⟩ := H
  obtain ⟨vs, hl', hvs⟩ := H'
  refine ⟨us ++ vs, ?_, ?_⟩
  · rw [List.length_append]
    omega
  · rw [hvs, List.map_append, hus, ← List.map_append, List.append_assoc]

theorem appends_pushTerm (ed : Editor) (t : Token) : Appends 1 ed (ed.pushTerm t) := by
  refine ⟨[t], Nat.le_refl 1, ?_⟩
  have hpush : (ed.pushTerm t).terms.tokens.map Token.face = _ :=
    TermIndex.map_splice (fun _ _ _ => rfl) (fun _ _ => rfl) ed.terms ed.terms.size ed.terms.size [t]
  simpa [TermIndex.size] using hpush

theorem one_le_room (ed : Editor) : 1 ≤ ed.room := by
  rw [room]
  split <;> decide

theorem exists_of_commitFreeText? (h : ed.commitFreeText? = some ed') :
    ∃ kind, ed.expect.freeText? = some kind ∧
      ed' = ed.pushTerm (.freeText kind (trimmed ed.fragment)) := by
  rw [commitFreeText?] at h
  split at h
  · rename_i kind hk
    split at h
    · cases h
    · exact ⟨kind, hk, (Option.some.inj h).symm⟩
  · cases h

/-! ### One hand-over -/

/-- A handler that is done has added one term at most. One that hands the character on has come
nearer to the end, and a term that it has added was the fragment. -/
structure Progress (h : Handler) (ed : Editor) (next : Option Handler × Editor) : Prop where
  appends : ∃ n, Appends n ed next.2 ∧ n + (if next.1.isSome then next.2.room else 0) ≤ ed.room
  rank_lt : ∀ h', next.1 = some h' → h'.rank next.2 < h.rank ed

theorem Progress.done (H : Appends 1 ed ed') : Progress h ed (none, ed') where
  appends := ⟨1, H, one_le_room ed⟩
  rank_lt := nofun

/-- The fragment is committed. -/
theorem Progress.pushTerm (hf : ed.fragment.isEmpty = false) (t : Token) :
    Progress h ed (some .freeText, ed.pushTerm t) := by
  have hnext : (ed.pushTerm t).fragment.isEmpty = true := rfl
  constructor
  · refine ⟨1, appends_pushTerm ed t, ?_⟩
    simp [room, hf, hnext]
  · intro h' hh
    obtain rfl := Option.some.inj hh
    cases h <;> simp [Handler.rank, hf, hnext]

theorem progress_freeText (c : Char) (now : Nat) (ed : Editor) :
    Progress .freeText ed (Handler.freeText.handle c now ed) := by
  rw [Handler.handle]
  split
  · constructor
    · exact ⟨0, .of_terms rfl 0, by simp⟩
    · intro h' hh
      obtain rfl := Option.some.inj hh
      rw [Handler.rank, Handler.rank]
      split <;> decide
  split
  · split
    · constructor
      · exact ⟨0, .of_terms rfl 0, by simpa [room] using one_le_room ed⟩
      · intro h' hh
        obtain rfl := Option.some.inj hh
        change 0 < _
        rw [Handler.rank]
        split <;> decide
    · rename_i hblank
      split
      · rename_i ed' hc
        obtain ⟨kind, -, rfl⟩ := exists_of_commitFreeText? hc
        refine .pushTerm ?_ _
        cases hf : ed.fragment.isEmpty with
        | false => rfl
        | true =>
          rw [String.isEmpty_iff.1 hf] at hblank
          exact absurd rfl hblank
      · exact .done (.of_terms rfl 1)
  split
  · exact .done (.of_terms rfl 1)
  · exact .done (.of_terms rfl 1)

theorem progress_symbol (c : Char) (now : Nat) (ed : Editor) :
    Progress .symbol ed (Handler.symbol.handle c now ed) := by
  simp only [Handler.handle]
  split
  · exact .done (.of_terms rfl 1)
  split
  · exact .done (appends_pushTerm ed _)
  · exact .done (.of_terms rfl 1)
  split
  · rename_i symbol kind hs
    refine .pushTerm ?_ _
    cases hf : ed.fragment.isEmpty with
    | false => rfl
    | true =>
      rw [String.isEmpty_iff.1 hf, Expect.exactSymbol?_empty] at hs
      cases hs
  · exact .done (.of_terms rfl 1)

theorem Handler.progress (h : Handler) (c : Char) (now : Nat) (ed : Editor) :
    Progress h ed (h.handle c now ed) := by
  cases h with
  | freeText => exact progress_freeText c now ed
  | symbol => exact progress_symbol c now ed

/-! ### A whole keystroke -/

/-- The hand-overs come to an end. -/
theorem exists_handled (c : Char) (now : Nat) (h : Handler) (ed : Editor) :
    ∃ n ed', Handled c now h ed n ed' ∧ n ≤ h.rank ed ∧ Appends ed.room ed ed' := by
  induction hr : h.rank ed using Nat.strongRecOn generalizing h ed with
  | ind r ih =>
    subst hr
    obtain ⟨⟨m, H, hm⟩, hlt⟩ := h.progress c now ed
    cases hnext : h.handle c now ed with
    | mk next ed' =>
      rw [hnext] at H hm hlt
      cases next with
      | none => exact ⟨0, ed', .done hnext, Nat.zero_le _, H.mono hm⟩
      | some h' =>
        have hlt := hlt h' rfl
        obtain ⟨n, ed'', H', hn, happ⟩ := ih _ hlt h' ed' rfl
        exact ⟨n + 1, ed'', .passed hnext H', Nat.lt_of_le_of_lt hn hlt, (H.trans happ).mono hm⟩

/-- The editor that each handler ends with. -/
def Handler.outcome (c : Char) (now : Nat) (ed : Editor) : Handler → Editor
  | .freeText => ed.typeChar c now
  | .symbol =>
    if ed.fragment.isEmpty then if isBlank c then ed else ed.beginSymbol c now
    else ed.continueSymbol c now

/-- The editor at the end, after one hand-over or none. -/
def finish (c : Char) (now : Nat) : Option Handler × Editor → Editor
  | (some h, ed) => h.outcome c now ed
  | (none, ed) => ed

theorem finish_delimiter (hk : ed.expect.freeText?.isNone = false)
    (hc : delimiters.contains c = true) :
    finish c now (Handler.freeText.handle c now ed) = ed.typeChar c now := by
  have hsome : ed.expect.freeText?.isSome = true := by rwa [Option.isNone_eq_false_iff] at hk
  have hblank : isBlank c = false := not_isBlank_of_mem_delimiters (by simpa using hc)
  cases hf : ed.fragment.isEmpty with
  | true =>
    -- Nothing is there that the delimiter could commit.
    have hempty : ed.fragment = "" := String.isEmpty_iff.1 hf
    have htrim : (trim ed.fragment.toList).isEmpty = true := by rw [hempty]; rfl
    have hed : { ed with fragment := "" } = ed := by rw [← hempty]
    simp only [Handler.handle, typeChar, beginTerm, hk, hc, hf, hsome, hblank, htrim, hed, finish,
      Handler.outcome, Bool.not_true, Bool.and_false, Bool.false_eq_true, if_false, if_true]
  | false =>
    simp only [Handler.handle, typeChar, hk, hc, hf, Bool.false_eq_true, if_false, if_true]
    split
    · exact if_neg (Bool.eq_false_iff.1 hblank)
    · rw [endFreeText]
      cases hcommit : ed.commitFreeText? with
      | none => rfl
      | some ed' =>
        obtain ⟨kind, -, rfl⟩ := exists_of_commitFreeText? hcommit
        rfl

theorem finish_freeText (c : Char) (now : Nat) (ed : Editor) :
    finish c now (Handler.freeText.handle c now ed) = ed.typeChar c now := by
  cases hk : ed.expect.freeText?.isNone with
  | true =>
    have hsome : ed.expect.freeText?.isSome = false := by rwa [Option.isSome_eq_false_iff]
    simp only [Handler.handle, typeChar, beginTerm, hk, hsome, finish, Handler.outcome,
      Bool.false_and, Bool.false_eq_true, if_false, if_true]
  | false =>
    cases hc : delimiters.contains c with
    | true => exact finish_delimiter hk hc
    | false =>
      have hsome : ed.expect.freeText?.isSome = true := by rwa [Option.isNone_eq_false_iff] at hk
      cases hf : ed.fragment.isEmpty with
      | true =>
        have hpush : ed.fragment.push c = c.toString := by rw [String.isEmpty_iff.1 hf]; rfl
        simp only [Handler.handle, typeChar, beginTerm, hk, hc, hf, hsome, hpush, Bool.and_true,
          Bool.not_false, Bool.false_eq_true, if_false, if_true]
        split <;> rfl
      | false =>
        simp only [Handler.handle, typeChar, hk, hc, hf, Bool.and_false, Bool.false_eq_true,
          if_false, finish]

theorem finish_symbol (c : Char) (now : Nat) (ed : Editor) :
    finish c now (Handler.symbol.handle c now ed) = Handler.symbol.outcome c now ed := by
  cases hf : ed.fragment.isEmpty with
  | true =>
    have hpush : ed.fragment.push c = c.toString := by rw [String.isEmpty_iff.1 hf]; rfl
    have hexact : exactSymbol? ed.fragment (ed.expect.symbols ed.openGroups) = none := by
      rw [String.isEmpty_iff.1 hf, Expect.exactSymbol?_empty]
    simp only [Handler.handle, Handler.outcome, beginSymbol, hf, hpush, hexact, Bool.and_true,
      if_true]
    split
    · rfl
    · cases matchSymbol c.toString (ed.expect.symbols ed.openGroups) <;> rfl
  | false =>
    simp only [Handler.handle, Handler.outcome, continueSymbol, hf, Bool.and_false,
      Bool.false_eq_true, if_false]
    cases matchSymbol (ed.fragment.push c) (ed.expect.symbols ed.openGroups) with
    | exact s => rfl
    | partially => rfl
    | none =>
      cases exactSymbol? ed.fragment (ed.expect.symbols ed.openGroups) with
      | none => rfl
      | some s => rfl

theorem finish_handle (h : Handler) (c : Char) (now : Nat) (ed : Editor) :
    finish c now (h.handle c now ed) = h.outcome c now ed := by
  cases h with
  | freeText => exact finish_freeText c now ed
  | symbol => exact finish_symbol c now ed

theorem Handled.eq_outcome (H : Handled c now h ed n ed') : ed' = h.outcome c now ed := by
  induction H with
  | @done h ed ed' hh => rw [← finish_handle h, hh]; rfl
  | @passed h h' ed ed' ed'' n hh _ ih => rw [ih, ← finish_handle h, hh]; rfl

/-- **A typed character** is handed over three times at most, whatever the editor holds. All terms
stay, and no more than two are added behind them. -/
theorem typeChar_terminates (ed : Editor) (c : Char) (now : Nat) :
    (∃ n ≤ 3, Handled c now .freeText ed n (ed.typeChar c now)) ∧
      ∃ us : List Token, us.length ≤ 2 ∧
        (ed.typeChar c now).terms.tokens.map Token.face =
          (ed.terms.tokens ++ us).map Token.face := by
  obtain ⟨n, ed', H, hn, happ⟩ := exists_handled c now .freeText ed
  obtain rfl := H.eq_outcome
  have hrank : Handler.freeText.rank ed ≤ 3 := by
    rw [Handler.rank]
    split <;> decide
  have hroom : ed.room ≤ 2 := by
    rw [room]
    split <;> decide
  exact ⟨⟨n, hn.trans hrank, H⟩, happ.mono hroom⟩

end Editor
end FilterQuery
