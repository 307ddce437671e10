import FilterQuery.Proofs.Text.Split
import FilterQuery.Rule.Directive
import Mathlib.Data.List.Basic

/-!
The text of an edit, read again. Arguments that are accepted spell edits which have a text: their
paths are numbers of 64 bits, and what they insert is the payload, as a chain or as it is. The text
of such an edit, cut at its space, is read as the edit itself.
-/

namespace FilterQuery

open Text

/-! ### Paths -/

namespace Path

variable {p : Path} {cs : List Char} {c : Char}

/-- All indices are numbers of 64 bits. -/
def Worded (p : Path) : Prop := ∀ i ∈ p, i ≤ maxWord

theorem toList_toText (p : Path) :
    p.toText.toList = ['-'].intercalate (p.map (Nat.toDigits 10)) := by
  rw [toText, String.toList_intercalate, List.map_map]
  refine congrArg (List.intercalate ['-']) (List.map_congr_left fun i _ => ?_)
  exact Nat.toList_repr

/-- A path is written with digits and dashes alone. -/
theorem mem_toText (h : c ∈ p.toText.toList) : c = '-' ∨ c.isDigit = true := by
  rw [toList_toText] at h
  induction p with
  | nil => cases h
  | cons i p ih =>
    cases p with
    | nil =>
      rw [List.map_singleton, List.intercalate_singleton] at h
      exact .inr (isDigit_of_mem_toDigits h)
    | cons j p =>
      rw [List.map_cons, List.map_cons, List.intercalate_cons_cons, List.append_assoc,
        List.mem_append, List.mem_append] at h
      rcases h with h | h | h
      · exact .inr (isDigit_of_mem_toDigits h)
      · exact .inl (List.mem_singleton.1 h)
      · exact ih h

theorem not_mem_toText (h : c ≠ '-') (hd : c.isDigit = false) (p : Path) :
    c ∉ p.toText.toList := by
  intro hc
  rcases mem_toText hc with rfl | hdigit
  · exact h rfl
  · exact Bool.false_ne_true (hd.symm.trans hdigit)

theorem mapM_readWord? (H : p.Worded) : (p.map (Nat.toDigits 10)).mapM readWord? = some p := by
  induction p with
  | nil => rfl
  | cons i p ih =>
    obtain ⟨hi, hp⟩ := List.forall_mem_cons.1 H
    rw [List.map_cons, List.mapM_cons, readWord?_toDigits hi, ih hp]
    rfl

theorem splitAll_toText (h : p ≠ []) :
    splitAll '-' p.toText.toList = p.map (Nat.toDigits 10) := by
  rw [splitAll_eq_splitOn, toList_toText]
  refine List.splitOn_intercalate '-' (fun ds hds hdash => ?_) (mt List.map_eq_nil_iff.1 h)
  obtain ⟨i, -, rfl⟩ := List.mem_map.1 hds
  exact absurd (isDigit_of_mem_toDigits hdash) (by decide)

theorem toText_ne_nil (h : p ≠ []) : p.toText.toList ≠ [] := by
  intro hnil
  have hsplit := splitAll_toText h
  rw [hnil] at hsplit
  obtain ⟨i, -, hi⟩ := List.mem_map.1 (hsplit ▸ List.mem_cons_self : [] ∈ p.map (Nat.toDigits 10))
  exact Nat.toDigits_ne_nil hi

/-- A path is read back from its text. -/
theorem parse_toText (H : p.Worded) : parse p.toText.toList = .ok p := by
  have hchars : ofChars? p.toText.toList = some p := by
    cases p with
    | nil => rfl
    | cons i q =>
      have hne : i :: q ≠ [] := List.cons_ne_nil i q
      rw [ofChars?, if_neg (mt List.isEmpty_iff.1 (toText_ne_nil hne)), splitAll_toText hne,
        mapM_readWord? H]
  rw [parse, hchars]
  rfl

theorem worded_of_mapM {parts : List (List Char)} (h : parts.mapM readWord? = some p) :
    p.Worded := by
  induction parts generalizing p with
  | nil =>
    obtain rfl := Option.some.inj h
    exact List.forall_mem_nil _
  | cons part parts ih =>
    rw [List.mapM_cons] at h
    obtain ⟨i, hi, h⟩ := Option.bind_eq_some_iff.1 h
    obtain ⟨q, hq, h⟩ := Option.bind_eq_some_iff.1 h
    obtain rfl := Option.some.inj h
    exact List.forall_mem_cons.2 ⟨le_maxWord_of_readWord? hi, ih hq⟩

theorem worded_of_parse (h : parse cs = .ok p) : p.Worded := by
  rw [parse] at h
  split at h
  · rename_i q hq
    obtain rfl := Except.ok.inj h
    rw [ofChars?] at hq
    split at hq
    · obtain rfl := Option.some.inj hq
      exact List.forall_mem_nil _
    · exact worded_of_mapM hq
  · cases h

end Path

/-! ### Words -/

@[simp] theorem Connective.ofWord?_word (op : Connective) : ofWord? op.word = some op := by
  cases op <;> decide

@[simp] theorem Placement.ofName_name (p : Placement) : ofName p.name = .ok p := by
  cases p <;> rfl

namespace Edit

variable {payload : Rule} {e : Edit} {es : List Edit}

/-- Directives spell the edit if `payload` is what they insert. -/
def Spellable (payload : Rule) : Edit → Prop
  | drop path | negate path | setConnective path _ => path.Worded
  | insert path placement rule => path.Worded ∧ placement ≠ .into ∧
    rule = if rule.isChain then payload.asChain else payload
  | move source _ target => source.Worded ∧ target.Worded

/-! ### The text of an edit -/

/-- A directive by its name and what follows the colon. -/
def directive (name : String) (rest : List Char) : List Char := name.toList ++ ':' :: rest

/-- The directives that spell an edit. -/
def parts : Edit → List (List Char)
  | drop path => [directive "drop-rule" path.toText.toList]
  | insert path placement rule =>
    [directive ((if rule.isChain then "chain-" else "condition-") ++ placement.name)
      path.toText.toList]
  | move source placement target =>
    [directive "move-rule" source.toText.toList, directive placement.name target.toText.toList]
  | negate path => [directive "negate-rule" path.toText.toList]
  | setConnective path op => [directive "chain-operator" (directive path.toText op.word.toList)]

theorem toList_toText (e : Edit) : e.toText.toList = [' '].intercalate e.parts := by
  cases e with
  | drop path =>
    change ("drop-rule:" ++ path.toText).toList = _
    simp [parts, directive]
  | insert path placement rule =>
    change ((if rule.isChain then "chain" else "condition") ++
      ("-" ++ placement.name ++ ":" ++ path.toText)).toList = _
    cases hc : rule.isChain <;> simp [parts, directive, hc]
  | move source placement target =>
    change ("move-rule:" ++ source.toText ++ " " ++ placement.name ++ ":" ++ target.toText).toList =
      _
    simp [parts, directive]
  | negate path =>
    change ("negate-rule:" ++ path.toText).toList = _
    simp [parts, directive]
  | setConnective path op =>
    change ("chain-operator:" ++ path.toText ++ ":" ++ op.word).toList = _
    simp [parts, directive]

theorem not_mem_directive {sep : Char} {name : String} {rest : List Char}
    (hname : sep ∉ name.toList) (hsep : sep ≠ ':') (hrest : sep ∉ rest) :
    sep ∉ directive name rest := by
  simp [directive, hname, hsep, hrest]

/-- Neither a space nor a `+` is part of a directive. -/
theorem not_mem_parts {sep : Char} (hsep : sep = ' ' ∨ sep = '+') (e : Edit) :
    ∀ part ∈ e.parts, sep ∉ part := by
  have hcolon : sep ≠ ':' := by rcases hsep with rfl | rfl <;> decide
  have hpath (path : Path) : sep ∉ path.toText.toList := by
    rcases hsep with rfl | rfl <;> exact Path.not_mem_toText (by decide) (by decide) path
  have hplacement (p : Placement) : sep ∉ p.name.toList := by
    rcases hsep with rfl | rfl <;> cases p <;> decide
  intro part hpart
  cases e with
  | drop path =>
    obtain rfl := List.mem_singleton.1 hpart
    exact not_mem_directive (by rcases hsep with rfl | rfl <;> decide) hcolon (hpath path)
  | insert path placement rule =>
    obtain rfl := List.mem_singleton.1 hpart
    refine not_mem_directive ?_ hcolon (hpath path)
    rw [String.toList_append, List.mem_append, not_or]
    refine ⟨?_, hplacement placement⟩
    cases rule.isChain <;> rcases hsep with rfl | rfl <;> decide
  | move source placement target =>
    rcases List.mem_pair.1 hpart with rfl | rfl
    · exact not_mem_directive (by rcases hsep with rfl | rfl <;> decide) hcolon (hpath source)
    · exact not_mem_directive (hplacement placement) hcolon (hpath target)
  | negate path =>
    obtain rfl := List.mem_singleton.1 hpart
    exact not_mem_directive (by rcases hsep with rfl | rfl <;> decide) hcolon (hpath path)
  | setConnective path op =>
    obtain rfl := List.mem_singleton.1 hpart
    refine not_mem_directive (by rcases hsep with rfl | rfl <;> decide) hcolon ?_
    refine not_mem_directive (hpath path) hcolon ?_
    cases op <;> rcases hsep with rfl | rfl <;> decide

theorem parts_ne_nil (e : Edit) : e.parts ≠ [] := by
  cases e <;> simp [parts]

theorem splitAll_toText (e : Edit) : splitAll ' ' e.toText.toList = e.parts := by
  rw [splitAll_eq_splitOn, toList_toText]
  exact List.splitOn_intercalate ' ' (not_mem_parts (.inl rfl) e) e.parts_ne_nil

/-- The arguments that the text of an edit makes on a command line. -/
def arguments (e : Edit) : List String := (splitAll ' ' e.toText.toList).map String.ofList

/-- No argument is two directives in one. -/
theorem flatMap_splitAll_arguments (e : Edit) :
    (e.arguments.flatMap fun arg => splitAll '+' arg.toList) = e.parts := by
  have hsplit : ∀ part ∈ e.parts, splitAll '+' (String.ofList part).toList = [part] := by
    intro part hpart
    rw [String.toList_ofList, splitAll_of_not_mem (not_mem_parts (.inr rfl) e part hpart)]
  rw [arguments, splitAll_toText, List.flatMap_map, List.flatMap_congr hsplit]
  exact List.flatMap_singleton' _

/-! ### Reading the directives of an edit -/

theorem ofParts_directive {name : String} {arg : List Char} (hname : ':' ∉ name.toList)
    (hmove : name ≠ "move-rule") (he : ofName payload name arg = .ok (some e))
    (rest : List (List Char)) :
    ofParts payload (directive name arg :: rest) = (ofParts payload rest).map (e :: ·) := by
  rw [ofParts, directive, splitFirst?_append hname]
  simp only [String.ofList_toList, if_neg hmove, he]
  cases ofParts payload rest <;> rfl

theorem ofParts_move {source target : Path} (hs : source.Worded) (ht : target.Worded)
    (placement : Placement) (rest : List (List Char)) :
    ofParts payload ((move source placement target).parts ++ rest) =
      (ofParts payload rest).map (move source placement target :: ·) := by
  have hto (cs : List Char) :
      moveTo cs source (directive placement.name target.toText.toList) =
        .ok (move source placement target) := by
    have hname : ':' ∉ placement.name.toList := by cases placement <;> decide
    rw [moveTo, directive, splitFirst?_append hname]
    simp only [String.ofList_toList, Placement.ofName_name, Path.parse_toText ht]
    rfl
  have hname : ':' ∉ "move-rule".toList := by decide
  rw [parts, List.cons_append, List.cons_append, List.nil_append, ofParts,
    directive, splitFirst?_append hname]
  simp only [String.ofList_toList, Path.parse_toText hs]
  change (moveTo _ source _ >>= fun e => ofParts payload rest >>= fun es => pure (e :: es)) = _
  rw [hto]
  cases ofParts payload rest <;> rfl

/-- The name of a directive that inserts tells whether the payload is put in as a chain. -/
theorem ofName_insert {path : Path} {placement : Placement} {rule : Rule}
    (H : (insert path placement rule).Spellable payload) :
    ofName payload ((if rule.isChain then "chain-" else "condition-") ++ placement.name)
      path.toText.toList = .ok (some (insert path placement rule)) := by
  obtain ⟨hp, hplacement, hrule⟩ := H
  cases hc : rule.isChain with
  | false =>
    obtain rfl : rule = payload := by rwa [hc] at hrule
    cases placement with
    | before =>
      change ofName rule "condition-before" _ = _
      rw [ofName, Path.parse_toText hp]
      rfl
    | after =>
      change ofName rule "condition-after" _ = _
      rw [ofName, Path.parse_toText hp]
      rfl
    | into => exact absurd rfl hplacement
  | true =>
    obtain rfl : rule = payload.asChain := by rwa [hc] at hrule
    cases placement with
    | before =>
      change ofName payload "chain-before" _ = _
      rw [ofName, Path.parse_toText hp]
      rfl
    | after =>
      change ofName payload "chain-after" _ = _
      rw [ofName, Path.parse_toText hp]
      rfl
    | into => exact absurd rfl hplacement

/-- The directives of an edit are read as the edit, and then those behind it are read. -/
theorem ofParts_parts (H : e.Spellable payload) (rest : List (List Char)) :
    ofParts payload (e.parts ++ rest) = (ofParts payload rest).map (e :: ·) := by
  cases e with
  | drop path =>
    refine ofParts_directive (by decide) (by decide) ?_ rest
    rw [ofName, Path.parse_toText H]
    rfl
  | insert path placement rule =>
    refine ofParts_directive ?_ ?_ (ofName_insert H) rest
    · cases rule.isChain <;> cases placement <;> decide
    · cases rule.isChain <;> cases placement <;> decide
  | move source placement target => exact ofParts_move H.1 H.2 placement rest
  | negate path =>
    refine ofParts_directive (by decide) (by decide) ?_ rest
    rw [ofName, Path.parse_toText H]
    rfl
  | setConnective path op =>
    refine ofParts_directive (by decide) (by decide) ?_ rest
    have hword : ':' ∉ op.word.toList := by cases op <;> decide
    rw [ofName, directive, splitLast?_append _ hword]
    simp only [String.ofList_toList, Connective.ofWord?_word, Path.parse_toText H]
    rfl

theorem ofParts_flatMap_parts (H : ∀ e ∈ es, e.Spellable payload) :
    ofParts payload (es.flatMap parts) = .ok es := by
  induction es with
  | nil => rfl
  | cons e es ih =>
    obtain ⟨he, hes⟩ := List.forall_mem_cons.1 H
    rw [List.flatMap_cons, ofParts_parts he, ih hes]
    rfl

theorem ofArguments_arguments {payload : Option Rule}
    (H : ∀ e ∈ es, e.Spellable (payload.getD Rule.placeholder)) :
    ofArguments (es.flatMap arguments) payload = .ok es := by
  have hparts : ((es.flatMap arguments).flatMap fun arg => splitAll '+' arg.toList) =
      es.flatMap parts := by
    rw [List.flatMap_assoc]
    exact List.flatMap_congr fun e _ => e.flatMap_splitAll_arguments
  rw [ofArguments, hparts, ofParts_flatMap_parts H]

/-! ### Edits that are spelled -/

/-- A computation in steps succeeds if each step does. -/
theorem exists_of_bind_eq_ok {α β : Type} {x : Except DirectiveError α}
    {f : α → Except DirectiveError β} {b : β} (h : x >>= f = .ok b) :
    ∃ a, x = .ok a ∧ f a = .ok b := by
  cases x with
  | error e => cases h
  | ok a => exact ⟨a, rfl, h⟩

theorem spellable_of_ofName {name : String} {rest : List Char}
    (h : ofName payload name rest = .ok (some e)) : e.Spellable payload := by
  have hplain : payload = if payload.isChain then payload.asChain else payload := by
    cases payload <;> rfl
  have hchain : payload.asChain =
      if payload.asChain.isChain then payload.asChain else payload := by
    cases payload <;> rfl
  unfold ofName at h
  split at h
  -- The directive that sets a connective and the one that is unknown are apart, as they do not read
  -- a path first.
  case h_7 =>
    split at h
    · cases h
    · split at h
      · cases h
      · obtain ⟨path, hp, he⟩ := exists_of_bind_eq_ok h
        cases he
        exact Path.worded_of_parse hp
  case h_8 => cases h
  all_goals
    obtain ⟨path, hp, he⟩ := exists_of_bind_eq_ok h
    have hw := Path.worded_of_parse hp
    cases he
    first
      | exact hw
      | exact ⟨hw, by decide, hplain⟩
      | exact ⟨hw, by decide, hchain⟩

theorem spellable_of_moveTo {source target : List Char} {path : Path} (hw : path.Worded)
    (h : moveTo source path target = .ok e) : e.Spellable payload := by
  rw [moveTo] at h
  split at h
  · cases h
  · obtain ⟨placement, -, h⟩ := exists_of_bind_eq_ok h
    obtain ⟨place, hp, he⟩ := exists_of_bind_eq_ok h
    cases he
    exact ⟨hw, Path.worded_of_parse hp⟩

theorem spellable_of_ofParts {parts : List (List Char)} (h : ofParts payload parts = .ok es) :
    ∀ e ∈ es, e.Spellable payload := by
  fun_induction ofParts payload parts generalizing es with
  | case1 =>
    cases h
    exact List.forall_mem_nil _
  | case2 => cases h
  | case3 part parts name rest _ _ ih =>
    obtain ⟨path, hp, h⟩ := exists_of_bind_eq_ok h
    cases parts with
    | nil => cases h
    | cons target parts =>
      obtain ⟨e, he, h⟩ := exists_of_bind_eq_ok h
      obtain ⟨es', hes, h⟩ := exists_of_bind_eq_ok h
      cases h
      exact List.forall_mem_cons.2 ⟨spellable_of_moveTo (Path.worded_of_parse hp) he, ih hes⟩
  | case4 part parts name rest _ _ ih =>
    obtain ⟨e?, he, h⟩ := exists_of_bind_eq_ok h
    cases e? with
    | none => cases h
    | some e =>
      obtain ⟨es', hes, h⟩ := exists_of_bind_eq_ok h
      cases h
      exact List.forall_mem_cons.2 ⟨spellable_of_ofName he, ih hes⟩

/-- The edit needs no rule to insert, and its paths are numbers of 64 bits. -/
def Bare : Edit → Prop
  | drop path | negate path | setConnective path _ => path.Worded
  | insert .. => False
  | move source _ target => source.Worded ∧ target.Worded

theorem Bare.spellable (H : e.Bare) (payload : Rule) : e.Spellable payload := by
  cases e with
  | insert path placement rule => exact H.elim
  | _ => exact H

/-- **Edits are read back from their text**, whatever arguments they come from; and if they insert
nothing, whatever their paths are. So is a path by itself. -/
theorem ofArguments_toText (payload : Option Rule) :
    (∀ args es, ofArguments args payload = .ok es →
      ofArguments (es.flatMap arguments) payload = .ok es) ∧
    (∀ es : List Edit, (∀ e ∈ es, e.Bare) → ofArguments (es.flatMap arguments) payload = .ok es) ∧
    ∀ p : Path, p.Worded → Path.parse p.toText.toList = .ok p := by
  refine ⟨fun args es h => ?_, fun es H => ?_, fun p => Path.parse_toText⟩
  · exact ofArguments_arguments (spellable_of_ofParts h)
  · exact ofArguments_arguments fun e he => (H e he).spellable _

/-- Arguments that are joined or spelled in another way, and an index that is as large as can be. -/
theorem ofArguments_toText_joined : ∃ payload : Option Rule, ∃ args es, ∃ p : Path,
    (ofArguments args payload = .ok es ∧ ofArguments (es.flatMap arguments) payload = .ok es) ∧
    args = ["move-rule:0-01+after:", "chain-operator:7:&", "condition-before:2"] ∧
    es.flatMap arguments =
      ["move-rule:0-1", "after:", "chain-operator:7:and", "chain-before:2"] ∧
    ((∀ e ∈ [negate p], e.Bare) ∧
      ofArguments ([negate p].flatMap arguments) payload = .ok [negate p]) ∧
    (p.Worded ∧ Path.parse p.toText.toList = .ok p) ∧
    p.toText = "18446744073709551615" := by
  let payload : Option Rule := some (.chain .any [.test "a" true, .test "b" true])
  let args := ["move-rule:0-01+after:", "chain-operator:7:&", "condition-before:2"]
  have hargs : (ofArguments args payload).toOption.map (·.flatMap arguments) =
      some ["move-rule:0-1", "after:", "chain-operator:7:and", "chain-before:2"] := by
    decide +kernel
  have hp : Path.Worded [maxWord] := fun i hi => Nat.le_of_eq (List.mem_singleton.1 hi)
  have hbare : ∀ e ∈ [negate [maxWord]], e.Bare := fun e he => List.mem_singleton.1 he ▸ hp
  obtain ⟨hread, hlist, hpath⟩ := ofArguments_toText payload
  cases he : ofArguments args payload with
  | error e =>
    rw [he] at hargs
    cases hargs
  | ok es =>
    rw [he] at hargs
    exact ⟨payload, args, es, [maxWord], ⟨he, hread args es he⟩, rfl, Option.some.inj hargs,
      ⟨hbare, hlist _ hbare⟩, ⟨hp, hpath _ hp⟩, by decide +kernel⟩

end Edit
end FilterQuery
