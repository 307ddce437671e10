import FilterQuery.Proofs.Query.Beginning
import FilterQuery.Proofs.Rule.Depth
import FilterQuery.Proofs.Rule.Naming
import FilterQuery.Proofs.Rule.Terms
import FilterQuery.Proofs.Term.Editing

/-!
Where terms are located. Terms that come from anywhere are matched with the pieces of the rule that
their text is read as. The text in front of a piece is that of the terms in front, so as long as
terms and pieces match, the positions at which the parts of conditions have been read are those at
which the terms begin.
-/

namespace FilterQuery

open Text Scanner

/-! ### Pieces in a row -/

/-- Pieces that may stand one behind the other; the flag tells whether they stand behind an operand,
or where one may begin. -/
inductive Fragment.Row : Bool → List Fragment → Prop where
  | nil {filled : Bool} : Row filled []
  | negation {fs : List Fragment} : Row false fs → Row false (.negation :: fs)
  | groupOpen {fs : List Fragment} : Row false fs → Row false (.groupOpen :: fs)
  | groupClose {fs : List Fragment} : Row true fs → Row true (.groupClose :: fs)
  | separator {op : Connective} {i : Nat} {fs : List Fragment} : Row false fs →
    Row true (.separator op i :: fs)
  | test {c : Condition} {fs : List Fragment} : c.WellFormed → (∃ set, c.value = .flag set) →
    Row true fs → Row false (.column c :: fs)
  | comparison {c : Condition} {fs : List Fragment} : c.WellFormed →
    (∀ set, c.value ≠ .flag set) → Row true fs →
    Row false (.column c :: .operator c :: .value c :: fs)

theorem Fragment.row_condition {c : Condition} (hc : c.WellFormed) {fs : List Fragment}
    (H : Row true fs) : Row false (c.fragments ++ fs) := by
  obtain ⟨column, op, value, note⟩ := c
  cases value with
  | flag set =>
    have htest := Row.test hc ⟨set, rfl⟩ H
    cases set with
    | true => exact htest
    | false => exact .negation htest
  | _ => exact .comparison hc nofun H

theorem Rule.row_fragments {r : Rule} (hc : ∀ c ∈ r.conditions, c.WellFormed) :
    Fragment.Row false (r.fragments.map Prod.snd) := by
  rw [fragments]
  split <;> rename_i hv
  · exact .nil
  · have H := pieces_of (P := fun fs => ∀ gs, Fragment.Row true gs → Fragment.Row false (fs ++ gs))
      ?_ ?_ ?_ r false ?_ (eq_false_of_ne_true hv)
    · simpa using H [] .nil
    · intro fs gs op i H H' hs hhs
      rw [List.append_assoc]
      exact H _ (.separator (H' hs hhs))
    · exact fun H gs hgs => .negation (H gs hgs)
    · intro fs H gs hgs
      rw [List.append_assoc]
      exact .groupOpen (H _ (.groupClose hgs))
    · exact fun c hmem gs hgs => Fragment.row_condition (hc c hmem) hgs

/-! ### Positions -/

/-- The term has the position `p` if it spells something of a condition, and none otherwise. -/
def Token.StandsAt (p : Nat) (t : Token) : Prop :=
  t.sourceOffset = if (t.path.bind (·.part)).isSome ∧ t.raw ≠ "" then some p else none

namespace TermIndex

open Token

variable {ts : List Token} {t c : Token} {p : Nat}

theorem toList_rawOf_cons (t : Token) (ts : List Token) :
    (rawOf (t :: ts)).toList = t.raw.toList ++ (rawOf ts).toList := by
  simp [rawOf, String.toList_join]

/-- Each term stands behind the text of those in front of it, which begins at `p`. -/
def StandFrom (p : Nat) (ts : List Token) : Prop :=
  ∀ pre t post, ts = pre ++ t :: post → t.StandsAt (p + byteSize (rawOf pre).toList)

theorem StandFrom.nil : StandFrom p [] := by
  intro pre t post h
  simp at h

theorem StandFrom.cons (h : t.StandsAt p) (H : StandFrom (p + byteSize t.raw.toList) ts) :
    StandFrom p (t :: ts) := by
  rintro (_ | ⟨u, pre⟩) t' post he
  · obtain ⟨rfl, -⟩ := List.cons.inj he
    exact h
  · obtain ⟨rfl, hts⟩ := List.cons.inj he
    rw [toList_rawOf_cons, byteSize_append, ← Nat.add_assoc]
    exact H pre t' post hts

theorem StandFrom.detached (p : Nat) (ts : List Token) : StandFrom p (ts.map detach) := by
  induction ts generalizing p with
  | nil => exact .nil
  | cons t ts ih => exact .cons rfl (ih _)

/-! ### Matching -/

theorem sameTerm_iff : sameTerm c t = true ↔ t.word = c.word := by
  rw [sameTerm, Bool.and_eq_true, beq_iff_eq, beq_iff_eq, word, word, Prod.mk.injEq]
  exact and_congr eq_comm eq_comm

/-- The next candidate is matched, or passed over as it has no text; or no more terms are. -/
theorem align_cons_cases (ts : List Token) (c : Token) (cs : List Token) :
    align ts (c :: cs) = ts.map detach ∨
    (∃ t us, ts = t :: us ∧ t.word = c.word ∧
      align ts (c :: cs) =
        { t with path := c.path, sourceOffset := c.sourceOffset } :: align us cs) ∨
    (c.raw = "" ∧ align ts (c :: cs) = align ts cs) := by
  cases ts with
  | nil => exact .inl rfl
  | cons t us =>
    rw [align, List.dropWhile_cons]
    by_cases hs : sameTerm c t = true
    · exact .inr (.inl ⟨t, us, rfl, sameTerm_iff.1 hs, by simp [hs]⟩)
    · by_cases hr : c.raw = ""
      · refine .inr (.inr ⟨hr, ?_⟩)
        rw [align]
        simp [hs, hr]
      · simp [hs, hr]

/-- Terms stand where they do if a candidate that is matched does, and the terms behind it. -/
theorem standFrom_align_cons {cs : List Token} (hc : c.raw ≠ "")
    (H : ∀ us, (rawOf ts).toList = c.raw.toList ++ (rawOf us).toList →
      c.StandsAt p ∧ StandFrom (p + byteSize c.raw.toList) (align us cs)) :
    StandFrom p (align ts (c :: cs)) := by
  rcases align_cons_cases ts c cs with h | ⟨t, us, rfl, hw, h⟩ | ⟨hr, -⟩
  · rw [h]
    exact .detached p ts
  · obtain ⟨-, hr⟩ := Prod.mk.inj hw
    obtain ⟨hstands, H⟩ := H us (hr ▸ toList_rawOf_cons t us)
    rw [h]
    refine .cons ?_ (hr ▸ H)
    rw [StandsAt] at hstands ⊢
    rw [hstands, ← hr]
  · exact absurd hr hc

end TermIndex

/-! ### Positions of pieces -/

theorem Condition.spelling_of_ne {c : Condition} (hv : ∀ set, c.value ≠ .flag set) : c.spelling =
    Percent.encodeChars c.column.toList ++ (c.comparison.spelling ++ c.value.render.toList) := by
  obtain ⟨column, op, value, note⟩ := c
  cases value with
  | flag set => exact absurd rfl (hv set)
  | _ => rfl

/-- The text of a value that is not empty begins with no blank. -/
theorem Value.head_render {v : Value} (hv : ∀ set, v ≠ .flag set) (he : v ≠ .text "")
    (rest : List Char) :
    v.render ≠ "" ∧ ∀ c ∈ (v.render.toList ++ rest).head?, isBlank c = false := by
  obtain ⟨d, ds, hd, hblank⟩ : ∃ d ds, v.render.toList = d :: ds ∧ isBlank d = false := by
    cases v with
    | flag set => exact absurd rfl (hv set)
    | text s =>
      have hcoded : ∀ d ∈ (Value.text s).render.toList, Percent.IsCoded d := fun d hd =>
        Percent.isCoded_of_mem_encodeChars (toList_render_text s ▸ hd)
      cases hd : (Value.text s).render.toList with
      | nil =>
        rw [toList_render_text, Percent.encodeChars_eq_nil, String.toList_eq_nil_iff] at hd
        exact absurd (congrArg Value.text hd) he
      | cons d ds => exact ⟨d, ds, rfl, (hcoded d (hd ▸ List.mem_cons_self)).not_isBlank⟩
    | list items => exact ⟨_, _, toList_render_list items, by decide⟩
  refine ⟨fun hr => ?_, fun c hc => ?_⟩
  · rw [hr] at hd
    cases hd
  · rw [hd] at hc
    exact Option.some.inj hc ▸ hblank

theorem Condition.note_upright (c : Condition) : c.upright.note = c.note := by
  obtain ⟨column, op, value, note⟩ := c
  cases value <;> rfl

namespace TermIndex

open Token

variable {ts cs : List Token} {conditions : List Condition} {p : Nat} {filled filled' : Bool}

/-- The conditions are those that come next in the text, unless it goes on where a unit has to end.
-/
def Ahead (filled : Bool) (conditions : List Condition) (p : Nat) (text : List Char) : Prop :=
  filled = false ∨ UnitEnd text →
    conditions.map Condition.upright <+: (⟨p, text⟩ : Scanner).flatPass.1

/-- A mark is passed over. Behind an operand it can only be one that ends a unit. -/
theorem standFrom_align_mark {f : Fragment} {path : Path} {c : Char} (hraw : f.raw.toList = [c])
    (hc : isFiller c = true) (hf : filled = false ∨ c ∈ ['&', '|', ')'])
    (hmark : (f.token path).StandsAt p) (ha : Ahead filled conditions p (rawOf ts).toList)
    (ih : ∀ {us q}, Ahead filled' conditions q (rawOf us).toList → StandFrom q (align us cs)) :
    StandFrom p (align ts (f.token path :: cs)) := by
  have hraw : (f.token path).raw.toList = [c] := by rw [Rule.raw_token, hraw]
  refine standFrom_align_cons (fun he => ?_) fun us hus => ⟨hmark, ih fun _ => ?_⟩
  · rw [he] at hraw
    cases hraw
  · rw [hraw, List.singleton_append] at hus
    have hpass := flatPass_fst_of_peek (s := ⟨p, c :: (rawOf us).toList⟩) rfl
    rw [hc, if_pos rfl] at hpass
    rw [hraw, byteSize_cons, byteSize_nil, Nat.add_zero]
    rw [hus] at ha
    refine hpass ▸ ha (hf.imp_right fun hc d hd => ?_)
    obtain rfl := Option.some.inj hd
    exact hc

/-- A column is where it has been read, and what is read there is the condition. -/
theorem standFrom_align_column {c : Condition} {path : Path} (hc : c.WellFormed)
    (ha : Ahead false (c :: conditions) p (rawOf ts).toList)
    (ih : ∀ us, (rawOf ts).toList = Percent.encodeChars c.column.toList ++ (rawOf us).toList →
      (⟨p, (rawOf ts).toList⟩ : Scanner).readUnit.1 = some c.upright →
        StandFrom (p + byteSize (Percent.encodeChars c.column.toList)) (align us cs)) :
    StandFrom p (align ts ((Fragment.column c).token path :: cs)) := by
  have hraw : ((Fragment.column c).token path).raw.toList = Percent.encodeChars c.column.toList :=
    String.toList_ofList
  have hne : ((Fragment.column c).token path).raw ≠ "" := by
    intro he
    rw [he] at hraw
    exact hc.column_ne (by simpa using hraw.symm)
  refine standFrom_align_cons hne fun us hus => ?_
  rw [hraw] at hus ⊢
  obtain ⟨d, hread, hcolumn, hpass⟩ := flatPass_column hc.column_ne (rawOf us).toList p
  rw [← hus] at hread hpass
  have hahead := ha (.inl rfl)
  rw [hpass, List.map_cons, List.cons_prefix_cons] at hahead
  obtain ⟨rfl, -⟩ := hahead
  refine ⟨?_, ih us hus hread⟩
  rw [Condition.note_upright] at hcolumn
  exact hcolumn.trans (if_pos ⟨rfl, hne⟩).symm

/-- Behind a condition the next one comes, if its unit ends there. -/
theorem Ahead.behind {c : Condition} (hc : c.WellFormed) {text rest : List Char}
    (ha : Ahead false (c :: conditions) p text) (ht : text = c.spelling ++ rest) :
    Ahead true conditions (p + byteSize c.spelling) rest := by
  rintro (hf | hend)
  · cases hf
  · have hahead := ha (.inl rfl)
    rw [ht, flatPass_spelling hc hend, List.map_cons, List.cons_prefix_cons] at hahead
    exact hahead.2

/-- A value is where it has been read, and may be passed over if it is empty. -/
theorem standFrom_align_value {c : Condition} {path : Path}
    (hv : ∀ set, c.value ≠ .flag set)
    (hnote : c.note.value = if c.value = .text "" then none
      else some (⟨p, (rawOf ts).toList⟩ : Scanner).skipBlanks.position)
    (ih : ∀ us, (rawOf ts).toList = c.value.render.toList ++ (rawOf us).toList →
      StandFrom (p + byteSize c.value.render.toList) (align us cs)) :
    StandFrom p (align ts ((Fragment.value c).token path :: cs)) := by
  rcases align_cons_cases ts ((Fragment.value c).token path) cs with
    h | ⟨t, us, rfl, hw, h⟩ | ⟨hr, h⟩
  · rw [h]
    exact .detached p ts
  · have hraw : t.raw = c.value.render := (Prod.mk.inj hw).2
    rw [toList_rawOf_cons, hraw] at hnote ih
    rw [h]
    refine .cons ?_ (hraw ▸ ih us rfl)
    refine hnote.trans ?_
    by_cases he : c.value = .text ""
    · have hr : t.raw = "" := by
        rw [hraw, he]
        decide
      rw [if_pos he]
      exact (if_neg fun h => h.2 hr).symm
    · obtain ⟨hne, hblank⟩ := Value.head_render hv he (rawOf us).toList
      rw [if_neg he, skipBlanks_eq hblank]
      exact (if_pos ⟨rfl, hraw ▸ hne⟩).symm
  · have hr : c.value.render = "" := hr
    rw [h]
    simpa [hr] using ih ts

/-- **Matched terms stand where they have been read.** -/
theorem standFrom_align {fs : List Fragment} (H : Fragment.Row filled fs)
    {gs : List (Path × Fragment)} (hgs : gs.map Prod.snd = fs)
    (ha : Ahead filled (fs.filterMap Fragment.column?) p (rawOf ts).toList) :
    StandFrom p (align ts (gs.map fun (path, f) => f.token path)) := by
  induction H generalizing gs ts p with
  | nil =>
    obtain rfl : gs = [] := by simpa using hgs
    cases ts with
    | nil => exact .nil
    | cons t ts => exact .detached p (t :: ts)
  | negation _ ih =>
    obtain ⟨⟨path, f⟩, gs, rfl, rfl, htail⟩ := List.map_eq_cons_iff.1 hgs
    exact standFrom_align_mark (c := '!') rfl rfl (.inl rfl) rfl ha (ih htail)
  | groupOpen _ ih =>
    obtain ⟨⟨path, f⟩, gs, rfl, rfl, htail⟩ := List.map_eq_cons_iff.1 hgs
    exact standFrom_align_mark (c := '(') rfl rfl (.inl rfl) rfl ha (ih htail)
  | groupClose _ ih =>
    obtain ⟨⟨path, f⟩, gs, rfl, rfl, htail⟩ := List.map_eq_cons_iff.1 hgs
    exact standFrom_align_mark (c := ')') rfl rfl (.inr (by decide)) rfl ha (ih htail)
  | @separator op i fs _ ih =>
    obtain ⟨⟨path, f⟩, gs, rfl, rfl, htail⟩ := List.map_eq_cons_iff.1 hgs
    refine standFrom_align_mark (c := op.separator) ?_ ?_ (.inr ?_) rfl ha (ih htail)
    · simp [Fragment.raw]
    · cases op <;> rfl
    · cases op <;> decide
  | @test c fs hc hv _ ih =>
    obtain ⟨⟨path, f⟩, gs, rfl, rfl, htail⟩ := List.map_eq_cons_iff.1 hgs
    obtain ⟨set, hv⟩ := hv
    have hs : c.spelling = Percent.encodeChars c.column.toList := by
      rw [Condition.spelling, hv, List.append_nil]
    refine standFrom_align_column hc ha fun us hus _ => ?_
    rw [← hs] at hus ⊢
    exact ih htail (ha.behind hc hus)
  | @comparison c fs hc hv _ ih =>
    obtain ⟨⟨path, f⟩, gs, rfl, rfl, hgs'⟩ := List.map_eq_cons_iff.1 hgs
    obtain ⟨⟨path', f⟩, gs, rfl, rfl, hgs''⟩ := List.map_eq_cons_iff.1 hgs'
    obtain ⟨⟨path'', f⟩, gs, rfl, rfl, htail⟩ := List.map_eq_cons_iff.1 hgs''
    refine standFrom_align_column hc ha fun us hus hread => ?_
    have hraw : ((Fragment.operator c).token path').raw.toList = c.comparison.spelling :=
      String.toList_ofList
    have hne : c.comparison.symbol ≠ "" := by cases c.comparison <;> decide
    refine standFrom_align_cons hne fun us' hus' => ?_
    rw [hraw] at hus' ⊢
    rw [Condition.upright_of_ne (hv false), hus, hus'] at hread
    obtain ⟨hoperator, hvalue⟩ := note_of_readUnit hc.column_ne hread
    refine ⟨hoperator.trans (if_pos ⟨rfl, hne⟩).symm, ?_⟩
    refine standFrom_align_value hv hvalue fun us'' hus'' => ?_
    have hs : c.spelling = Percent.encodeChars c.column.toList ++
        (c.comparison.spelling ++ c.value.render.toList) := c.spelling_of_ne hv
    have ht : (rawOf ts).toList = c.spelling ++ (rawOf us'').toList := by
      simp [hus, hus', hus'', hs]
    have hbehind := ha.behind hc ht
    rw [hs, byteSize_append, byteSize_append, ← Nat.add_assoc, ← Nat.add_assoc] at hbehind
    exact ih htail hbehind

theorem standFrom_locate (ts : List Token) : StandFrom 0 (locate ts) := by
  have hc : ∀ c ∈ (Rule.parseLenient (rawOf ts)).1.conditions, c.WellFormed := by
    obtain ⟨_, -, hp, -⟩ := Rule.exists_parse_parseLenient (rawOf ts)
    exact Rule.wellFormed_of_parse hp
  refine standFrom_align (Rule.row_fragments hc) rfl fun _ => ?_
  rw [List.filterMap_map, show List.filterMap (Fragment.column? ∘ Prod.snd) _ = _ from
    Rule.columnsOf_fragments (Rule.parseLenient (rawOf ts)).1]
  exact Rule.units_parseLenient (rawOf ts)

theorem standsAt_of_locate {pre post : List Token} {t : Token} (h : locate ts = pre ++ t :: post) :
    t.StandsAt (rawOf pre).utf8ByteSize := by
  have H := standFrom_locate ts pre t post h
  rwa [Nat.zero_add, ← utf8ByteSize_ofList, String.ofList_toList] at H

/-! ### Nodes of terms -/

/-- The terms that are matched come first, each with the node of a candidate that says the same. -/
theorem exists_align (ts cs : List Token) : ∃ pre post, align ts cs = pre ++ post ∧
    (∀ t ∈ pre, ∃ c ∈ cs, t.word = c.word ∧ t.path = c.path) ∧ ∀ t ∈ post, t.path = none := by
  induction cs generalizing ts with
  | nil =>
    refine ⟨[], ts.map detach, ?_, List.forall_mem_nil _, by simp [detach]⟩
    cases ts <;> rfl
  | cons c cs ih =>
    rcases align_cons_cases ts c cs with h | ⟨t, us, rfl, hw, h⟩ | ⟨-, h⟩
    · exact ⟨[], ts.map detach, h, List.forall_mem_nil _, by simp [detach]⟩
    · obtain ⟨pre, post, ha, hpre, hpost⟩ := ih us
      refine ⟨_ :: pre, post, by rw [h, ha, List.cons_append], ?_, hpost⟩
      refine List.forall_mem_cons.2 ⟨⟨c, List.mem_cons_self, hw, rfl⟩, fun t ht => ?_⟩
      obtain ⟨d, hd, H⟩ := hpre t ht
      exact ⟨d, List.mem_cons_of_mem c hd, H⟩
    · obtain ⟨pre, post, ha, hpre, hpost⟩ := ih ts
      refine ⟨pre, post, h.trans ha, fun t ht => ?_, hpost⟩
      obtain ⟨d, hd, H⟩ := hpre t ht
      exact ⟨d, List.mem_cons_of_mem c hd, H⟩

theorem exists_path_token (f : Fragment) (path : Path) :
    ∃ part, (f.token path).path = some ⟨path, part⟩ := by
  cases f <;> exact ⟨_, rfl⟩

/-- The term is a piece of the rule, and the path names the node that it is a piece of. -/
def IsPiece (r : Rule) (t : Token) (path : TermPath) : Prop :=
  ∃ f node, (path.rule, f) ∈ r.fragments ∧ r.get? path.rule = some node ∧ f.Spells node ∧
    (f.token path.rule).word = t.word ∧ (f.token path.rule).path = some path

theorem isPiece_of_mem_terms {r : Rule} {t c : Token} {path : TermPath} (hc : c ∈ r.terms)
    (hw : t.word = c.word) (hp : c.path = some path) : IsPiece r t path := by
  obtain ⟨⟨p, f⟩, hf, rfl⟩ := List.mem_map.1 hc
  obtain ⟨node, hnode, H⟩ := Rule.spells_of_mem_fragments hf
  obtain ⟨part, hpart⟩ := exists_path_token f p
  obtain rfl : ⟨p, part⟩ = path := Option.some.inj (hpart.symm.trans hp)
  exact ⟨f, node, hf, hnode, H, hw.symm, hp⟩

/-- **Terms from anywhere are located truly.** Those that have a node come first, and each of them
is a piece of the rule that is read from the text, at that node. What spells a part of a condition
has the number of bytes in front of it as its position, unless it has no text, and no other term has
a position. -/
theorem located_ofTokens (ts : List Token) :
    let x := ofTokens ts
    (∃ pre post, x.tokens = pre ++ post ∧ (∀ t ∈ pre, t.path ≠ none) ∧
      ∀ t ∈ post, t.path = none) ∧
    (∀ pre t post, x.tokens = pre ++ t :: post → t.StandsAt (rawOf pre).utf8ByteSize) ∧
    ∀ t ∈ x.tokens, ∀ path ∈ t.path, IsPiece (Rule.parseLenient x.raw).1 t path := by
  intro x
  have hraw : x.raw = rawOf (pair ts) := rawOf_congr (map_locate fun _ _ _ => rfl)
  obtain ⟨pre, post, hx, hpre, hpost⟩ :=
    exists_align (pair ts) (Rule.parseLenient x.raw).1.terms
  rw [hraw] at hx
  refine ⟨⟨pre, post, hx, fun t ht hn => ?_, hpost⟩, fun _ _ _ => standsAt_of_locate,
    fun t ht path hp => ?_⟩
  · obtain ⟨c, hc, -, hpath⟩ := hpre t ht
    obtain ⟨⟨p, f⟩, -, rfl⟩ := List.mem_map.1 hc
    obtain ⟨part, hpart⟩ := exists_path_token f p
    rw [hn, hpart] at hpath
    cases hpath
  · rw [show x.tokens = _ from hx] at ht
    rcases List.mem_append.1 ht with ht | ht
    · obtain ⟨c, hc, hw, hpath⟩ := hpre t ht
      exact isPiece_of_mem_terms hc hw (hpath ▸ hp)
    · rw [hpost t ht] at hp
      cases hp

/-- An empty value is no hindrance; a parenthesis that nothing opened and what is behind it is. -/
example : ((ofTokens [.freeText .column "é", .symbol .operator ">=", .freeText .value "",
      .symbol .logical "&", .symbol .logical "!", .freeText .column "b", .symbol .groupClose ")",
      .freeText .column "c"]).tokens.map fun t => (t.raw, t.path.map (·.rule), t.sourceOffset)) =
    [("%C3%A9", some [0], some 0), (">=", some [0], some 6), ("", some [0], none),
      ("&", some [], none), ("!", some [1], none), ("b", some [1], some 10), (")", none, none),
      ("c", none, none)] := by
  decide +kernel

end TermIndex
end FilterQuery
