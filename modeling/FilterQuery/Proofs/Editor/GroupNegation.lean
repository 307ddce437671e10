import FilterQuery.Editor.Terms
import FilterQuery.Proofs.Editor.Opening
import FilterQuery.Proofs.Rule.Turning
import FilterQuery.Proofs.Term.Reindexing

/-!
Groups that are negated in an editor. The editor of a normal rule puts a `!` in front of the group
or takes it away, and reads its terms anew; what it then stands for is the rule in which the node of
the `!`, or of the group if there was none, has been negated.
-/

namespace FilterQuery

open Text

namespace Token

/-- The node that a term spells. -/
def node? (t : Token) : Option Path := t.path.map (·.rule)

theorem node?_token (f : Fragment) (path : Path) : (f.token path).node? = some path := by
  cases f <;> rfl

end Token

open Token

/-- The terms of pieces. -/
def termsOf (fs : List (Path × Fragment)) : List Token := fs.map fun (path, f) => f.token path

theorem node?_termsOf (fs : List (Path × Fragment)) :
    (termsOf fs).map node? = fs.map (some ·.1) := by
  rw [termsOf, List.map_map]
  exact List.map_congr_left fun p _ => node?_token p.2 p.1

/-- Terms with the kinds and texts of pieces have their text. -/
theorem rawOf_of_word {ts : List Token} {fs : List (Path × Fragment)}
    (h : ts.map word = (termsOf fs).map word) : (TermIndex.rawOf ts).toList = textOf fs := by
  rw [TermIndex.rawOf_congr h, TermIndex.rawOf, String.toList_join, List.flatMap_map, termsOf,
    List.flatMap_map, textOf]
  exact List.flatMap_congr fun p _ => congrArg String.toList (Rule.raw_token p.2 p.1)

theorem TermIndex.rulePathAt?_eq (x : TermIndex) (i : Nat) :
    x.rulePathAt? i = (x.tokens.map node?)[i]?.join := by
  rw [rulePathAt?, List.getElem?_map]
  cases x.tokens[i]? <;> rfl

namespace Editor

variable {r : Rule} {path : Path} {pre post : List (Path × Fragment)}

/-! ### The editor of a rule -/

/-- The terms find their nodes in the rule that the text is read as, which is the same. -/
theorem node?_ofRule (H : r.Normal) (hm : maxOpen r.render ≤ maxNesting) :
    (ofRule r).terms.tokens.map node? = r.terms.map node? := by
  obtain ⟨r', -, hs, hplace⟩ := TermIndex.exists_locate (.inr H) hm
  have hnode (ts : List Token) : ts.map node? = (ts.map place).map fun p => p.1.map (·.rule) := by
    rw [List.map_map]
    rfl
  have hbare (f : Fragment) (path : Path) : (f.bare.token path).node? = (f.token path).node? := by
    rw [node?_token, node?_token]
  rw [hnode, show (ofRule r).terms.tokens.map place = _ from hplace, ← hnode, hs.map_terms hbare]

/-- The path of a term is that of its piece. -/
theorem rulePathAt?_ofRule (H : r.Normal) (hm : maxOpen r.render ≤ maxNesting) (i : Nat) :
    (ofRule r).terms.rulePathAt? i = r.fragments[i]?.map (·.1) := by
  rw [TermIndex.rulePathAt?_eq, node?_ofRule H hm, show r.terms = termsOf r.fragments from rfl,
    node?_termsOf, List.getElem?_map]
  cases r.fragments[i]? <;> rfl

/-! ### Groups -/

theorem isNegation_token (f : Fragment) (path : Path) :
    isNegation (f.token path) = decide (f = .negation) := by
  cases f with
  | separator op i => cases op <;> rfl
  | _ => rfl

theorem fragment_of_groupOpen {f : Fragment} {path : Path} (h : (f.token path).kind = .groupOpen) :
    f = .groupOpen := by
  cases f with
  | groupOpen => rfl
  | _ => cases h

theorem isNegation_congr {t u : Token} (h : t.word = u.word) : isNegation t = isNegation u := by
  obtain ⟨hk, hr⟩ := Prod.mk.inj h
  rw [isNegation, isNegation, hk, hr]

section
variable {ed : Editor} {ts : List Token} {t : Token} {i : Nat}

theorem map_word_getElem? {fs : List (Path × Fragment)}
    (h : ts.map word = (termsOf fs).map word) (i : Nat) :
    ts[i]?.map word = fs[i]?.map fun p => (p.2.token p.1).word := by
  have hi := congrArg (·[i]?) h
  simp only [termsOf, List.getElem?_map, Option.map_map] at hi
  exact hi

theorem negatedBefore_append_singleton {fs : List (Path × Fragment)} {p : Path × Fragment}
    (h : ts.map word = (termsOf (fs ++ [p] ++ post)).map word) :
    negatedBefore ts (fs ++ [p]).length = decide (p.2 = .negation) := by
  have hp : (fs ++ [p] ++ post)[fs.length]? = some p := by simp
  have hword := map_word_getElem? h fs.length
  rw [hp, Option.map_some] at hword
  obtain ⟨t, ht, hword⟩ := Option.map_eq_some_iff.1 hword
  rw [List.length_append, List.length_singleton, negatedBefore, ht, Option.any_some,
    isNegation_congr hword, isNegation_token]

theorem negatedBefore_of_upright (h : ts.map word = (termsOf (pre ++ post)).map word)
    (hu : Upright pre) : negatedBefore ts pre.length = false := by
  rcases List.eq_nil_or_concat' pre with rfl | ⟨fs, ⟨q, f⟩, rfl⟩
  · rfl
  · rw [negatedBefore_append_singleton h]
    refine decide_eq_false fun hf => hu q ?_
    obtain rfl : f = .negation := hf
    exact List.getLast?_concat

theorem negateGroup?_eq (ht : ed.terms.tokens[i]? = some t) (hk : t.kind = .groupOpen) :
    ed.negateGroup? i =
      let (change, terms) :=
        if negatedBefore ed.terms.tokens i then (ed.terms.splice (i - 1) i []).2
        else ed.terms.insert i (.symbol .logical "!")
      some (change, ed.record change terms) := by
  obtain ⟨kind, raw, label, path, offset, counterpart⟩ := t
  obtain rfl : kind = .groupOpen := hk
  rw [negateGroup?, ht]

/-- The node that is negated is that of the `!`, or of the group without one. -/
theorem path_turn
    (hw : ts.map word = (termsOf (pre ++ (path, .groupOpen) :: post)).map word) :
    (pre ++ (path, Fragment.groupOpen) :: post)[
        if negatedBefore ts pre.length then pre.length - 1 else pre.length]?.map (·.1) =
      some (turn path pre).1 := by
  rcases upright_or_negation pre with hu | ⟨q, fs, rfl⟩
  · rw [negatedBefore_of_upright hw hu, turn_of_upright hu]
    simp
  · rw [negatedBefore_append_singleton hw, turn_negation]
    simp

/-- Among terms with the kinds and texts of pieces, some give way to terms of other pieces. -/
theorem map_word_splice_termsOf {x : TermIndex} {fs gs : List (Path × Fragment)}
    (h : x.tokens.map word = (termsOf (fs ++ gs ++ post)).map word) (added : List Token)
    (hs : List (Path × Fragment)) (ha : added.map word = (termsOf hs).map word) :
    (x.splice fs.length (fs ++ gs).length added).2.2.tokens.map word =
      (termsOf (fs ++ hs ++ post)).map word := by
  have hlen : x.tokens.length = (fs ++ gs).length + post.length := by
    have hl := congrArg List.length h
    simpa [termsOf, Nat.add_assoc] using hl
  have hstop : min (fs ++ gs).length x.tokens.length = (fs ++ gs).length :=
    Nat.min_eq_left (hlen ▸ Nat.le_add_right ..)
  have hstart : min fs.length (fs ++ gs).length = fs.length :=
    Nat.min_eq_left (List.length_append ▸ Nat.le_add_right ..)
  rw [TermIndex.map_word_splice, hstop, hstart, List.map_append, List.map_append, List.map_take,
    List.map_drop, h, ha]
  simp [termsOf, List.drop_append]

/-- The editor holds the text of the pieces with the group negated. -/
theorem query_negateGroup
    (hw : ed.terms.tokens.map word = (termsOf (pre ++ (path, .groupOpen) :: post)).map word) :
    ∃ change ed', ed.negateGroup? pre.length = some (change, ed') ∧
      ed'.query.toList = textOf ((turn path pre).2 ++ (path, .groupOpen) :: post) := by
  have hopen := map_word_getElem? hw pre.length
  rw [List.getElem?_append_right (Nat.le_refl _), Nat.sub_self] at hopen
  obtain ⟨t, ht, hword⟩ := Option.map_eq_some_iff.1 hopen
  rw [negateGroup?_eq ht (congrArg Prod.fst hword)]
  rcases upright_or_negation pre with hu | ⟨q, fs, rfl⟩
  · rw [negatedBefore_of_upright hw hu, turn_of_upright hu]
    rw [← List.append_nil pre] at hw
    have hsplice := map_word_splice_termsOf hw [.symbol .logical "!"] [(path, .negation)] rfl
    rw [List.append_nil] at hsplice
    exact ⟨_, _, rfl, rawOf_of_word hsplice⟩
  · rw [negatedBefore_append_singleton hw, turn_negation]
    have hsplice := map_word_splice_termsOf hw [] [] rfl
    rw [List.append_nil, List.length_append, List.length_singleton] at hsplice
    rw [List.length_append, List.length_singleton]
    exact ⟨_, _, rfl, rawOf_of_word hsplice⟩

end

/-- **Negating a group** among the terms of a normal rule is negating a node of the rule: the one
that the `!` in front of the group belongs to, or that of the group itself without a `!`. -/
theorem rule_negateGroup {i : Nat} {t : Token} (H : r.Normal)
    (hm : maxOpen (ofRule r).query ≤ maxNesting) (ht : (ofRule r).terms.tokens[i]? = some t)
    (hk : t.kind = .groupOpen) :
    ∃ path change ed',
      (ofRule r).terms.rulePathAt?
        (if negatedBefore (ofRule r).terms.tokens i then i - 1 else i) = some path ∧
      (ofRule r).negateGroup? i = some (change, ed') ∧
      (maxOpen ed'.query ≤ maxNesting →
        ∃ r', ed'.rule = (r', none) ∧ r'.Same ((Edit.negate path).apply r)) := by
  have hw : (ofRule r).terms.tokens.map word = (termsOf r.fragments).map word := word_ofRule r
  have hfragment := map_word_getElem? hw i
  rw [ht, Option.map_some] at hfragment
  obtain ⟨⟨path, f⟩, hf, hword⟩ := Option.map_eq_some_iff.1 hfragment.symm
  obtain rfl : f = .groupOpen := fragment_of_groupOpen ((congrArg Prod.fst hword).trans hk)
  obtain ⟨pre, post, hsplit, rfl⟩ := Rule.exists_split hf
  rw [hsplit] at hw
  obtain ⟨change, ed', hed, hquery⟩ := query_negateGroup hw
  refine ⟨(turn path pre).1, change, ed', ?_, hed, fun hm' => ?_⟩
  · rw [rulePathAt?_ofRule H (query_ofRule r ▸ hm), hsplit]
    exact path_turn hw
  · obtain ⟨r', hp, hs⟩ := Rule.parse_turn H hsplit hquery hm'
    exact ⟨r', by rw [rule, Rule.parseLenient, hp], hs⟩

/-- The parentheses that stay when the outer one of two negations goes are no longer needed. -/
theorem rule_negateGroup_redundant :
    let r : Rule := .chain .all [.test "a" true,
      .chain .none [.chain .none [.chain .any [.test "b" true, .test "c" true]]]]
    (ofRule r).query = "a&!(!(b|c))" ∧ ∃ change ed' r',
      (ofRule r).negateGroup? 3 = some (change, ed') ∧ ed'.query = "a&(!(b|c))" ∧
        ed'.rule = (r', none) ∧ r'.Same ((Edit.negate [1]).apply r) := by
  intro r
  have htest (c : String) (h : c ≠ "") : Rule.Normal (.test c true) :=
    .condition { column_ne := h, value_ne := nofun, comparison_eq := fun _ _ => rfl }
  have hchain {op : Connective} {r s : Rule} (hop : op ≠ .none) (hr : r.Normal) (hs : s.Normal) :
      Rule.Normal (.chain op [r, s]) :=
    .chain hop (Nat.le_refl 2) (List.forall_mem_cons.2 ⟨hr, List.forall_mem_singleton.2 hs⟩)
  have hany : Rule.Normal (.chain .any [.test "b" true, .test "c" true]) :=
    hchain nofun (htest "b" (by decide)) (htest "c" (by decide))
  have H : r.Normal := hchain nofun (htest "a" (by decide)) (.none (.none hany rfl) rfl)
  have hm : maxOpen (ofRule r).query ≤ maxNesting := by decide +kernel
  obtain ⟨t, ht, hk⟩ : ∃ t, (ofRule r).terms.tokens[3]? = some t ∧ t.kind = .groupOpen :=
    Option.map_eq_some_iff.1 (by decide +kernel)
  obtain ⟨path, change, ed', hpath, hed, hrule⟩ := rule_negateGroup H hm ht hk
  have hpath' : (ofRule r).terms.rulePathAt?
      (if negatedBefore (ofRule r).terms.tokens 3 then 3 - 1 else 3) = some [1] := by
    decide +kernel
  obtain rfl : path = [1] := Option.some.inj (hpath.symm.trans hpath')
  have hquery : ((ofRule r).negateGroup? 3).map (·.2.query) = some "a&(!(b|c))" := by
    decide +kernel
  have hq : ed'.query = "a&(!(b|c))" := by
    rw [hed] at hquery
    exact Option.some.inj hquery
  have hm' : maxOpen ed'.query ≤ maxNesting := by
    rw [hq]
    decide +kernel
  obtain ⟨r', hr', hs⟩ := hrule hm'
  exact ⟨by decide +kernel, change, ed', r', hed, hq, hr', hs⟩

end Editor
end FilterQuery
