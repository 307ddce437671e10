import FilterQuery.Proofs.Rule.Annotation
import FilterQuery.Proofs.Term.Locating

/-!
Terms of a normal rule that are located anew. Their text is the canonical one, which is read as the
same rule but for annotations; so all terms find their nodes again, and their positions are those in
the canonical text.
-/

namespace FilterQuery

namespace Token

/-- The term without its label. -/
def unlabelled (t : Token) : Token := { t with label := "" }

/-- The term without its position. -/
def unlocated (t : Token) : Token := { t with sourceOffset := none }

/-- Terms that agree in all fields but the label. -/
theorem map_unlabelled_eq {ts us : List Token} (hw : ts.map word = us.map word)
    (hp : ts.map place = us.map place) (hc : ts.map counterpart = us.map counterpart) :
    ts.map unlabelled = us.map unlabelled := by
  have hlength : ts.length = us.length := by simpa using congrArg List.length hw
  refine ext_of_map ?_ ?_ ?_ ?_ <;> rw [List.map_map, List.map_map]
  · exact hw
  · rw [show label ∘ unlabelled = fun _ => "" from rfl, List.map_const', List.map_const', hlength]
  · exact hp
  · exact hc

/-- Terms that agree in all fields but the position. -/
theorem map_unlocated_eq {ts us : List Token} (hw : ts.map word = us.map word)
    (hl : ts.map label = us.map label) (hp : ts.map path = us.map path)
    (hc : ts.map counterpart = us.map counterpart) : ts.map unlocated = us.map unlocated := by
  refine ext_of_map ?_ ?_ ?_ ?_ <;> rw [List.map_map, List.map_map]
  · exact hw
  · exact hl
  · have h := congrArg (List.map fun p => (p, (none : Option Nat))) hp
    rwa [List.map_map, List.map_map] at h
  · exact hc

theorem word_bare (f : Fragment) (path : Path) :
    (f.bare.token path).word = (f.token path).word := by
  cases f <;> rfl

theorem path_bare (f : Fragment) (path : Path) :
    (f.bare.token path).path = (f.token path).path := by
  cases f <;> rfl

end Token

open Token

namespace Rule

variable {r s : Rule}

/-- Annotations matter to the positions and labels of terms alone. -/
theorem terms_bare {α : Type} {g : Token → α}
    (h : ∀ f path, g (Fragment.token path (Fragment.bare f)) = g (Fragment.token path f))
    (r : Rule) : r.bare.terms.map g = r.terms.map g := by
  rw [terms, fragments_bare, bareOf, List.map_map, List.map_map, terms, List.map_map]
  exact List.map_congr_left fun p _ => h p.2 p.1

theorem Same.map_terms {α : Type} {g : Token → α}
    (hg : ∀ f path, g (Fragment.token path (Fragment.bare f)) = g (Fragment.token path f))
    (h : r.Same s) : r.terms.map g = s.terms.map g := by
  rw [← terms_bare hg r, ← terms_bare hg s, show r.bare = s.bare from h]

end Rule

namespace TermIndex

variable {r : Rule}

/-- The terms find the nodes and positions of the same rule, as it is read from the canonical text.
-/
theorem exists_locate (H : r = .empty ∨ r.Normal) (hm : maxOpen r.render ≤ maxNesting) :
    ∃ r', Rule.parse r.render = .ok r' ∧ r'.Same r ∧
      (locate (pair r.terms)).map place = r'.terms.map place := by
  obtain ⟨r', hp, hr⟩ := Rule.parse_render (Rule.wellFormed_of_normal H) hm
  have hs : r'.Same r := .of_normalForm H hr
  have hword : (pair r.terms).map word = r.terms.map word := map_pairFrom fun _ _ => rfl
  have hraw : rawOf (pair r.terms) = r.render := (rawOf_congr hword).trans r.rawOf_terms
  refine ⟨r', hp, hs, ?_⟩
  rw [locate, hraw, Rule.parseLenient, hp]
  exact place_align (hword.trans (hs.map_terms word_bare).symm)

theorem rawOf_append_cons (ts us : List Token) (t : Token) :
    rawOf (ts ++ t :: us) = rawOf ts ++ (t.raw ++ rawOf us) :=
  String.toList_inj.1 (by simp [rawOf, String.toList_join])

/-- Terms with the nodes of a rule spell parts of conditions exactly if their kinds say so. -/
theorem isSome_part_iff {ts : List Token} (hw : ts.map word = r.terms.map word)
    (hp : ts.map path = r.terms.map path) {t : Token} (ht : t ∈ ts) :
    (t.path.bind (·.part)).isSome ↔ t.kind ∈ [.column, .operator, .value] := by
  have hpart : ∀ t ∈ r.terms,
      (t.path.bind (·.part)).isSome = decide (t.kind ∈ [.column, .operator, .value]) := by
    intro t ht
    obtain ⟨⟨path, f⟩, -, rfl⟩ := List.mem_map.1 ht
    cases f <;> rfl
  have hpath := congrArg (List.map fun p => (p.bind (·.part)).isSome) hp
  have hkind := congrArg (List.map fun w => decide (w.1 ∈ [.column, .operator, .value])) hw
  rw [List.map_map, List.map_map] at hpath hkind
  have H := List.map_inj_left.1
    (hpath.trans ((List.map_congr_left hpart).trans hkind.symm)) t ht
  exact (congrArg (· = true) H).to_iff.trans decide_eq_true_iff

/-- **Reindexing the terms of a normal rule** keeps all of them but for their positions. All but the
labels is as in the index of the rule that is read from the canonical text, and the positions are
those of the parts of conditions in that text. -/
theorem ofTokens_ofRule (H : r = .empty ∨ r.Normal) (hm : maxOpen r.render ≤ maxNesting) :
    let x := ofTokens (ofRule r).tokens
    x.tokens.map unlocated = (ofRule r).tokens.map unlocated ∧
    (∃ r', Rule.parse r.render = .ok r' ∧
      x.tokens.map unlabelled = (ofRule r').tokens.map unlabelled) ∧
    ∀ pre t post, x.tokens = pre ++ t :: post →
      r.render = rawOf pre ++ (t.raw ++ rawOf post) ∧
      t.sourceOffset = if t.kind ∈ [.column, .operator, .value] ∧ t.raw ≠ "" then
        some (rawOf pre).utf8ByteSize else none := by
  intro x
  obtain ⟨r', hp, hs, hplace⟩ := exists_locate H hm
  have hx : x.tokens = locate (pair r.terms) := congrArg locate (linked_pair r.terms)
  rw [← hx] at hplace
  have hword : x.tokens.map word = r.terms.map word :=
    hx ▸ (map_locate fun _ _ _ => rfl).trans (map_pairFrom fun _ _ => rfl)
  have hpath : x.tokens.map path = r.terms.map path := by
    have h := congrArg (List.map Prod.fst) hplace
    rw [List.map_map, List.map_map] at h
    exact h.trans (hs.map_terms path_bare)
  have hlink : x.tokens.map counterpart = (pair r.terms).map counterpart :=
    hx ▸ map_locate fun _ _ _ => rfl
  refine ⟨?_, ⟨r', hp, ?_⟩, fun pre t post he => ⟨?_, ?_⟩⟩
  · refine map_unlocated_eq (hword.trans ?_) (hx ▸ map_locate fun _ _ _ => rfl)
      (hpath.trans ?_) hlink
    · exact (map_pairFrom fun _ _ => rfl).symm
    · exact (map_pairFrom fun _ _ => rfl).symm
  · have hterms : r.terms.map word = r'.terms.map word := (hs.map_terms word_bare).symm
    have hkind : r.terms.map kind = r'.terms.map kind := by
      have h := congrArg (List.map Prod.fst) hterms
      rwa [List.map_map, List.map_map] at h
    refine map_unlabelled_eq (hword.trans (hterms.trans ?_)) (hplace.trans ?_)
      (hlink.trans (pairFrom_congr hkind).1)
    · exact (map_pairFrom fun _ _ => rfl).symm
    · exact (map_pairFrom fun _ _ => rfl).symm
  · have hraw : rawOf x.tokens = r.render := (rawOf_congr hword).trans r.rawOf_terms
    rw [← hraw, he, rawOf_append_cons]
  · have hstands := standsAt_of_locate (hx.symm.trans he)
    have ht : t ∈ x.tokens := he ▸ List.mem_append_right _ List.mem_cons_self
    simp only [StandsAt, isSome_part_iff hword hpath ht] at hstands
    exact hstands

theorem ofTokens_ofRule_nested :
    let r : Rule := .chain .any [.chain .all [.compare .ge "é" (.text ""),
      .chain .none [.compare .eq "b" (.list ["1", "2"])]], .test "c" false]
    let x := ofTokens (ofRule r).tokens
    r.Normal ∧ maxOpen r.render ≤ maxNesting ∧
      x.tokens.map unlocated = (ofRule r).tokens.map unlocated ∧
      (∃ r', Rule.parse "(%C3%A9>=&!b=(1|2))|!c" = .ok r' ∧
        x.tokens.map unlabelled = (ofRule r').tokens.map unlabelled) ∧
      x.tokens.map (·.sourceOffset) =
        [none, some 1, some 7, none, none, none, some 11, some 12, some 13, none, none, none,
          some 21] := by
  intro r x
  have leaf {c : Condition} (h : c.WellFormed) (he : c.comparison = .eq ∨ ∀ b, c.value ≠ .flag b) :
      (Rule.condition c).Normal :=
    .condition { h with comparison_eq := fun b hb => he.resolve_right fun hn => hn b hb }
  have chain {op : Connective} {r s : Rule} (hop : op ≠ .none) (hr : r.Normal) (hs : s.Normal) :
      Rule.Normal (.chain op [r, s]) :=
    .chain hop (Nat.le_refl 2) (List.forall_mem_cons.2 ⟨hr, List.forall_mem_singleton.2 hs⟩)
  have H : r.Normal := by
    refine chain nofun (chain nofun (leaf ⟨by decide, nofun⟩ (.inr nofun)) ?_)
      (leaf ⟨by decide, nofun⟩ (.inl rfl))
    exact .none (leaf ⟨by decide, by decide⟩ (.inl rfl)) rfl
  have hm : maxOpen r.render ≤ maxNesting := by decide +kernel
  have hr : r.render = "(%C3%A9>=&!b=(1|2))|!c" := by decide +kernel
  obtain ⟨hx, hr', -⟩ := ofTokens_ofRule (.inr H) hm
  exact ⟨H, hm, hx, hr ▸ hr', by decide +kernel⟩

end TermIndex
end FilterQuery
