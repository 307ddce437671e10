import FilterQuery.Suggestion.Near
import Mathlib.Data.List.Induction
import Mathlib.Data.List.Infix

/-!
The order of near matches. The places of the candidates that match are put in the order of their
ranks, and of their numbers within a rank; what is returned is a beginning of that list. A greater
distance only adds matches, all of which are worse than those found before, so it makes the list
longer at its end.
-/

namespace FilterQuery

open Text

variable {r s : Rank} {d e i j limit : Nat} {places : List Nat} {rank? wider? : Nat → Option Rank}

namespace Rank

/-! ### Ranks -/

/-- A text that is equal is better than one that only begins with what was typed, that is better
than one that contains it elsewhere, and the worst are those that are merely near. -/
inductive Better : Rank → Rank → Prop where
  | exact_start : Better exact start
  | exact_inner : Better exact inner
  | exact_near (d : Nat) : Better exact (near d)
  | start_inner : Better start inner
  | start_near (d : Nat) : Better start (near d)
  | inner_near (d : Nat) : Better inner (near d)
  | near {d e : Nat} : d < e → Better (near d) (near e)

/-- How a text has a rank, both in lower case. -/
inductive Describes (query candidate : List Char) : Rank → Prop where
  | exact : query = [] ∨ candidate = query → Describes query candidate exact
  | start : query ≠ [] → candidate ≠ query → query <+: candidate → Describes query candidate start
  | inner : ¬ query <+: candidate → query <:+: candidate → Describes query candidate inner
  | near : ¬ query <:+: candidate → Describes query candidate (near (distance query candidate))

/-- Only texts that do not contain what was typed have to be within some distance. -/
def Within (maxDistance : Nat) (r : Rank) : Prop := ∀ d, r = near d → d ≤ maxDistance

theorem better_iff : r.Better s ↔ r.weight < s.weight := by
  constructor
  · intro h
    cases h with
    | near h => exact Nat.add_lt_add_right h 3
    | _ => simp only [weight]; omega
  · intro h
    cases r <;> cases s <;> simp only [weight] at h
    case exact.start => exact .exact_start
    case exact.inner => exact .exact_inner
    case exact.near => exact .exact_near _
    case start.inner => exact .start_inner
    case start.near => exact .start_near _
    case inner.near => exact .inner_near _
    case near.near => exact .near (by omega)
    all_goals omega

theorem weight_inj : r.weight = s.weight ↔ r = s := by
  refine ⟨fun h => ?_, fun h => h ▸ rfl⟩
  cases r <;> cases s <;> simp [weight] at h ⊢
  exact h

theorem Better.irrefl : ¬ r.Better r := fun h => Nat.lt_irrefl _ (better_iff.1 h)

theorem Better.asymm (h : r.Better s) : ¬ s.Better r :=
  fun h' => Nat.lt_asymm (better_iff.1 h) (better_iff.1 h')

theorem Within.mono (h : r.Within d) (hde : d ≤ e) : r.Within e :=
  fun k hk => Nat.le_trans (h k hk) hde

/-- What lies within the distance is better than what does not. -/
theorem Within.better (h : r.Within d) (h' : ¬ s.Within d) : r.Better s := by
  simp only [Within, not_forall, Nat.not_le] at h'
  obtain ⟨k, rfl, hk⟩ := h'
  cases r with
  | exact => exact .exact_near k
  | start => exact .start_near k
  | inner => exact .inner_near k
  | near l => exact .near (Nat.lt_of_le_of_lt (h l rfl) hk)

theorem occursIn_iff {part cs : List Char} : occursIn part cs = true ↔ part <:+: cs := by
  induction cs with
  | nil => rw [occursIn, List.isEmpty_iff, List.infix_nil]
  | cons c cs ih => rw [occursIn, Bool.or_eq_true, decide_eq_true_eq, ih, List.infix_cons_iff]

/-- A rank does not depend on the distance that is allowed; the distance decides whether there is
one. -/
theorem ofLower?_eq_some_iff {query candidate : List Char} :
    ofLower? query candidate d = some r ↔ Describes query candidate r ∧ r.Within d := by
  have within (h : ∀ k, r ≠ near k) : r.Within d := fun k hk => absurd hk (h k)
  simp only [ofLower?, Bool.or_eq_true, List.isEmpty_iff, beq_iff_eq, occursIn_iff]
  constructor
  · intro h
    split at h
    · rename_i he
      obtain rfl := Option.some.inj h
      exact ⟨.exact he, within fun k => by simp⟩
    rename_i he
    obtain ⟨hne, hc⟩ := not_or.1 he
    split at h
    · rename_i hp
      obtain rfl := Option.some.inj h
      exact ⟨.start hne hc hp, within fun k => by simp⟩
    rename_i hp
    split at h
    · rename_i hi
      obtain rfl := Option.some.inj h
      exact ⟨.inner hp hi, within fun k => by simp⟩
    rename_i hi
    split at h
    · rename_i hd
      obtain rfl := Option.some.inj h
      exact ⟨.near hi, fun k hk => Rank.near.inj hk ▸ hd⟩
    · cases h
  · rintro ⟨H, hw⟩
    cases H with
    | exact he => rw [if_pos he]
    | start hne hc hp => rw [if_neg (not_or.2 ⟨hne, hc⟩), if_pos hp]
    | inner hp hi =>
      rw [if_neg, if_neg hp, if_pos hi]
      rintro (rfl | rfl)
      · exact hp List.nil_prefix
      · exact hp List.prefix_rfl
    | near hi =>
      rw [if_neg, if_neg (fun hp => hi hp.isInfix), if_neg hi, if_pos (hw _ rfl)]
      rintro (rfl | rfl)
      · exact hi List.nil_infix
      · exact hi List.infix_rfl

end Rank

/-! ### Places in order -/

/-- The place `i` has a better rank than the place `j`, or the same one and comes first. -/
def Precedes (rank? : Nat → Option Rank) (i j : Nat) : Prop :=
  ∃ r s, rank? i = some r ∧ rank? j = some s ∧ (r.Better s ∨ r = s ∧ i < j)

/-- All places that have a rank, in their order. -/
structure Ranked (rank? : Nat → Option Rank) (places : List Nat) : Prop where
  mem_iff (i : Nat) : i ∈ places ↔ (rank? i).isSome = true
  ordered : places.Pairwise (Precedes rank?)

namespace Precedes

theorem asymm (h : Precedes rank? i j) : ¬ Precedes rank? j i := by
  obtain ⟨r, s, hr, hs, h⟩ := h
  rintro ⟨s', r', hs', hr', h'⟩
  obtain rfl := Option.some.inj (hr.symm.trans hr')
  obtain rfl := Option.some.inj (hs.symm.trans hs')
  rcases h, h' with ⟨h | ⟨rfl, h⟩, h' | ⟨he, h'⟩⟩
  · exact h.asymm h'
  · exact Rank.Better.irrefl (he ▸ h)
  · exact Rank.Better.irrefl h'
  · exact Nat.lt_asymm h h'

theorem ne (h : Precedes rank? i j) : i ≠ j := by
  rintro rfl
  exact h.asymm h

end Precedes

namespace Ranked

/-- The order leaves no choice. -/
theorem unique {others : List Nat} (H : Ranked rank? places) (H' : Ranked rank? others) :
    places = others := by
  have hperm : places.Perm others :=
    (List.perm_ext_iff_of_nodup (H.ordered.imp Precedes.ne) (H'.ordered.imp Precedes.ne)).2
      fun i => (H.mem_iff i).trans (H'.mem_iff i).symm
  exact hperm.eq_of_pairwise (fun _ _ _ _ h h' => absurd h' h.asymm) H.ordered H'.ordered

end Ranked

/-- What is kept is a beginning if nothing that is kept stands behind something that is not. -/
theorem filter_isPrefix {p : Nat → Bool} (h : places.Pairwise fun i j => p j = true → p i = true) :
    places.filter p <+: places := by
  induction places with
  | nil => exact List.prefix_rfl
  | cons i places ih =>
    obtain ⟨hi, h⟩ := List.pairwise_cons.1 h
    by_cases hp : p i = true
    · rw [List.filter_cons_of_pos hp]
      exact List.cons_prefix_cons.2 ⟨rfl, ih h⟩
    · have hnil : places.filter p = [] := List.filter_eq_nil_iff.2 fun j hj hpj => hp (hi j hj hpj)
      rw [List.filter_cons_of_neg hp, hnil]
      exact List.nil_prefix

/-- When worse places get a rank, they are put at the end. -/
theorem Ranked.isPrefix {others : List Nat} (H : Ranked rank? places) (H' : Ranked wider? others)
    (hkeep : ∀ i r, rank? i = some r → wider? i = some r)
    (hworse : ∀ i j r s, rank? i = some r → rank? j = none → wider? j = some s → r.Better s) :
    places <+: others := by
  have hfilter : Ranked rank? (others.filter fun i => (rank? i).isSome) := by
    refine ⟨fun i => ?_, ?_⟩
    · rw [List.mem_filter, H'.mem_iff]
      refine ⟨And.right, fun hi => ⟨?_, hi⟩⟩
      obtain ⟨r, hr⟩ := Option.isSome_iff_exists.1 hi
      exact Option.isSome_iff_exists.2 ⟨r, hkeep i r hr⟩
    · refine List.pairwise_filter.2 (H'.ordered.imp fun {i j} h hi hj => ?_)
      obtain ⟨r, s, hr, hs, h⟩ := h
      obtain ⟨r', hr'⟩ := Option.isSome_iff_exists.1 hi
      obtain ⟨s', hs'⟩ := Option.isSome_iff_exists.1 hj
      obtain rfl := Option.some.inj (hr.symm.trans (hkeep i r' hr'))
      obtain rfl := Option.some.inj (hs.symm.trans (hkeep j s' hs'))
      exact ⟨r, s, hr', hs', h⟩
  rw [H.unique hfilter]
  refine filter_isPrefix (H'.ordered.imp fun {i j} h hj => ?_)
  -- A place without a rank would be worse than the one behind it.
  by_contra hi
  have hi : rank? i = none := by simpa using hi
  obtain ⟨r, s, hr, hs, h⟩ := h
  obtain ⟨s', hs'⟩ := Option.isSome_iff_exists.1 hj
  obtain rfl := Option.some.inj (hs.symm.trans (hkeep j s' hs'))
  have hb : s.Better r := hworse j i s r hs' hi hr
  rcases h with h | ⟨rfl, -⟩
  · exact h.asymm hb
  · exact Rank.Better.irrefl hb

/-! ### Sorting -/

section
variable {α β : Type}

/-- Sorting leaves elements with one key in their order. -/
theorem filter_mergeSort (key : α → Nat) (l : List α) (k : Nat) :
    (l.mergeSort fun a b => key a ≤ key b).filter (key · == k) = l.filter (key · == k) := by
  have hsub : List.Sublist (l.filter (key · == k)) (l.mergeSort fun a b => key a ≤ key b) := by
    refine List.sublist_mergeSort (by simpa using fun _ _ _ => Nat.le_trans)
      (by simpa using fun _ _ => Nat.le_total _ _) ?_ List.filter_sublist
    refine List.pairwise_of_forall_mem_list fun a ha b hb => ?_
    simp only [List.mem_filter, beq_iff_eq] at ha hb
    exact decide_eq_true (Nat.le_of_eq (ha.2.trans hb.2.symm))
  have hsub := hsub.filter (key · == k)
  rw [List.filter_filter] at hsub
  simp only [Bool.and_self] at hsub
  exact (hsub.eq_of_length ((List.mergeSort_perm l _).filter _).length_eq.symm).symm

/-- Going through a list is going through its places. -/
theorem filterMap_eq_map_places {f : α → Option β} {g : Nat → β} {l : List α}
    (h : ∀ i a b, l[i]? = some a → f a = some b → g i = b) :
    l.filterMap f = ((List.range l.length).filter fun i => (l[i]?.bind f).isSome).map g := by
  induction l using List.reverseRecOn with
  | nil => rfl
  | append_singleton l a ih =>
    have hat : ∀ i < l.length, (l ++ [a])[i]? = l[i]? := fun i => List.getElem?_append_left
    have hlast : (l ++ [a])[l.length]? = some a := List.getElem?_concat_length
    have hfilter : (List.range l.length).filter (fun i => ((l ++ [a])[i]?.bind f).isSome) =
        (List.range l.length).filter fun i => (l[i]?.bind f).isSome :=
      List.filter_congr fun i hi => by rw [hat i (List.mem_range.1 hi)]
    have hl := ih fun i c b hc => h i c b (by
      rw [hat i (List.getElem?_eq_some_iff.1 hc).1, hc])
    rw [List.filterMap_append, List.length_append, List.length_singleton, List.range_succ,
      List.filter_append, List.map_append, hfilter, hl]
    cases hf : f a with
    | none => simp [hf]
    | some b => simp [hf, h _ a b hlast hf]

theorem pairwise_mergeSort_key {key : Nat → Nat} {l : List Nat} (h : l.Pairwise (· < ·)) :
    (l.mergeSort fun i j => key i ≤ key j).Pairwise fun i j =>
      key i < key j ∨ key i = key j ∧ i < j := by
  refine List.pairwise_iff_forall_sublist.2 fun {i j} hij => ?_
  have hle : key i ≤ key j := by
    have hsorted : (l.mergeSort fun i j => key i ≤ key j).Pairwise fun i j =>
        decide (key i ≤ key j) = true :=
      List.pairwise_mergeSort (by simpa using fun _ _ _ => Nat.le_trans)
        (by simpa using fun _ _ => Nat.le_total _ _) l
    exact of_decide_eq_true (List.pairwise_iff_forall_sublist.1 hsorted hij)
  rcases Nat.lt_or_eq_of_le hle with hlt | heq
  · exact .inl hlt
  · have hsub := hij.filter (key · == key j)
    rw [filter_mergeSort] at hsub
    simp only [heq, beq_self_eq_true, List.filter_cons_of_pos, List.filter_nil] at hsub
    exact .inr ⟨heq, List.pairwise_iff_forall_sublist.1 h (hsub.trans List.filter_sublist)⟩

end

/-! ### Near matches -/

/-- The rank of the candidate at a place. -/
def rankAt? (query : String) (candidates : List String) (maxDistance i : Nat) : Option Rank :=
  candidates[i]?.bind fun c => Rank.of? query c maxDistance

/-- The weight of the candidate at a place, if it has one. -/
def weightAt (query : String) (candidates : List String) (maxDistance i : Nat) : Nat :=
  ((rankAt? query candidates maxDistance i).map Rank.weight).getD 0

/-- The places of the candidates that match. -/
def matchingPlaces (query : String) (candidates : List String) (maxDistance : Nat) : List Nat :=
  (List.range candidates.length).filter fun i => (rankAt? query candidates maxDistance i).isSome

/-- The places of the candidates that match, sorted by their ranks. -/
def rankedPlaces (query : String) (candidates : List String) (maxDistance : Nat) : List Nat :=
  (matchingPlaces query candidates maxDistance).mergeSort fun i j =>
    weightAt query candidates maxDistance i ≤ weightAt query candidates maxDistance j

section
variable {query : String} {candidates : List String}

theorem rankAt?_eq_some_iff : rankAt? query candidates d i = some r ↔
    ∃ c, candidates[i]? = some c ∧
      Rank.Describes (lowerCase query).toList (lowerCase c).toList r ∧ r.Within d := by
  simp only [rankAt?, Option.bind_eq_some_iff, Rank.of?, Rank.ofLower?_eq_some_iff]

theorem rankAt?_mono (hde : d ≤ e) (h : rankAt? query candidates d i = some r) :
    rankAt? query candidates e i = some r := by
  obtain ⟨c, hc, H, hw⟩ := rankAt?_eq_some_iff.1 h
  exact rankAt?_eq_some_iff.2 ⟨c, hc, H, hw.mono hde⟩

theorem not_within_of_rankAt? (h : rankAt? query candidates d i = none)
    (h' : rankAt? query candidates e i = some r) : ¬ r.Within d := by
  obtain ⟨c, hc, H, -⟩ := rankAt?_eq_some_iff.1 h'
  intro hw
  rw [rankAt?_eq_some_iff.2 ⟨c, hc, H, hw⟩] at h
  cases h

theorem weightAt_of_rankAt? (h : rankAt? query candidates d i = some r) :
    weightAt query candidates d i = r.weight := by
  rw [weightAt, h]
  rfl

theorem mem_matchingPlaces : i ∈ matchingPlaces query candidates d ↔
    (rankAt? query candidates d i).isSome = true := by
  rw [matchingPlaces, List.mem_filter, List.mem_range, and_iff_right_iff_imp]
  intro hi
  obtain ⟨r, hr⟩ := Option.isSome_iff_exists.1 hi
  obtain ⟨c, hc, -⟩ := rankAt?_eq_some_iff.1 hr
  exact (List.getElem?_eq_some_iff.1 hc).1

theorem ranked_rankedPlaces (query : String) (candidates : List String) (d : Nat) :
    Ranked (rankAt? query candidates d) (rankedPlaces query candidates d) := by
  refine ⟨fun i => List.mem_mergeSort.trans mem_matchingPlaces, ?_⟩
  refine List.Pairwise.imp_of_mem ?_
    (pairwise_mergeSort_key (List.pairwise_lt_range.filter _))
  intro i j hi hj h
  obtain ⟨r, hr⟩ := Option.isSome_iff_exists.1 (mem_matchingPlaces.1 (List.mem_mergeSort.1 hi))
  obtain ⟨s, hs⟩ := Option.isSome_iff_exists.1 (mem_matchingPlaces.1 (List.mem_mergeSort.1 hj))
  rw [weightAt_of_rankAt? hr, weightAt_of_rankAt? hs, ← Rank.better_iff, Rank.weight_inj] at h
  exact ⟨r, s, hr, hs, h⟩

/-- Ranking the candidates is ranking their places. -/
theorem filterMap_of?_eq (query : String) (candidates : List String) (d : Nat) :
    (candidates.filterMap fun c => (Rank.of? query c d).map fun r => (r.weight, c)) =
      (matchingPlaces query candidates d).map fun i =>
        (weightAt query candidates d i, candidates[i]?.getD "") := by
  rw [filterMap_eq_map_places, matchingPlaces]
  · refine congrArg (List.map _) (List.filter_congr fun i _ => ?_)
    rw [rankAt?]
    cases candidates[i]? with
    | none => rfl
    | some c => exact Option.isSome_map
  · intro i c p hc hp
    obtain ⟨r, hr, rfl⟩ := Option.map_eq_some_iff.1 hp
    have hrank : rankAt? query candidates d i = some r := by rw [rankAt?, hc, Option.bind_some, hr]
    rw [weightAt_of_rankAt? hrank, hc, Option.getD_some]

theorem nearMatches_eq (query : String) (candidates : List String) (d limit : Nat) :
    nearMatches query candidates d limit =
      ((rankedPlaces query candidates d).take limit).filterMap (candidates[·]?) := by
  have htexts : ∀ i ∈ (rankedPlaces query candidates d).take limit,
      candidates[i]? = some (candidates[i]?.getD "") := by
    intro i hi
    have hi := ((ranked_rankedPlaces query candidates d).mem_iff i).1 (List.mem_of_mem_take hi)
    obtain ⟨r, hr⟩ := Option.isSome_iff_exists.1 hi
    obtain ⟨c, hc, -⟩ := rankAt?_eq_some_iff.1 hr
    rw [hc, Option.getD_some]
  rw [List.filterMap_congr htexts, List.filterMap_eq_map', List.map_take, nearMatches,
    filterMap_of?_eq, ← List.map_mergeSort (r := fun i j =>
      decide (weightAt query candidates d i ≤ weightAt query candidates d j)) fun _ _ _ _ => rfl,
    List.map_map]
  rfl

theorem rankedPlaces_isPrefix (query : String) (candidates : List String) (hde : d ≤ e) :
    rankedPlaces query candidates d <+: rankedPlaces query candidates e := by
  refine (ranked_rankedPlaces query candidates d).isPrefix (ranked_rankedPlaces query candidates e)
    (fun i r => rankAt?_mono hde) fun i j r s hi hj hj' => ?_
  obtain ⟨c, -, -, hw⟩ := rankAt?_eq_some_iff.1 hi
  exact hw.better (not_within_of_rankAt? hj hj')

/-- **Near matches are the best matches, in order.** The places of the candidates that match have
one order, by rank and then by number, and what is returned are the candidates at the first of them,
as many as asked for; so a place that is left out comes behind all that are returned. A rank says
how the candidate contains the text, or how near it is, and a greater distance leaves it as it is:
it only puts more places at the end. -/
theorem nearMatches_ranked (query : String) (candidates : List String) :
    let rank? := rankAt? query candidates
    (∀ d i r, rank? d i = some r ↔ ∃ c, candidates[i]? = some c ∧
      Rank.Describes (lowerCase query).toList (lowerCase c).toList r ∧ r.Within d) ∧
    (∀ d e i r, d ≤ e → rank? d i = some r → rank? e i = some r) ∧
    ∃ places : Nat → List Nat,
      (∀ d, Ranked (rank? d) (places d)) ∧
      (∀ d limit, nearMatches query candidates d limit =
        ((places d).take limit).filterMap (candidates[·]?)) ∧
      (∀ d limit, ∀ i ∈ (places d).take limit, ∀ j ∉ (places d).take limit,
        (rank? d j).isSome = true → Precedes (rank? d) i j) ∧
      (∀ d e, d ≤ e → places d <+: places e) ∧
      ∀ d e limit limit', d ≤ e → limit ≤ limit' →
        nearMatches query candidates d limit <+: nearMatches query candidates e limit' := by
  intro rank?
  have hranked := ranked_rankedPlaces query candidates
  refine ⟨fun _ _ _ => rankAt?_eq_some_iff, fun _ _ _ _ => rankAt?_mono,
    rankedPlaces query candidates, hranked, nearMatches_eq query candidates,
    fun d limit i hi j hj hrank => ?_, fun _ _ => rankedPlaces_isPrefix query candidates,
    fun d e limit limit' hde hlimit => ?_⟩
  · have hdrop : j ∈ (rankedPlaces query candidates d).drop limit := by
      have hmem := ((hranked d).mem_iff j).2 hrank
      rw [← List.take_append_drop limit (rankedPlaces query candidates d)] at hmem
      exact (List.mem_append.1 hmem).resolve_left hj
    have hordered := (hranked d).ordered
    rw [← List.take_append_drop limit (rankedPlaces query candidates d)] at hordered
    exact (List.pairwise_append.1 hordered).2.2 i hi j hdrop
  · rw [nearMatches_eq, nearMatches_eq]
    have hplaces : (rankedPlaces query candidates d).take limit <+:
        (rankedPlaces query candidates e).take limit' :=
      ((rankedPlaces_isPrefix query candidates hde).take limit).trans
        (List.take_prefix_take_left hlimit)
    exact hplaces.filterMap _

/-- Of two equal candidates both are returned. With one edit allowed another candidate comes in,
behind the others. -/
theorem nearMatches_ranked_host :
    nearMatches "host" ["hoist", "ghost", "Hostgroup", "HOST", "ghost"] 0 2 =
      ["HOST", "Hostgroup"] ∧
    nearMatches "host" ["hoist", "ghost", "Hostgroup", "HOST", "ghost"] 1 9 =
      ["HOST", "Hostgroup", "ghost", "ghost", "hoist"] ∧
    ["HOST", "Hostgroup"] <+: ["HOST", "Hostgroup", "ghost", "ghost", "hoist"] := by
  have hfew : nearMatches "host" ["hoist", "ghost", "Hostgroup", "HOST", "ghost"] 0 2 =
      ["HOST", "Hostgroup"] := by
    have hranked : (["hoist", "ghost", "Hostgroup", "HOST", "ghost"].filterMap fun c =>
        (Rank.of? "host" c 0).map fun r => (r.weight, c)) =
        [(2, "ghost"), (1, "Hostgroup"), (0, "HOST"), (2, "ghost")] := by decide +kernel
    simp [nearMatches, hranked, List.mergeSort, List.MergeSort.Internal.splitInTwo]
  have hall : nearMatches "host" ["hoist", "ghost", "Hostgroup", "HOST", "ghost"] 1 9 =
      ["HOST", "Hostgroup", "ghost", "ghost", "hoist"] := by
    have hranked : (["hoist", "ghost", "Hostgroup", "HOST", "ghost"].filterMap fun c =>
        (Rank.of? "host" c 1).map fun r => (r.weight, c)) =
        [(4, "hoist"), (2, "ghost"), (1, "Hostgroup"), (0, "HOST"), (2, "ghost")] := by
      decide +kernel
    simp [nearMatches, hranked, List.mergeSort, List.MergeSort.Internal.splitInTwo]
  obtain ⟨-, -, _, -, -, -, -, hprefix⟩ :=
    nearMatches_ranked "host" ["hoist", "ghost", "Hostgroup", "HOST", "ghost"]
  have h := hprefix 0 1 2 9 (by decide) (by decide)
  rw [hfew, hall] at h
  exact ⟨hfew, hall, h⟩

end
end FilterQuery
