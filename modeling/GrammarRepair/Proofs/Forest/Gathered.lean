import GrammarRepair.Proofs.Forest.Gathering
import Mathlib.Data.List.Induction

/-!
Gathered nodes next to grown ones. All tokens are found first and then the pairs, whereas an arena
has the tokens of each distance before its pairs; sorted by distance, stably, the one order is the
other. Main statements: a gathered node says of its constituent what the node of an arena says, and
the order of creation is the order of gathering sorted by distance.
-/

namespace GrammarRepair

theorem distinct_append {α : Type} [BEq α] [Hashable α] [LawfulBEq α] (xs ys : List α) :
    distinct (xs ++ ys) = distinct xs ++ (distinct ys).filter fun y => !xs.contains y := by
  induction ys using List.reverseRecOn with
  | nil => simp [distinct_of_nodup]
  | append_singleton ys y ih =>
    rw [← List.append_assoc, distinct_concat, distinct_concat, ih]
    by_cases hys : y ∈ ys
    · rw [if_pos hys, if_pos (List.mem_append_right xs hys)]
    · by_cases hxs : y ∈ xs
      · rw [if_pos (List.mem_append_left ys hxs), if_neg hys, List.filter_append]
        simp [hxs]
      · rw [if_neg (by simp [hxs, hys]), if_neg hys, List.filter_append, List.append_assoc]
        simp [hxs]

theorem distinct_flatMap {α β : Type} [BEq β] [Hashable β] [LawfulBEq β] {block : α → List β}
    {xs : List α} (h : xs.Pairwise fun x y => ∀ b ∈ block y, b ∉ block x) :
    distinct (xs.flatMap block) = xs.flatMap fun x => distinct (block x) := by
  induction xs with
  | nil => exact distinct_of_nodup List.nodup_nil
  | cons x xs ih =>
    obtain ⟨hx, hxs⟩ := List.pairwise_cons.1 h
    rw [List.flatMap_cons, distinct_append, ih hxs, List.flatMap_cons]
    congr 1
    refine List.filter_eq_self.2 fun b hb => ?_
    obtain ⟨y, hy, hb⟩ := List.mem_flatMap.1 hb
    simpa using hx y hy b ((mem_distinct _ _).1 hb)

/-- Where one item has a block only, its block is all there is. -/
theorem flatMap_eq_of_unique {α β : Type} [DecidableEq α] {block : α → List β} {xs : List α} {a : α}
    (hnodup : xs.Nodup) (h : ∀ x ∈ xs, x ≠ a → block x = []) :
    xs.flatMap block = if a ∈ xs then block a else [] := by
  induction xs with
  | nil => rfl
  | cons x xs ih =>
    obtain ⟨hnew, hnodup⟩ := List.nodup_cons.1 hnodup
    rw [List.flatMap_cons, ih hnodup fun y hy => h y (List.mem_cons_of_mem x hy)]
    by_cases hx : x = a
    · subst hx
      simp [hnew]
    · have hx' : ¬ a = x := fun heq => hx heq.symm
      simp [h x List.mem_cons_self hx, hx']

theorem pairwise_idxOf {α : Type} [DecidableEq α] {xs : List α} (h : xs.Nodup) :
    xs.Pairwise fun x y => xs.idxOf x < xs.idxOf y := by
  refine List.pairwise_iff_getElem.2 fun i j hi hj hlt => ?_
  rwa [h.idxOf_getElem, h.idxOf_getElem]

namespace Gathering

open Constituent Finding

variable {g : Grammar} {aut : Automaton} {allowed inside : Constituent → Bool} {t : Constituent}
  {v : Visit} {d : Nat}

theorem edgeFindings_tokens (ht : inside t = true) (e : Edge) :
    (edgeFindings g inside e).filterMap (tokenOf? t) =
      if e.source == t.source && e.target == t.target && (g.rulesOf e.token).contains t.rule then
        [e.token] else [] := by
  have hrule : ∀ a, ((if inside ⟨e.source, a, e.target⟩ then
      [Finding.token ⟨e.source, a, e.target⟩ e.token] else []).filterMap (tokenOf? t)) =
        if (⟨e.source, a, e.target⟩ : Constituent) = t then [e.token] else [] := by
    intro a
    by_cases heq : (⟨e.source, a, e.target⟩ : Constituent) = t
    · simp [heq, ht, tokenOf?]
    · split <;> simp [tokenOf?, heq]
  rw [edgeFindings, List.filterMap_flatMap]
  simp only [hrule]
  obtain ⟨source, rule, target⟩ := t
  simp only [Constituent.mk.injEq]
  by_cases hends : e.source = source ∧ e.target = target
  · rw [flatMap_eq_of_unique (a := rule) (g.nodup_rulesOf e.token)
      fun a _ ha => if_neg fun h => ha h.2.1]
    simp [hends.1, hends.2]
  · have hnone : ∀ a ∈ g.rulesOf e.token,
        (if e.source = source ∧ a = rule ∧ e.target = target then [e.token] else []) = [] :=
      fun a _ => if_neg fun h => hends ⟨h.1, h.2.2⟩
    rw [List.flatMap_eq_nil_iff.2 hnone, if_neg]
    simp only [Bool.and_eq_true, beq_iff_eq]
    exact fun h => hends h.1

theorem tokens_of_findings (ht : inside t = true) :
    (findings g aut inside).filterMap (tokenOf? t) = Arena.leavesOf g aut t := by
  have hpairs : ((visits aut).flatMap (visitFindings g inside)).filterMap (tokenOf? t) = [] := by
    refine List.filterMap_eq_nil_iff.2 fun f hf => ?_
    obtain ⟨v, -, hf⟩ := List.mem_flatMap.1 hf
    obtain ⟨pair, -, hf⟩ := List.mem_flatMap.1 hf
    rw [pairFindings] at hf
    split at hf
    · obtain ⟨p, -, rfl⟩ := List.mem_map.1 hf
      rfl
    · cases hf
  rw [findings, List.filterMap_append, hpairs, List.append_nil, tokenFindings,
    List.filterMap_flatMap, Arena.leavesOf, List.map_eq_flatMap, flatMap_filter]
  exact List.flatMap_congr fun e _ => edgeFindings_tokens ht e

theorem pairwise_visits (aut : Automaton) :
    (visits aut).Pairwise fun v v' => v.source ≠ v'.source ∨ v.target ≠ v'.target := by
  refine List.pairwise_flatMap.2 ⟨fun s hs => ?_, ?_⟩
  · obtain ⟨d, -, rfl⟩ := List.mem_map.1 hs
    exact (Arena.pairwise_visits aut d).imp Or.inl
  · refine List.pairwise_map.2 ((List.pairwise_lt_range' 1 Nat.one_pos).imp fun {d d'} hlt v hv v' hv' => ?_)
    have hd := (Chart.mem_visits_iff.1 hv).2
    have hd' := (Chart.mem_visits_iff.1 hv').2
    by_contra hsame
    rw [not_or, not_not, not_not] at hsame
    omega

theorem mem_visits : v ∈ visits aut ↔ Chart.IsVisit aut v := by
  simp only [visits, Automaton.strata, List.mem_flatMap, List.mem_map, List.mem_range'_1]
  constructor
  · rintro ⟨_, ⟨d, -, rfl⟩, hv⟩
    exact (Chart.mem_visits_iff.1 hv).1
  · intro hv
    have hlt := hv.source_lt
    have hcount := hv.target_lt
    refine ⟨_, ⟨v.target - v.source, by omega, rfl⟩, Chart.mem_visits_iff.2 ⟨hv, by omega⟩⟩

theorem nodup_visits (aut : Automaton) : (visits aut).Nodup := by
  refine (pairwise_visits aut).imp fun {v v'} h => ?_
  rintro rfl
  exact h.elim (fun h => h rfl) fun h => h rfl

theorem partsOf?_visitFindings_ne (h : v.source ≠ t.source ∨ v.target ≠ t.target) :
    (visitFindings g inside v).filterMap (partsOf? t) = [] := by
  refine List.filterMap_eq_nil_iff.2 fun f hf => partsOf?_ne ?_
  rintro rfl
  obtain ⟨hsource, htarget, -⟩ := whole_of_mem_visitFindings hf
  exact h.elim (fun h => h hsource.symm) fun h => h htarget.symm

theorem partsOf?_visitFindings (ht : inside t = true) :
    (visitFindings g inside (visit aut t)).filterMap (partsOf? t) = partsOf g aut inside t := by
  rw [visitFindings, List.filterMap_flatMap, partsOf, flatMap_filter]
  refine List.flatMap_congr fun pair _ => ?_
  by_cases hrule : pair.1 = t.rule
  · have hwhole : ofVisit (visit aut t) pair.1 = t := by rw [hrule]; rfl
    have hself : (partsOf? t ∘ fun p : Constituent × Constituent => Finding.parts t p.1 p.2) =
        some := by
      funext p
      exact if_pos rfl
    rw [pairFindings, hwhole, if_pos ht, List.filterMap_map, hself, List.filterMap_some,
      if_pos (beq_iff_eq.2 hrule)]
  · rw [if_neg (by simpa using hrule)]
    refine List.filterMap_eq_nil_iff.2 fun f hf => partsOf?_ne ?_
    rw [pairFindings] at hf
    split at hf
    · obtain ⟨p, -, rfl⟩ := List.mem_map.1 hf
      exact fun heq => hrule (congrArg Constituent.rule heq)
    · cases hf

theorem parts_of_findings (ht : inside t = true) :
    (findings g aut inside).filterMap (partsOf? t) = partsOf g aut inside t := by
  have htokens : (tokenFindings g aut inside).filterMap (partsOf? t) = [] := by
    refine List.filterMap_eq_nil_iff.2 fun f hf => ?_
    obtain ⟨e, -, hf⟩ := List.mem_flatMap.1 hf
    obtain ⟨a, -, hf⟩ := List.mem_flatMap.1 hf
    split at hf
    · obtain rfl := List.mem_singleton.1 hf
      rfl
    · cases hf
  have hother : ∀ v ∈ visits aut, v ≠ visit aut t →
      (visitFindings g inside v).filterMap (partsOf? t) = [] := by
    intro v hv hne
    refine partsOf?_visitFindings_ne ?_
    by_contra hsame
    rw [not_or, not_not, not_not] at hsame
    obtain ⟨source, target, midpoints⟩ := v
    obtain ⟨rfl, rfl⟩ : source = t.source ∧ target = t.target := hsame
    exact hne (congrArg (Visit.mk _ _) (mem_visits.1 hv).midpoints_eq)
  rw [findings, List.filterMap_append, htokens, List.nil_append, List.filterMap_flatMap,
    flatMap_eq_of_unique (nodup_visits aut) hother, partsOf?_visitFindings ht]
  split
  · rfl
  · next hnot =>
    by_contra hne
    exact hnot (mem_visits.2 (isVisit_of_partsOf_ne_nil fun hnil => hne hnil.symm))

theorem nodeFrom_findings (ht : inside t = true) (ls : List Constituent) :
    nodeFrom (findings g aut inside) ls t = Arena.nodeOf g aut inside ls t := by
  rw [nodeFrom, tokens_of_findings ht, parts_of_findings ht, Arena.nodeOf]

theorem map_whole_edgeFindings (e : Edge) : (edgeFindings g inside e).map Finding.whole =
    ((g.rulesOf e.token).map fun a => ⟨e.source, a, e.target⟩).filter inside := by
  rw [edgeFindings]
  induction g.rulesOf e.token with
  | nil => rfl
  | cons a as ih =>
    rw [List.flatMap_cons, List.map_append, ih, List.map_cons, List.filter_cons]
    split <;> rfl

theorem leafLabels_eq_filter (d : Nat) : Arena.leafLabels g aut inside d =
    (labels (tokenFindings g aut inside)).filter fun t => t.target - t.source == d := by
  rw [Arena.leafLabels, labels, ← distinct_filter, tokenFindings, List.map_flatMap,
    List.filter_flatMap, flatMap_filter]
  congr 1
  refine List.flatMap_congr fun e _ => ?_
  rw [map_whole_edgeFindings]
  by_cases hd : (e.target - e.source == d) = true
  · rw [if_pos hd]
    refine (List.filter_eq_self.2 fun t ht => ?_).symm
    obtain ⟨a, -, rfl⟩ := List.mem_map.1 (List.mem_filter.1 ht).1
    exact hd
  · rw [if_neg hd]
    refine (List.filter_eq_nil_iff.2 fun t ht => ?_).symm
    obtain ⟨a, -, rfl⟩ := List.mem_map.1 (List.mem_filter.1 ht).1
    exact hd

/-- Of all that is found over a visited pair of states, what is not a token is new. -/
theorem filter_heads_eq (v : Visit) :
    (distinct ((heads g inside v).map (ofVisit v))).filter
        (fun t => !((tokenFindings g aut inside).map Finding.whole).contains t) =
      pairLabels g aut inside v := by
  have hdistinct : distinct ((heads g inside v).map (ofVisit v)) =
      (distinct (heads g inside v)).map (ofVisit v) := by
    rw [← List.filterMap_eq_map, distinct_filterMap, List.filterMap_eq_map]
    intro a b t ha hb
    have heq : ofVisit v a = ofVisit v b := Option.some.inj (ha.trans hb.symm)
    exact congrArg Constituent.rule heq
  rw [hdistinct, List.filter_map, pairLabels, pairRules]
  congr 1
  refine List.filter_congr fun a ha => ?_
  have hinside := (mem_heads.1 ((mem_distinct _ _).1 ha)).1
  rw [Bool.eq_iff_iff, isEmpty_leavesOf_iff, Function.comp_apply, Bool.not_eq_true',
    ← Bool.not_eq_true, List.contains_iff_mem, ← mem_distinct, ← labels, mem_labels_tokenFindings]
  exact not_congr (and_iff_left hinside)

/-- First all tokens are found, then visit by visit what is not a token. -/
theorem labels_findings_eq : labels (findings g aut inside) =
    labels (tokenFindings g aut inside) ++ (visits aut).flatMap (pairLabels g aut inside) := by
  have hdisjoint : (visits aut).Pairwise fun v v' => ∀ t ∈ (heads g inside v').map (ofVisit v'),
      t ∉ (heads g inside v).map (ofVisit v) := by
    refine (pairwise_visits aut).imp fun {v v'} hne t ht' ht => ?_
    obtain ⟨a', -, rfl⟩ := List.mem_map.1 ht'
    obtain ⟨a, -, heq⟩ := List.mem_map.1 ht
    exact hne.elim (fun h => h (congrArg Constituent.source heq))
      fun h => h (congrArg Constituent.target heq)
  rw [labels, findings, List.map_append, distinct_append, List.map_flatMap]
  simp only [map_whole_visitFindings]
  rw [distinct_flatMap hdisjoint, List.filter_flatMap]
  simp only [filter_heads_eq]
  rfl

theorem stratumLabels_sublist (hd : d ∈ List.range' 1 (aut.stateCount - 1)) :
    (stratumLabels g aut inside (aut.stratum aut.reach d)).Sublist
      (labels (findings g aut inside)) := by
  have hmem : aut.stratum aut.reach d ∈ aut.strata := List.mem_map_of_mem hd
  rw [labels_findings_eq, stratumLabels, leafLabels_eq_filter]
  refine (List.filter_sublist).append ?_
  rw [visits, List.flatMap_assoc]
  rw [List.flatMap_def]
  exact List.sublist_flatten_of_mem (List.mem_map_of_mem hmem)

/-- By lesser distance, and over one distance in the order of a list. -/
def Before (ls : List Constituent) (t u : Constituent) : Prop :=
  t.target - t.source < u.target - u.source ∨
    t.target - t.source = u.target - u.source ∧ ls.idxOf t < ls.idxOf u

/-- The order of creation is that of gathering, sorted by distance. -/
theorem pairwise_creationOrder (hadmits : Admits g aut inside allowed) :
    (creationOrder g aut inside).Pairwise (Before (labels (findings g aut inside))) := by
  refine List.pairwise_flatMap.2 ⟨fun s hs => ?_, ?_⟩
  · obtain ⟨d, hd, rfl⟩ := List.mem_map.1 hs
    refine ((pairwise_idxOf (nodup_labels _)).sublist (stratumLabels_sublist hd)).imp_of_mem
      fun {t u} ht hu hlt => .inr ⟨?_, hlt⟩
    have hdt := (hadmits.mem_stratumLabels.1 ht).1
    have hdu := (hadmits.mem_stratumLabels.1 hu).1
    omega
  · refine List.pairwise_map.2 ((List.pairwise_lt_range' 1 Nat.one_pos).imp fun {d d'} hlt t ht u hu => .inl ?_)
    have hdt := (hadmits.mem_stratumLabels.1 ht).1
    have hdu := (hadmits.mem_stratumLabels.1 hu).1
    omega

end Gathering

end GrammarRepair
