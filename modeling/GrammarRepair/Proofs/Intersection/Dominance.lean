import GrammarRepair.Proofs.Agreement

/-!
In a grid, an intersection is built from all triples of states that dominate each other, also where
no path leads from one to the next. Nothing derives a string between such states, so what they add to
the draft is not needed and is pruned. Main statement: the productions that are left are those that a
draft by reachability leaves.
-/

namespace GrammarRepair

namespace Intersection

open Constituent

variable {g : Grammar} {aut : Automaton} {follows follows' : Nat → Nat → Bool}

noncomputable def neededTerminals (g : Grammar) (aut : Automaton) : List (Constituent × Nat) :=
  (aut.edges.flatMap (terminalsOf g)).filter fun p => isNeeded g aut p.1

noncomputable def neededPairs (g : Grammar) (aut : Automaton) :
    List (Constituent × Constituent × Constituent) :=
  ((stateTriples aut.stateCount fun _ _ => true).flatMap (pairsOver g)).filter fun p =>
    isNeeded g aut p.1 && isNeeded g aut p.2.1 && isNeeded g aut p.2.2

noncomputable def neededStarts (g : Grammar) (aut : Automaton) : List Constituent :=
  (aut.initials.flatMap fun p => aut.finals.map fun q => ⟨p, g.start, q⟩).filter (isNeeded g aut)

/-- The test takes its triples from all ascending ones. -/
theorem stateTriples_eq_filter (n : Nat) (follows : Nat → Nat → Bool) :
    stateTriples n follows = (stateTriples n fun _ _ => true).filter fun s =>
      follows s.1 s.2.1 && follows s.2.1 s.2.2 := by
  simp only [stateTriples, List.filter_flatMap]
  refine List.flatMap_congr fun p _ => flatMap_filter_congr fun q _ => ?_
  rw [List.filter_map, List.filter_filter]
  by_cases hpq : follows p q = true
  · simp [hpq]
  · simp [hpq]

section

variable (hfollows : ∀ p w q, w ≠ [] → aut.Path p w q → follows p q = true)

include hfollows

/-- A triple that the test leaves out has no needed production over it. -/
theorem filter_pairsOver_of_not_follows {s : Nat × Nat × Nat}
    (hs : ¬ (follows s.1 s.2.1 && follows s.2.1 s.2.2) = true) :
    ((pairsOver g s).filter fun p =>
      isNeeded g aut p.1 && isNeeded g aut p.2.1 && isNeeded g aut p.2.2) = [] := by
  refine List.filter_eq_nil_iff.2 fun p hp hneeded => hs ?_
  obtain ⟨pair, -, rfl⟩ := List.mem_map.1 hp
  simp only [Bool.and_eq_true, isNeeded_iff] at hneeded ⊢
  obtain ⟨⟨-, hleft⟩, hright⟩ := hneeded
  exact ⟨follows_of_spans hfollows hleft.spanned, follows_of_spans hfollows hright.spanned⟩

theorem labelledTerminals_pruned : (pruned g aut follows).labelledTerminals =
    (neededTerminals g aut).map fun p => (some p.1, p.2) :=
  (keepsBy_isNeeded hfollows).labelledTerminals_eq (records_draft g aut follows)

theorem labelledPairs_pruned : (pruned g aut follows).labelledPairs =
    (neededPairs g aut).map fun p => (some p.1, some p.2.1, some p.2.2) := by
  rw [pruned, (keepsBy_isNeeded hfollows).labelledPairs_eq (records_draft g aut follows),
    neededPairs, stateTriples_eq_filter, List.filter_flatMap, List.filter_flatMap, flatMap_filter]
  refine congrArg _ (List.flatMap_congr fun s _ => ?_)
  split
  · rfl
  · next hs => rw [filter_pairsOver_of_not_follows hfollows hs]

theorem start_labels_pruned : (pruned g aut follows).starts.map (pruned g aut follows).label? =
    (neededStarts g aut).map some := by
  have hkeeps := keepsBy_isNeeded (g := g) hfollows
  have hstarts : (pruned g aut follows).starts = (startsOf g aut (draft g aut follows)).filterMap
      (newNumber? (draft g aut follows) (keeps g aut (draft g aut follows))) := rfl
  rw [hstarts, startsOf, neededStarts, List.filterMap_flatMap, List.map_flatMap,
    List.filter_flatMap, List.map_flatMap]
  refine List.flatMap_congr fun p _ => ?_
  rw [List.filterMap_filterMap, List.map_filterMap, List.filter_map, List.map_map,
    ← List.filterMap_eq_map, List.filterMap_filter]
  refine List.filterMap_congr fun q _ => ?_
  cases hposition : (draft g aut follows).roster.position? ⟨p, g.start, q⟩ with
  | none =>
    -- What is needed derives a string, so the draft has a number for it.
    have hnot : isNeeded g aut ⟨p, g.start, q⟩ = false := by
      refine Bool.eq_false_iff.2 fun hneeded => ?_
      obtain ⟨x, hx, -⟩ := exists_item_of_spanned hfollows (isNeeded_iff.1 hneeded).spanned
      rw [(Roster.position?_eq_some_iff _ _ _).2 hx] at hposition
      cases hposition
    simp [hnot]
  | some x =>
    have hitem := (Roster.position?_eq_some_iff _ _ _).1 hposition
    rcases hkeeps.cases (startsOf g aut (draft g aut follows)) aut.labels hitem with
      ⟨hkept, hnone⟩ | ⟨hkept, i, hsome, hlabel⟩
    · simp [hkept, hnone]
    · have hlabel' : (pruned g aut follows).label? i = some ⟨p, g.start, q⟩ := hlabel
      simp [hkept, hsome, hlabel']

end

/-- The start alternatives and the productions, written with constituents. -/
structure HasProductions (ig : Intersection) (starts : List Constituent)
    (pairs : List (Constituent × Constituent × Constituent))
    (terminals : List (Constituent × Nat)) : Prop where
  starts_eq : ig.starts.map ig.label? = starts.map some
  pairs_eq : ig.labelledPairs = pairs.map fun p => (some p.1, some p.2.1, some p.2.2)
  terminals_eq : ig.labelledTerminals = terminals.map fun p => (some p.1, p.2)

theorem hasProductions_pruned
    (hfollows : ∀ p w q, w ≠ [] → aut.Path p w q → follows p q = true) :
    (pruned g aut follows).HasProductions (neededStarts g aut) (neededPairs g aut)
      (neededTerminals g aut) :=
  ⟨start_labels_pruned hfollows, labelledPairs_pruned hfollows, labelledTerminals_pruned hfollows⟩

theorem labels_pruned : (pruned g aut follows).labels = aut.labels := rfl

/-- Two intersections differ in nothing but the numbers that they give their constituents. -/
structure SameProductions (ig ig' : Intersection) : Prop where
  perm_nonterminals : ig.nonterminals.toList.Perm ig'.nonterminals.toList
  nodup_nonterminals : ig.nonterminals.toList.Nodup
  labels_eq : ig.labels = ig'.labels
  exists_productions : ∃ starts pairs terminals,
    ig.HasProductions starts pairs terminals ∧ ig'.HasProductions starts pairs terminals

section

variable (hfollows : ∀ p w q, w ≠ [] → aut.Path p w q → follows p q = true)
  (hfollows' : ∀ p w q, w ≠ [] → aut.Path p w q → follows' p q = true)

include hfollows hfollows'

/-- Any two tests that leave out no state which a path leads to end in the same productions. -/
theorem sameProductions_pruned :
    SameProductions (pruned g aut follows) (pruned g aut follows') := by
  have hnodup := nodup_nonterminals_pruned g aut follows
  refine ⟨?_, hnodup, labels_pruned.trans labels_pruned.symm, _, _, _,
    hasProductions_pruned hfollows, hasProductions_pruned hfollows'⟩
  have hnodup' := nodup_nonterminals_pruned g aut follows'
  refine (List.perm_ext_iff_of_nodup hnodup hnodup').2 fun t => ?_
  rw [Array.mem_toList_iff, Array.mem_toList_iff, mem_nonterminals_pruned hfollows,
    mem_nonterminals_pruned hfollows']

theorem isOk_build_eq :
    (build g aut follows).value.isOk = (build g aut follows').value.isOk :=
  Bool.eq_iff_iff.2 ((isOk_build_iff hfollows).trans (isOk_build_iff hfollows').symm)

end

end Intersection

open Intersection

/-- In a grid, states are tried when their labels dominate each other. The intersection that this
gives is there exactly when the one by reachability is, and it has the same productions. -/
theorem dominance_keeps_productions (g : Grammar) (aut : Automaton) (hgrid : aut.isGrid = true) :
    intersect g aut =
        build g aut (fun p q => p != q && (aut.label p).dominates (aut.label q)) ∧
      (intersect g aut).value.isOk = (build g aut aut.reach.reaches).value.isOk ∧
      ∀ ig ig', (intersect g aut).value = .ok ig →
        (build g aut aut.reach.reaches).value = .ok ig' → SameProductions ig ig' := by
  have hfollows : ∀ p w q, w ≠ [] → aut.Path p w q → follows aut aut.reach p q = true :=
    fun p w q => follows_of_path
  have hreaches : ∀ p w q, w ≠ [] → aut.Path p w q → aut.reach.reaches p q = true :=
    fun p w q hne hpath => Automaton.reaches_iff.2 ⟨w, hne, hpath⟩
  refine ⟨?_, isOk_build_eq hfollows hreaches, ?_⟩
  · unfold intersect follows
    simp only [hgrid, if_true]
  · intro ig ig' hig hig'
    rw [eq_pruned_of_intersect hig, eq_pruned_of_build hig']
    exact sameProductions_pruned hfollows hreaches

/-- A grid with a point that no edge leads to, although the first dominates it. -/
def looseGrid : Automaton where
  labels := #[.grid 0 0, .grid 0 1, .grid 1 1, .grid 2 2]
  edges := [⟨0, 0, 2⟩, ⟨2, 1, 3⟩]
  initials := [0]
  finals := [3]
  nodup_labels := by decide
  source_lt_target := by decide
  target_lt := by decide
  initial_lt := by decide
  final_lt := by decide

theorem dominance_keeps_productions_looseGrid :
    looseGrid.isGrid = true ∧ follows looseGrid looseGrid.reach 0 1 = true ∧
      looseGrid.reach.reaches 0 1 = false ∧
      ∃ ig ig', (intersect twoTokens looseGrid).value = .ok ig ∧
        (build twoTokens looseGrid looseGrid.reach.reaches).value = .ok ig' ∧
        SameProductions ig ig' := by
  have hgrid : looseGrid.isGrid = true := by decide +kernel
  obtain ⟨-, hisOk, hsame⟩ := dominance_keeps_productions twoTokens looseGrid hgrid
  have haccepts : looseGrid.accepts [0, 1] = true := by decide
  have hok := (isOk_intersect_iff twoTokens looseGrid).2
    ⟨[0, 1], isSentence_twoTokens_iff.2 rfl, haccepts⟩
  have hok' := hisOk.symm.trans hok
  refine ⟨hgrid, by decide +kernel, by decide, ?_⟩
  cases h : (intersect twoTokens looseGrid).value with
  | error e => simp [h, Except.isOk, Except.toBool] at hok
  | ok ig =>
    cases h' : (build twoTokens looseGrid looseGrid.reach.reaches).value with
    | error e => simp [h', Except.isOk, Except.toBool] at hok'
    | ok ig' => exact ⟨ig, ig', rfl, rfl, hsame ig ig' h h'⟩

end GrammarRepair
