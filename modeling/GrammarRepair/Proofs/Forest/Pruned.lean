import GrammarRepair.Proofs.Forest.Renaming
import GrammarRepair.Proofs.Forest.Template

/-!
The forest of a pruned grammar. Useless rules never get into the forest of the unpruned grammar, and
the tables of both grammars list the others in the same order, so the constituents are made in the
same order. Main statement: pruning first changes nothing about a forest but the numbers of the rules
in the labels of its nodes.
-/

namespace GrammarRepair

/-- A place in a list is kept when all items are renamed, no two to the same name. -/
theorem idxOf_filterMap {α β : Type} [DecidableEq α] [DecidableEq β] {f : α → Option β}
    (hf : ∀ x y z, f x = some z → f y = some z → x = y) {xs : List α}
    (hall : ∀ x ∈ xs, ∃ y, f x = some y) {x : α} {y : β} (hx : f x = some y) :
    (xs.filterMap f).idxOf y = xs.idxOf x := by
  induction xs with
  | nil => rfl
  | cons z zs ih =>
    obtain ⟨w, hz⟩ := hall z List.mem_cons_self
    have hsame : (w == y) = (z == x) := by
      rw [Bool.eq_iff_iff, beq_iff_eq, beq_iff_eq]
      constructor
      · rintro rfl
        exact hf z x w hz hx
      · rintro rfl
        exact Option.some.inj (hz.symm.trans hx)
    rw [List.filterMap_cons_some hz, List.idxOf_cons, List.idxOf_cons, hsame,
      ih fun z hz => hall z (List.mem_cons_of_mem _ hz)]

theorem forall₂_map_filterMap {α β γ δ : Type} {R : γ → δ → Prop} {f : α → Option β} {h : α → γ}
    {k : β → δ} {xs : List α} (hall : ∀ x ∈ xs, ∃ y, f x = some y ∧ R (h x) (k y)) :
    List.Forall₂ R (xs.map h) ((xs.filterMap f).map k) := by
  induction xs with
  | nil => exact .nil
  | cons x xs ih =>
    obtain ⟨y, hy, hR⟩ := hall x List.mem_cons_self
    rw [List.filterMap_cons_some hy]
    exact .cons hR (ih fun z hz => hall z (List.mem_cons_of_mem _ hz))

namespace Constituent

variable {g : Grammar} {aut : Automaton} {t t' : Constituent} {v : Visit} {a i d : Nat}

theorem leafLabels_prune (g : Grammar) (aut : Automaton) (d : Nat) :
    Arena.leafLabels g.prune aut (isNeeded g.prune aut) d =
      (Arena.leafLabels g aut (isNeeded g aut) d).filterMap (renamed? g) := by
  rw [Arena.leafLabels, Arena.leafLabels, ← distinct_filterMap fun _ _ _ => renamed?_injective,
    List.filterMap_flatMap]
  congr 1
  refine List.flatMap_congr fun e _ => ?_
  rw [Grammar.rulesOf_prune, List.map_filterMap, List.filter_filterMap, List.filterMap_filter,
    List.filterMap_map]
  refine List.filterMap_congr fun a _ => ?_
  cases ha : g.prunedRule? a with
  | none => simp [renamed?, ha]
  | some i =>
    have hlabel := renamed?_mk (p := e.source) (q := e.target) ha
    rw [Function.comp_apply, hlabel, ← isNeeded_renamed hlabel, Option.map_some,
      Option.filter_some]

def renamedParts? (g : Grammar) (p : Constituent × Constituent) :
    Option (Constituent × Constituent) := do
  pure (← renamed? g p.1, ← renamed? g p.2)

/-- A production that stays is split into the renamed parts, and one that does not has no needed
parts. -/
theorem partsOver_prune {pair : Nat × Nat × Nat} (hi : g.prunedRule? pair.1 = some i)
    (aut : Automaton) (v : Visit) :
    (g.prunedPair? pair).elim [] (partsOver (isNeeded g.prune aut) v) =
      (partsOver (isNeeded g aut) v pair).filterMap (renamedParts? g) := by
  obtain ⟨a, b, c⟩ := pair
  cases hpair : g.prunedPair? (a, b, c) with
  | none =>
    symm
    refine List.filterMap_eq_nil_iff.2 fun p hp => ?_
    obtain ⟨l, r⟩ := p
    obtain ⟨m, -, rfl, rfl, hl, hr⟩ := mem_partsOver.1 hp
    obtain ⟨l', hl'⟩ := (isNeeded_iff.1 hl).exists_renamed
    obtain ⟨r', hr'⟩ := (isNeeded_iff.1 hr).exists_renamed
    have hsome := Grammar.prunedPair?_eq_some_iff.2 ⟨hi, (renamed?_eq_some_iff.1 hl').2.2,
      (renamed?_eq_some_iff.1 hr').2.2, (isNeeded_iff.1 hl).isUseful, (isNeeded_iff.1 hr).isUseful⟩
    rw [hpair] at hsome
    cases hsome
  | some pair' =>
    obtain ⟨i', j, k⟩ := pair'
    obtain ⟨-, hj, hk, -, -⟩ := Grammar.prunedPair?_eq_some_iff.1 hpair
    rw [Option.elim_some, partsOver, partsOver, List.filterMap_filter, List.filterMap_map,
      ← List.filterMap_eq_filter, List.filterMap_map]
    refine List.filterMap_congr fun m _ => ?_
    have hl := renamed?_mk (p := v.source) (q := m) hj
    have hr := renamed?_mk (p := m) (q := v.target) hk
    have hparts : renamedParts? g (halves v (a, b, c) m) = some (halves v (i', j, k) m) := by
      rw [renamedParts?, halves, hl, hr]
      rfl
    rw [Function.comp_apply, Function.comp_apply, hparts, halves, halves, ← isNeeded_renamed hl,
      ← isNeeded_renamed hr, Option.guard]

theorem partsOf_prune (ht : renamed? g t = some t') :
    partsOf g.prune aut (isNeeded g.prune aut) t' =
      (partsOf g aut (isNeeded g aut) t).filterMap (renamedParts? g) := by
  obtain ⟨hsource, htarget, hrule⟩ := renamed?_eq_some_iff.1 ht
  have hvisit : visit aut t' = visit aut t := by rw [visit, visit, hsource, htarget]
  rw [partsOf, partsOf, hvisit, Grammar.pairs_prune, flatMap_filter, flatMap_filter,
    flatMap_filterMap, List.filterMap_flatMap]
  refine List.flatMap_congr fun pair _ => ?_
  by_cases hhead : pair.1 = t.rule
  · have hparts := partsOver_prune (hhead ▸ hrule) aut (visit aut t)
    rw [if_pos (beq_iff_eq.2 hhead), ← hparts]
    cases hpair : g.prunedPair? pair with
    | none => rfl
    | some pair' =>
      have hhead' : pair'.1 = t'.rule := by
        have hnew := (Grammar.prunedPair?_eq_some_iff.1 hpair).1
        rw [hhead, hrule] at hnew
        exact (Option.some.inj hnew).symm
      rw [Option.elim_some, Option.elim_some, if_pos (beq_iff_eq.2 hhead')]
  · rw [if_neg (by simpa using hhead)]
    cases hpair : g.prunedPair? pair with
    | none => rfl
    | some pair' =>
      have hhead' : pair'.1 ≠ t'.rule := by
        intro heq
        have hnew := (Grammar.prunedPair?_eq_some_iff.1 hpair).1
        rw [heq] at hnew
        exact hhead (Grammar.prunedRule?_injective hnew hrule)
      rw [Option.elim_some, if_neg (by simpa using hhead')]
      rfl

theorem exists_renamedParts {p : Constituent × Constituent} {pair : Nat × Nat × Nat}
    (hp : p ∈ partsOver (isNeeded g aut) v pair) : ∃ p', renamedParts? g p = some p' := by
  obtain ⟨l, r⟩ := p
  obtain ⟨-, -, -, -, hl, hr⟩ := mem_partsOver.1 hp
  obtain ⟨l', hl'⟩ := (isNeeded_iff.1 hl).exists_renamed
  obtain ⟨r', hr'⟩ := (isNeeded_iff.1 hr).exists_renamed
  exact ⟨(l', r'), by simp [renamedParts?, hl', hr']⟩

theorem heads_prune (v : Visit) : heads g.prune (isNeeded g.prune aut) v =
    (heads g (isNeeded g aut) v).filterMap g.prunedRule? := by
  rw [heads, heads, Grammar.pairs_prune, flatMap_filter, flatMap_filter, flatMap_filterMap,
    List.filterMap_flatMap]
  refine List.flatMap_congr fun pair _ => ?_
  cases hi : g.prunedRule? pair.1 with
  | none =>
    have hnone : g.prunedPair? pair = none := by
      rw [Grammar.prunedPair?, hi]
      rfl
    rw [hnone, Option.elim_none]
    symm
    refine List.filterMap_eq_nil_iff.2 fun a ha => ?_
    split at ha
    · obtain ⟨p, -, rfl⟩ := List.mem_map.1 ha
      exact hi
    · cases ha
  | some i =>
    have hlabel := renamed?_mk (p := v.source) (q := v.target) hi
    have hneeded : isNeeded g.prune aut ⟨v.source, i, v.target⟩ =
        isNeeded g aut ⟨v.source, pair.1, v.target⟩ := isNeeded_renamed hlabel
    have hhead : ∀ pair', g.prunedPair? pair = some pair' → pair'.1 = i := fun pair' hpair =>
      Option.some.inj ((Grammar.prunedPair?_eq_some_iff.1 hpair).1.symm.trans hi)
    have hleft : ((g.prunedPair? pair).elim [] fun pair' =>
        if isNeeded g.prune aut (ofVisit v pair'.1) then
          (partsOver (isNeeded g.prune aut) v pair').map fun _ => pair'.1 else []) =
        if isNeeded g aut (ofVisit v pair.1) then
          ((g.prunedPair? pair).elim [] (partsOver (isNeeded g.prune aut) v)).map fun _ => i
        else [] := by
      cases hpair : g.prunedPair? pair with
      | none => simp
      | some pair' =>
        rw [Option.elim_some, Option.elim_some, hhead pair' hpair, ofVisit, ofVisit, hneeded]
    rw [hleft, partsOver_prune hi aut]
    split
    · rw [List.map_filterMap, List.filterMap_map]
      refine List.filterMap_congr fun p hp => ?_
      obtain ⟨p', hp'⟩ := exists_renamedParts hp
      rw [hp', Option.map_some, Function.comp_apply, hi]
    · rfl

theorem leavesOf_prune (ht : renamed? g t = some t') :
    Arena.leavesOf g.prune aut t' = Arena.leavesOf g aut t := by
  obtain ⟨hsource, htarget, hrule⟩ := renamed?_eq_some_iff.1 ht
  have hcontains : ∀ x, (g.prune.rulesOf x).contains t'.rule = (g.rulesOf x).contains t.rule := by
    intro x
    rw [Bool.eq_iff_iff, List.contains_iff_mem, List.contains_iff_mem, Grammar.mem_rulesOf,
      Grammar.mem_rulesOf, Grammar.mem_productions_prune_token]
    constructor
    · rintro ⟨a, ha, hp⟩
      rwa [Grammar.prunedRule?_injective hrule ha]
    · exact fun hp => ⟨_, hrule, hp⟩
  simp only [Arena.leavesOf, hsource, htarget, hcontains]

theorem pairLabels_prune (v : Visit) : pairLabels g.prune aut (isNeeded g.prune aut) v =
    (pairLabels g aut (isNeeded g aut) v).filterMap (renamed? g) := by
  rw [pairLabels, pairLabels, pairRules, pairRules, heads_prune,
    distinct_filterMap fun _ _ _ => Grammar.prunedRule?_injective, List.filter_filterMap,
    List.map_filterMap, List.filterMap_map, List.filterMap_filter]
  refine List.filterMap_congr fun a _ => ?_
  cases ha : g.prunedRule? a with
  | none => simp [renamed?, ofVisit, ha]
  | some i =>
    have hlabel := renamed?_mk (p := v.source) (q := v.target) ha
    rw [Function.comp_apply, ofVisit, hlabel, Option.filter_some, ofVisit, leavesOf_prune hlabel]
    split <;> rfl

/-- The needed constituents are made in the same order after pruning. -/
theorem neededOrder_prune (g : Grammar) (aut : Automaton) :
    neededOrder g.prune aut = (neededOrder g aut).filterMap (renamed? g) := by
  rw [neededOrder, neededOrder, creationOrder, creationOrder, List.filterMap_flatMap]
  refine List.flatMap_congr fun s _ => ?_
  rw [stratumLabels, stratumLabels, List.filterMap_append, List.filterMap_flatMap,
    leafLabels_prune]
  congr 1
  exact List.flatMap_congr fun v _ => pairLabels_prune v

theorem idxOf_neededOrder_prune (ht : renamed? g t = some t') :
    (neededOrder g.prune aut).idxOf t' = (neededOrder g aut).idxOf t := by
  rw [neededOrder_prune]
  exact idxOf_filterMap (fun _ _ _ => renamed?_injective)
    (fun u hu => (mem_neededOrder.1 hu).exists_renamed) ht

end Constituent

structure Node.Renumbers (new? : Nat → Option Nat) (node node' : Node) : Prop where
  source_eq : node'.label.source = node.label.source
  rule_eq : new? node.label.rule = some node'.label.rule
  target_eq : node'.label.target = node.label.target
  leaves_eq : node'.leaves = node.leaves
  branches_eq : node'.branches = node.branches

/-- The same forest but for the numbers of the rules. -/
structure Forest.Renumbers (new? : Nat → Option Nat) (f f' : Forest) : Prop where
  nodes : List.Forall₂ (Node.Renumbers new?) f.nodes.toList f'.nodes.toList
  roots_eq : f'.roots = f.roots
  counts_eq : f'.counts = f.counts

open Constituent

variable {g : Grammar} {aut : Automaton} {t t' : Constituent} {f f' : Forest}

theorem renumbers_nodeOf (ht : renamed? g t = some t') :
    Node.Renumbers g.prunedRule? (Arena.nodeOf g aut (isNeeded g aut) (neededOrder g aut) t)
      (Arena.nodeOf g.prune aut (isNeeded g.prune aut) (neededOrder g.prune aut) t') := by
  obtain ⟨hsource, htarget, hrule⟩ := renamed?_eq_some_iff.1 ht
  refine ⟨hsource, hrule, htarget, leavesOf_prune ht, ?_⟩
  rw [Arena.nodeOf, Arena.nodeOf, partsOf_prune ht, List.map_filterMap, ← List.filterMap_eq_map]
  refine List.filterMap_congr fun p hp => ?_
  obtain ⟨pair, -, hp⟩ := List.mem_flatMap.1 hp
  obtain ⟨⟨l', r'⟩, hparts⟩ := exists_renamedParts hp
  have hl : renamed? g p.1 = some l' ∧ renamed? g p.2 = some r' := by
    simpa [renamedParts?, Option.bind_eq_some_iff] using hparts
  rw [hparts, Option.map_some, idxOf_neededOrder_prune hl.1, idxOf_neededOrder_prune hl.2]
  rfl

theorem Node.Renumbers.count_eq {new? : Nat → Option Nat} {node node' : Node}
    (h : node.Renumbers new? node') (counts : Array Nat) :
    node'.count counts = node.count counts := by
  rw [Node.count, Node.count, h.leaves_eq, h.branches_eq]

/-- Counting derivations does not look at rules. -/
theorem countAll_eq_of_renumbers {new? : Nat → Option Nat} {nodes nodes' : Array Node}
    (h : List.Forall₂ (Node.Renumbers new?) nodes.toList nodes'.toList) :
    Node.countAll nodes' = Node.countAll nodes := by
  have hfold : ∀ {ns ns' : List Node}, List.Forall₂ (Node.Renumbers new?) ns ns' →
      ∀ counts : Array Nat, ns'.foldl (fun counts node => counts.push (node.count counts)) counts =
        ns.foldl (fun counts node => counts.push (node.count counts)) counts := by
    intro ns ns' hns
    induction hns with
    | nil => exact fun _ => rfl
    | cons hnode _ ih =>
      intro counts
      rw [List.foldl_cons, List.foldl_cons, hnode.count_eq, ih]
  rw [Node.countAll, Node.countAll, ← Array.foldl_toList, ← Array.foldl_toList, hfold h]

theorem Forest.IsFull.renumbers (h : f.IsFull g aut) (h' : f'.IsFull g.prune aut) :
    Forest.Renumbers g.prunedRule? f f' := by
  have hnodes : List.Forall₂ (Node.Renumbers g.prunedRule?) f.nodes.toList f'.nodes.toList := by
    rw [h.nodes_eq, h'.nodes_eq, neededOrder_prune]
    refine forall₂_map_filterMap fun t ht => ?_
    obtain ⟨t', ht'⟩ := (mem_neededOrder.1 ht).exists_renamed
    rw [← neededOrder_prune]
    exact ⟨t', ht', renumbers_nodeOf ht'⟩
  refine ⟨hnodes, ?_, ?_⟩
  · refine h'.roots_ascending.eq_of_mem_iff h.roots_ascending fun x => ?_
    rw [h.mem_roots, h'.mem_roots]
    refine exists_congr fun p => and_congr_right fun _ => exists_congr fun q =>
      and_congr_right fun _ => ?_
    have hstart := renamed?_mk (p := p) (q := q) g.prunedRule?_start
    rw [needed_renamed_iff hstart, idxOf_neededOrder_prune hstart]
  · rw [f.counts_eq, f'.counts_eq, countAll_eq_of_renumbers hnodes]

theorem Forest.Found.renumbers {found found' : Option Forest} (h : Forest.Found g aut found)
    (h' : Forest.Found g.prune aut found') :
    Option.Rel (Forest.Renumbers g.prunedRule?) found found' := by
  have hsome : found'.isSome = found.isSome := by
    rw [Bool.eq_iff_iff, h.isSome_iff, h'.isSome_iff, exists_needed_prune_iff]
  cases found with
  | none =>
    cases found' with
    | none => exact .none
    | some f' => cases hsome
  | some f =>
    cases found' with
    | none => cases hsome
    | some f' => exact .some ((h.isFull f rfl).renumbers (h'.isFull f' rfl))

/-- Pruning a grammar first changes nothing about a forest but the numbers of the rules: no forest is
found in both ways, or the same nodes, branches, roots and counts in the same order, where each rule
has the number that pruning gives it. -/
theorem forest_of_pruned (g : Grammar) (aut : Automaton) :
    (∃ found found', (forest g aut none).value = .ok found ∧
      (forest g.prune aut none).value = .ok found' ∧
      Option.Rel (Forest.Renumbers g.prunedRule?) found found' ∧
      (forest g.prune aut none).events = (forest g aut none).events) ∧
    ∀ a i, g.prunedRule? a = some i →
      i < g.prune.ruleCount ∧ g.prune.ruleName i = g.ruleName a := by
  obtain ⟨found, hforest, hfound⟩ := exists_forest_none g aut
  obtain ⟨found', hforest', hfound'⟩ := exists_forest_none g.prune aut
  refine ⟨⟨found, found', ?_, ?_, hfound.renumbers hfound', ?_⟩, fun _ _ => Grammar.ruleName_prune⟩
  · rw [hforest]
  · rw [hforest']
  · rw [hforest, hforest']

end GrammarRepair
