import GrammarRepair.Proofs.Forest.Template
import GrammarRepair.Proofs.Intersection.Kept

/-!
The three ways to find the constituents of the accepted sentences: from the bottom up and then forward
in an intersection, from the outside in by a template, and by exploring the nodes of a forest. All
three find exactly what is needed. Main statement: they find something or nothing alike, and the
intersection, the forest and the template then hold the same constituents, made up in the same ways.
-/

namespace GrammarRepair

open Constituent

variable {g : Grammar} {aut : Automaton} {t : Constituent}

namespace Chart

variable {c : Chart} {n : Nat}

def entries (c : Chart) : List Constituent :=
  (List.range c.states).flatMap fun p => (List.range c.states).flatMap fun q =>
    (c.members p q).map fun a => ⟨p, a, q⟩

theorem mem_entries : t ∈ c.entries ↔
    t.source < c.states ∧ t.target < c.states ∧ t.rule < c.rules ∧ c.Holds t := by
  simp only [entries, List.mem_flatMap, List.mem_range, List.mem_map, mem_members]
  constructor
  · rintro ⟨p, hp, q, hq, a, ⟨ha, hhas⟩, rfl⟩
    exact ⟨hp, hq, ha, hhas⟩
  · rintro ⟨hp, hq, ha, hhas⟩
    exact ⟨t.source, hp, t.target, hq, t.rule, ⟨ha, hhas⟩, rfl⟩

theorem Fits.exists_slot (h : c.Fits n) {i : Nat} (hi : i < c.cells.size) :
    ∃ p q, q < n ∧ c.slot p q = i := by
  rw [h.size_eq] at hi
  have hpos : 0 < n := Nat.pos_of_ne_zero fun hzero => by simp [hzero] at hi
  refine ⟨i / n, i % n, Nat.mod_lt i hpos, ?_⟩
  rw [slot, h.states_eq, Nat.mul_comm, Nat.div_add_mod]

theorem Fits.isEmpty_iff (h : c.Fits n) : c.isEmpty = true ↔
    ∀ t : Constituent, t.target < n → ¬ c.Holds t := by
  have hcell : ∀ p q, (hi : c.slot p q < c.cells.size) → c.cells[c.slot p q] = c.cell p q :=
    fun p q hi => by simp [cell, Array.getD, hi]
  simp only [isEmpty, Array.all_eq_true]
  constructor
  · rintro hall ⟨p, a, q⟩ - hholds
    have hempty : (c.cell p q).isEmpty = true := by
      by_cases hi : c.slot p q < c.cells.size
      · rw [← hcell p q hi]
        exact hall _ hi
      · simp [cell, Array.getD, hi, NatSet.isEmpty, NatSet.empty]
    have hnot : c.has p a q = false := isEmpty_cell_iff.1 hempty a
    rw [Holds, hnot] at hholds
    cases hholds
  · intro hnone i hi
    obtain ⟨p, q, hq, rfl⟩ := h.exists_slot hi
    rw [hcell p q hi, isEmpty_cell_iff]
    exact fun a => Bool.eq_false_iff.2 (hnone ⟨p, a, q⟩ hq)

end Chart

theorem Constituent.nodup_neededOrder (g : Grammar) (aut : Automaton) :
    (neededOrder g aut).Nodup :=
  (Arena.lists_grow ((partClosed_isNeeded g aut).admits fun _ _ => rfl)).nodup

namespace Forest

variable {f : Forest}

def labels (f : Forest) : List Constituent := f.nodes.toList.map (·.label)

def label? (f : Forest) (x : Nat) : Option Constituent := f.nodes[x]?.map (·.label)

def bodiesOf (f : Forest) (node : Node) : List (Option Constituent × Option Constituent) :=
  node.branches.map fun b => (f.label? b.1, f.label? b.2)

theorem IsFull.labels_eq (h : f.IsFull g aut) : f.labels = neededOrder g aut := by
  rw [labels, h.nodes_eq, List.map_map]
  exact List.map_id _

theorem IsFull.label?_idxOf (h : f.IsFull g aut) (ht : t.Needed g aut) :
    f.label? ((neededOrder g aut).idxOf t) = some t := by
  rw [label?, h.getElem?_nodes ht]
  rfl

theorem IsFull.of_mem_nodes (h : f.IsFull g aut) {node : Node} (hnode : node ∈ f.nodes.toList) :
    node.label.Needed g aut ∧ node.leaves = Arena.leavesOf g aut node.label ∧
      f.bodiesOf node = (partsOf g aut (isNeeded g aut) node.label).map fun p =>
        (some p.1, some p.2) := by
  rw [h.nodes_eq] at hnode
  obtain ⟨t, ht, rfl⟩ := List.mem_map.1 hnode
  have hneeded := mem_neededOrder.1 ht
  refine ⟨hneeded, rfl, ?_⟩
  rw [bodiesOf, Arena.nodeOf, List.map_map]
  refine List.map_congr_left fun p hp => ?_
  have hsplits := ((partClosed_isNeeded g aut).mem_partsOf (isNeeded_iff.2 hneeded)).1 hp
  have hl := h.label?_idxOf (hneeded.part ⟨p.1, p.2, hsplits, .inl rfl⟩)
  have hr := h.label?_idxOf (hneeded.part ⟨p.1, p.2, hsplits, .inr rfl⟩)
  rw [Function.comp_apply, hl, hr]

theorem IsFull.mem_root_labels (h : f.IsFull g aut) (o : Option Constituent) :
    o ∈ f.roots.map f.label? ↔
      ∃ p ∈ aut.initials, ∃ q ∈ aut.finals, Needed g aut ⟨p, g.start, q⟩ ∧
        o = some ⟨p, g.start, q⟩ := by
  simp only [List.mem_map, h.mem_roots]
  constructor
  · rintro ⟨_, ⟨p, hp, q, hq, hneeded, rfl⟩, rfl⟩
    exact ⟨p, hp, q, hq, hneeded, h.label?_idxOf hneeded⟩
  · rintro ⟨p, hp, q, hq, hneeded, rfl⟩
    exact ⟨_, ⟨p, hp, q, hq, hneeded, rfl⟩, h.label?_idxOf hneeded⟩

theorem IsFull.nodup_root_labels (h : f.IsFull g aut) : (f.roots.map f.label?).Nodup := by
  refine List.Nodup.map_on (fun x hx y hy heq => ?_) (h.roots_ascending.imp Nat.ne_of_lt)
  obtain ⟨p, hp, q, hq, hneeded, rfl⟩ := (h.mem_roots x).1 hx
  obtain ⟨p', hp', q', hq', hneeded', rfl⟩ := (h.mem_roots y).1 hy
  rw [h.label?_idxOf hneeded, h.label?_idxOf hneeded', Option.some.injEq] at heq
  rw [heq]

end Forest

namespace Intersection

variable {follows : Nat → Nat → Bool}

theorem nodup_startsOf {d : Draft} (hinitials : aut.initials.Nodup) (hfinals : aut.finals.Nodup) :
    (startsOf g aut d).Nodup := by
  refine List.nodup_flatMap.2 ⟨fun p _ => hfinals.filterMap fun q q' x hx hx' => ?_,
    hinitials.imp fun {p p'} hne x hx hx' => hne ?_⟩
  · have hitem := (Roster.position?_eq_some_iff _ _ _).1 hx
    have hitem' := (Roster.position?_eq_some_iff _ _ _).1 hx'
    exact congrArg Constituent.target (Option.some.inj (hitem.symm.trans hitem'))
  · obtain ⟨q, -, hx⟩ := List.mem_filterMap.1 hx
    obtain ⟨q', -, hx'⟩ := List.mem_filterMap.1 hx'
    have hitem := (Roster.position?_eq_some_iff _ _ _).1 hx
    have hitem' := (Roster.position?_eq_some_iff _ _ _).1 hx'
    exact congrArg Constituent.source (Option.some.inj (hitem.symm.trans hitem'))

def label? (ig : Intersection) (x : Nat) : Option Constituent := ig.nonterminals[x]?

theorem nodup_start_labels (hinitials : aut.initials.Nodup) (hfinals : aut.finals.Nodup) :
    ((pruned g aut follows).starts.map (pruned g aut follows).label?).Nodup := by
  have hstarts : (pruned g aut follows).starts.Nodup :=
    (nodup_startsOf hinitials hfinals).filterMap fun x y i hx hy => newNumber?_injective hx hy
  refine List.Nodup.map_on (fun i hi j hj heq => ?_) hstarts
  obtain ⟨p, -, q, -, hlabel⟩ := mem_starts_pruned.1 hi
  have hlabel' : (pruned g aut follows).nonterminals[j]? = some ⟨p, g.start, q⟩ :=
    heq.symm.trans hlabel
  obtain ⟨x, hx, hitem⟩ := getElem?_nonterminals.1 hlabel
  obtain ⟨y, hy, hitem'⟩ := getElem?_nonterminals.1 hlabel'
  obtain rfl := Roster.index_unique hitem hitem'
  exact Option.some.inj (hx.symm.trans hy)

theorem mem_start_labels (hfollows : ∀ p w q, w ≠ [] → aut.Path p w q → follows p q = true)
    (o : Option Constituent) :
    o ∈ (pruned g aut follows).starts.map (pruned g aut follows).label? ↔
      ∃ p ∈ aut.initials, ∃ q ∈ aut.finals, Needed g aut ⟨p, g.start, q⟩ ∧
        o = some ⟨p, g.start, q⟩ := by
  simp only [List.mem_map, mem_starts_pruned, label?]
  constructor
  · rintro ⟨i, ⟨p, hp, q, hq, hitem⟩, rfl⟩
    have hmem := Array.mem_iff_getElem?.2 ⟨i, hitem⟩
    exact ⟨p, hp, q, hq, (mem_nonterminals_pruned hfollows).1 hmem, hitem⟩
  · rintro ⟨p, hp, q, hq, hneeded, rfl⟩
    obtain ⟨i, hitem⟩ := Array.mem_iff_getElem?.1 ((mem_nonterminals_pruned hfollows).2 hneeded)
    exact ⟨i, ⟨p, hp, q, hq, hitem⟩, hitem⟩

end Intersection

/-- An intersection, a forest and a template hold the same constituents, made up in the same ways. A
start alternative comes twice only if the automaton lists a state twice. -/
structure SameConstituents (aut : Automaton) (ig : Intersection) (f : Forest) (template : Chart) :
    Prop where
  nodup_nonterminals : ig.nonterminals.toList.Nodup
  nodup_labels : f.labels.Nodup
  mem_labels_iff : ∀ t, t ∈ f.labels ↔ t ∈ ig.nonterminals
  mem_entries_iff : ∀ t, t ∈ template.entries ↔ t ∈ ig.nonterminals
  nodup_root_labels : (f.roots.map f.label?).Nodup
  mem_start_labels_iff : ∀ o, o ∈ ig.starts.map ig.label? ↔ o ∈ f.roots.map f.label?
  perm_start_labels : aut.initials.Nodup → aut.finals.Nodup →
    (ig.starts.map ig.label?).Perm (f.roots.map f.label?)
  perm_leaves : ∀ node ∈ f.nodes.toList, (ig.tokensOf node.label).Perm node.leaves
  perm_branches : ∀ node ∈ f.nodes.toList, (ig.bodiesOf node.label).Perm (f.bodiesOf node)

namespace Automaton

open Transition in
theorem nodup_ends_of_ofTransitions {ts : List Transition} {initials finals : List Label}
    {built : Traced Automaton} (h : ofTransitions ts initials finals = .ok built) :
    built.value.initials.Nodup ∧ built.value.finals.Nodup := by
  have hnodup : ∀ xs : List Nat, (sortedDistinct (· ≤ ·) xs).Nodup :=
    fun xs => (ascending_sortedDistinct xs).imp Nat.ne_of_lt
  rw [ofTransitions] at h
  split at h
  · cases h
  · dsimp only at h
    split at h
    · obtain rfl := Except.ok.inj h
      exact ⟨hnodup _, hnodup _⟩
    · split at h
      · obtain rfl := Except.ok.inj h
        exact ⟨hnodup _, hnodup _⟩
      · cases h

end Automaton

/-- The start alternatives of a built automaton are the roots of the forest, each once. -/
theorem SameConstituents.perm_starts_of_ofTransitions {ts : List Transition}
    {initials finals : List Label} {built : Traced Automaton} {ig : Intersection} {f : Forest}
    {template : Chart} (hsame : SameConstituents built.value ig f template)
    (hbuilt : Automaton.ofTransitions ts initials finals = .ok built) :
    (ig.starts.map ig.label?).Perm (f.roots.map f.label?) :=
  have hends := Automaton.nodup_ends_of_ofTransitions hbuilt
  hsame.perm_start_labels hends.1 hends.2

open Intersection in
theorem sameConstituents_pruned {f : Forest} (hf : f.IsFull g aut) {template : Chart}
    (hfits : template.Fits aut.stateCount) (hrules : template.rules = g.ruleCount)
    (hholds : ∀ t : Constituent, t.target < aut.stateCount → (template.Holds t ↔ t.Needed g aut)) :
    SameConstituents aut (pruned g aut (follows aut aut.reach)) f template := by
  have hfollows : ∀ p w q, w ≠ [] → aut.Path p w q → follows aut aut.reach p q = true :=
    fun p w q => follows_of_path
  have hkeeps := keepsBy_isNeeded (g := g) hfollows
  have hrecords := records_draft g aut (follows aut aut.reach)
  have hmem := fun o => (mem_start_labels (g := g) hfollows o).trans (hf.mem_root_labels o).symm
  refine ⟨nodup_nonterminals_pruned _ _ _, ?_, fun t => ?_, fun t => ?_, hf.nodup_root_labels, hmem,
    fun hinitials hfinals => ?_, fun node hnode => ?_, fun node hnode => ?_⟩
  · rw [hf.labels_eq]
    exact nodup_neededOrder g aut
  · rw [hf.labels_eq, mem_neededOrder, mem_nonterminals_pruned hfollows]
  · rw [mem_nonterminals_pruned hfollows, Chart.mem_entries, hfits.states_eq, hrules]
    constructor
    · rintro ⟨-, ht, -, h⟩
      exact (hholds t ht).1 h
    · intro hneeded
      obtain ⟨hlt, ht⟩ := hneeded.spanned.lt
      exact ⟨Nat.lt_trans hlt ht, ht, hneeded.spanned.rule_lt, (hholds t ht).2 hneeded⟩
  · exact (List.perm_ext_iff_of_nodup (nodup_start_labels hinitials hfinals)
      hf.nodup_root_labels).2 hmem
  · obtain ⟨hneeded, hleaves, -⟩ := hf.of_mem_nodes hnode
    rw [hleaves, pruned, hkeeps.tokensOf_eq hrecords (isNeeded_iff.2 hneeded),
      filterMap_tokenFor?]
  · obtain ⟨hneeded, -, hbodies⟩ := hf.of_mem_nodes hnode
    rw [hbodies, pruned, hkeeps.bodiesOf_eq hrecords (isNeeded_iff.2 hneeded)]
    exact (perm_bodies (partClosed_isNeeded g aut) hfollows).map _

/-- The three searches find something or nothing alike, and then they find the same. -/
theorem searches_keep_same_constituents (g : Grammar) (aut : Automaton) :
    ∃ template found, (fullChart g aut).value.template g aut = .ok template ∧
      (forest g aut none).value = .ok found ∧
      ((intersect g aut).value.isOk = true ↔ found.isSome = true) ∧
      (found.isSome = true ↔ template.isEmpty = false) ∧
      ∀ ig f, (intersect g aut).value = .ok ig → found = some f →
        SameConstituents aut ig f template := by
  obtain ⟨template, htemplate, hfits, hrules, hholds⟩ :=
    (Chart.isFull_fullChart g aut).template
  obtain ⟨found, hforest, hfound⟩ := exists_forest_none g aut
  refine ⟨template, found, htemplate, by rw [hforest], ?_, ?_, ?_⟩
  · rw [isOk_intersect_iff, ← exists_needed_iff, hfound.isSome_iff]
  · rw [hfound.isSome_iff, ← Bool.not_eq_true, hfits.isEmpty_iff]
    constructor
    · rintro ⟨t, ht⟩ hnone
      exact hnone t ht.spanned.lt.2 ((hholds t ht.spanned.lt.2).2 ht)
    · intro hsome
      by_contra hnone
      exact hsome fun t ht h => hnone ⟨t, (hholds t ht).1 h⟩
  · rintro ig f hig rfl
    rw [Intersection.eq_pruned_of_intersect hig]
    exact sameConstituents_pruned (hfound.isFull f rfl) hfits hrules hholds

theorem searches_keep_same_constituents_threeStates :
    ∃ ig f template, (intersect twoTokens threeStates).value = .ok ig ∧
      (forest twoTokens threeStates none).value = .ok (some f) ∧ template.isEmpty = false ∧
      SameConstituents threeStates ig f template := by
  obtain ⟨template, found, -, hforest, hok, hsome, hsame⟩ :=
    searches_keep_same_constituents twoTokens threeStates
  have haccepts : threeStates.accepts [0, 1] = true := by decide
  have hig := (isOk_intersect_iff twoTokens threeStates).2
    ⟨[0, 1], isSentence_twoTokens_iff.2 rfl, haccepts⟩
  have hfound := hok.1 hig
  obtain ⟨f, rfl⟩ := Option.isSome_iff_exists.1 hfound
  cases h : (intersect twoTokens threeStates).value with
  | error e =>
    rw [h] at hig
    cases hig
  | ok ig => exact ⟨ig, f, template, rfl, hforest, hsome.1 hfound, hsame ig f h rfl⟩

end GrammarRepair
