import GrammarRepair.Proofs.Exploration
import GrammarRepair.Proofs.Forest.Counting
import GrammarRepair.Proofs.Forest.Order
import GrammarRepair.Proofs.Sorted

/-!
Forests without dead wood, whatever template they were made with. A node is only made for a token or
for parts that are there, and only what the roots lead to is kept. Main statements: every node of a
forest that is found has a tree and lies below a root, so it has no more trees than all roots have
together.
-/

namespace GrammarRepair

def Node.Productive (node : Node) : Prop := node.leaves ≠ [] ∨ node.branches ≠ []

structure Constituent.Named (g : Grammar) (aut : Automaton) (t : Constituent) : Prop where
  source_lt : t.source < aut.stateCount
  rule_lt : t.rule < g.ruleCount
  target_lt : t.target < aut.stateCount

namespace Arena

variable {g : Grammar} {aut : Automaton} {allowed : Constituent → Bool} {a : Arena}

def AllNodes (a : Arena) (P : Node → Prop) : Prop := ∀ node ∈ a.nodes.toList, P node

section

variable {P : Node → Prop}

theorem allNodes_empty : empty.AllNodes P := by
  intro node hmem
  cases hmem

theorem AllNodes.push (h : a.AllNodes P) {node : Node} (hnode : P node)
    (hlt : ∀ b ∈ node.branches, b.1 < a.size ∧ b.2 < a.size) : (a.push node hlt).AllNodes P := by
  intro other hmem
  have hnodes : (a.push node hlt).nodes.toList = a.nodes.toList ++ [node] := by simp [Arena.push]
  rw [hnodes, List.mem_append, List.mem_singleton] at hmem
  rcases hmem with hmem | rfl
  · exact h other hmem
  · exact hnode

theorem AllNodes.addPairs (h : a.AllNodes P) {v : Visit} {splits : List Split} {rules : List Nat}
    (hrules : ∀ rule ∈ rules, P ⟨⟨v.source, rule, v.target⟩, [], branchesOf splits rule⟩)
    (hlt : ∀ s ∈ splits, s.left < a.size ∧ s.right < a.size) :
    (addPairs v splits rules a hlt).AllNodes P := by
  induction rules generalizing a with
  | nil => exact h
  | cons rule rules ih =>
    exact ih (h.push (hrules rule List.mem_cons_self) _)
      (fun rule' hmem => hrules rule' (List.mem_cons_of_mem _ hmem)) _

theorem branchesOf_ne_nil {splits : List Split} {rule : Nat}
    (h : rule ∈ distinct (splits.map (·.rule))) : branchesOf splits rule ≠ [] := by
  obtain ⟨s, hs, rfl⟩ := List.mem_map.1 ((mem_distinct _ _).1 h)
  refine List.ne_nil_of_mem (a := (s.left, s.right)) (List.mem_map.2 ⟨s, ?_, rfl⟩)
  exact List.mem_filter.2 ⟨hs, by simp⟩

theorem exists_pair_of_mem_splits {v : Visit} {pairs : List (Nat × Nat × Nat)} {rule : Nat}
    (h : rule ∈ distinct ((a.splits v pairs).map (·.rule))) : ∃ pair ∈ pairs, pair.1 = rule := by
  obtain ⟨s, hs, rfl⟩ := List.mem_map.1 ((mem_distinct _ _).1 h)
  simp only [splits, List.mem_flatMap, List.mem_filterMap] at hs
  obtain ⟨pair, hpair, m, -, hsplit⟩ := hs
  simp only [split?, Option.bind_eq_bind, Option.bind_eq_some_iff] at hsplit
  obtain ⟨l, -, r, -, hsplit⟩ := hsplit
  cases hsplit
  exact ⟨pair, hpair, rfl⟩

/-- Whatever holds of nodes of tokens and of nodes with parts over pairs of states that are visited
holds of all nodes that are made. -/
theorem allNodes_grow
    (htoken : ∀ t branches, t.IsToken g aut → P ⟨t, leavesOf g aut t, branches⟩)
    (hpair : ∀ v pair branches, Chart.IsVisit aut v → pair ∈ g.pairs → branches ≠ [] →
      P ⟨⟨v.source, pair.1, v.target⟩, [], branches⟩) (allowed : Constituent → Bool) :
    (grow g aut allowed).AllNodes P := by
  refine List.foldlRecOn (motive := fun a => AllNodes a P) _ _ allNodes_empty fun a ha s hs => ?_
  obtain ⟨d, -, rfl⟩ := List.mem_map.1 hs
  refine List.foldlRecOn (motive := fun a => AllNodes a P) _ _
    (List.foldlRecOn (motive := fun a => AllNodes a P) _ _ ha fun a ha t ht => ?_)
    fun a ha v hv => ?_
  · unfold addLeaf
    exact ha.push (htoken t _ (Constituent.mem_leafLabels.1 ht).1) _
  · refine ha.addPairs (fun rule hrule => ?_) _
    have hsplit := (List.mem_filter.1 hrule).1
    obtain ⟨pair, hmem, rfl⟩ := exists_pair_of_mem_splits hsplit
    exact hpair v pair _ (Chart.mem_visits_iff.1 hv).1 (List.mem_filter.1 hmem).1
      (branchesOf_ne_nil hsplit)

end

theorem productive_grow (g : Grammar) (aut : Automaton) (allowed : Constituent → Bool) :
    (grow g aut allowed).AllNodes Node.Productive := by
  refine allNodes_grow (fun t branches ht => ?_)
    (fun v pair branches _ _ hne => .inr hne) allowed
  obtain ⟨x, hx⟩ := Constituent.isToken_iff.1 ht
  exact .inl (List.ne_nil_of_mem hx)

theorem named_grow (g : Grammar) (aut : Automaton) (allowed : Constituent → Bool) :
    (grow g aut allowed).AllNodes fun node => node.label.Named g aut := by
  refine allNodes_grow (fun t branches ht => ?_) (fun v pair branches hv hpair _ => ?_) allowed
  · obtain ⟨hsource, htarget⟩ := ht.spanned.lt
    obtain ⟨e, -, -, -, hproduction⟩ := ht
    exact ⟨Nat.lt_trans hsource htarget, (g.inRange _ hproduction).1, htarget⟩
  · exact ⟨hv.source_lt_stateCount, (g.inRange _ (Grammar.mem_pairs.1 hpair)).1, hv.target_lt⟩

theorem mem_children_iff {x y : Nat} : y ∈ a.children x ↔
    ∃ node, a.nodes[x]? = some node ∧ ∃ b ∈ node.branches, y = b.1 ∨ y = b.2 := by
  unfold children
  cases a.nodes[x]? with
  | none => simp
  | some node => simp [List.mem_flatMap]

theorem children_lt {x y : Nat} (h : y ∈ a.children x) : y < x := by
  obtain ⟨node, hx, b, hb, rfl | rfl⟩ := mem_children_iff.1 h
  · exact (a.child_lt x node hx b hb).1
  · exact (a.child_lt x node hx b hb).2

variable {roots : List Nat}

theorem mem_explore_children (hroots : ∀ r ∈ roots, r < a.size) {x : Nat} :
    x ∈ explore a.children a.size roots ↔
      ∃ r ∈ roots, Relation.ReflTransGen (fun x y => y ∈ a.children x) r x := by
  have hparts : ∀ x ∈ List.range a.size, ∀ y, y ∈ a.children x → y ∈ List.range a.size :=
    fun x hx y hy => List.mem_range.2 (Nat.lt_trans (children_lt hy) (List.mem_range.1 hx))
  exact mem_explore_iff (fun r hr => List.mem_range.2 (hroots r hr)) (fun _ _ _ => Iff.rfl) hparts
    (Nat.le_of_eq List.length_range)

theorem exists_new?_iff (hroots : ∀ r ∈ roots, r < a.size) {x : Nat} :
    (∃ i, (a.keptNodes roots).new? x = some i) ↔
      x < a.size ∧ ∃ r ∈ roots, Relation.ReflTransGen (fun x y => y ∈ a.children x) r x := by
  rw [← mem_explore_children hroots, ← Option.isSome_iff_exists, keptNodes,
    Renumbering.new?_isSome_iff, NatSet.has_ofList, decide_eq_true_eq]

theorem exists_new?_of_mem_children (hroots : ∀ r ∈ roots, r < a.size) {x y i : Nat}
    (hx : (a.keptNodes roots).new? x = some i) (hy : y ∈ a.children x) :
    ∃ j, (a.keptNodes roots).new? y = some j := by
  obtain ⟨hlt, r, hr, hchain⟩ := (exists_new?_iff hroots).1 ⟨i, hx⟩
  exact (exists_new?_iff hroots).2 ⟨Nat.lt_trans (children_lt hy) hlt, r, hr, hchain.tail hy⟩

theorem mem_branches_renumber (hroots : ∀ r ∈ roots, r < a.size) {x i : Nat} {node : Node}
    (hx : (a.keptNodes roots).new? x = some i) (hnode : a.nodes[x]? = some node)
    {b : Nat × Nat} (hb : b ∈ node.branches) :
    ∃ l r, (a.keptNodes roots).new? b.1 = some l ∧ (a.keptNodes roots).new? b.2 = some r ∧
      (l, r) ∈ (renumber (a.keptNodes roots) node).branches := by
  obtain ⟨l, hl⟩ := exists_new?_of_mem_children hroots hx
    (mem_children_iff.2 ⟨node, hnode, b, hb, .inl rfl⟩)
  obtain ⟨r, hr⟩ := exists_new?_of_mem_children hroots hx
    (mem_children_iff.2 ⟨node, hnode, b, hb, .inr rfl⟩)
  refine ⟨l, r, hl, hr, List.mem_filterMap.2 ⟨b, hb, ?_⟩⟩
  simp [hl, hr]

end Arena

namespace Forest

open Arena

variable {f : Forest} {x y : Nat}

def HasPart (f : Forest) (x y : Nat) : Prop :=
  ∃ node, f.nodes[x]? = some node ∧ ∃ b ∈ node.branches, y = b.1 ∨ y = b.2

/-- Every node derives something and takes part in a derivation of a root. -/
structure Live (f : Forest) : Prop where
  productive : ∀ node ∈ f.nodes.toList, node.Productive
  below_root : ∀ x < f.nodes.size, ∃ r ∈ f.roots, Relation.ReflTransGen f.HasPart r x
  nodup_roots : f.roots.Nodup

theorem getElem?_nodes_ofArena {a : Arena} {roots : List Nat} {x i : Nat} {node : Node}
    (hx : (a.keptNodes roots).new? x = some i) (hnode : a.nodes[x]? = some node) :
    (ofArena a roots).nodes[i]? = some (renumber (a.keptNodes roots) node) := by
  have hkept : (a.keptNodes roots).kept[i]? = some x := (Renumbering.new?_eq_some_iff _ _ _ _).1 hx
  rw [ofArena, Array.getElem?_map, hkept, Option.map_some, keptNode, Array.getD_eq_getD_getElem?,
    hnode, Option.getD_some]

theorem exists_of_lt_size_ofArena {a : Arena} {roots : List Nat}
    (hroots : ∀ r ∈ roots, r < a.size) {i : Nat} (hi : i < (ofArena a roots).nodes.size) :
    ∃ x node, (a.keptNodes roots).new? x = some i ∧ a.nodes[x]? = some node := by
  rw [ofArena, Array.size_map] at hi
  have hx := (Renumbering.new?_eq_some_iff _ _ _ _).2 (Array.getElem?_eq_getElem hi)
  have hlt := ((exists_new?_iff hroots).1 ⟨i, hx⟩).1
  exact ⟨_, _, hx, Array.getElem?_eq_getElem hlt⟩

theorem live_ofArena {a : Arena} {roots : List Nat} (ha : a.AllNodes Node.Productive)
    (hroots : ∀ r ∈ roots, r < a.size) : (ofArena a roots).Live := by
  refine ⟨fun node hmem => ?_, fun i hi => ?_,
    (ascending_sortedDistinct _).imp Nat.ne_of_lt⟩
  · obtain ⟨i, hi, rfl⟩ := List.mem_iff_getElem.1 hmem
    rw [Array.length_toList] at hi
    obtain ⟨x, node, hx, hnode⟩ := exists_of_lt_size_ofArena hroots hi
    have hget := getElem?_nodes_ofArena hx hnode
    rw [Array.getElem?_eq_getElem hi, Option.some.injEq] at hget
    rw [Array.getElem_toList, hget]
    rcases ha node (by simpa using Array.mem_of_getElem? hnode) with hleaves | hbranches
    · exact .inl hleaves
    · obtain ⟨b, hb⟩ := List.exists_mem_of_ne_nil _ hbranches
      obtain ⟨l, r, -, -, hlr⟩ := mem_branches_renumber hroots hx hnode hb
      exact .inr (List.ne_nil_of_mem hlr)
  · obtain ⟨x, -, hx, -⟩ := exists_of_lt_size_ofArena hroots hi
    obtain ⟨-, r, hr, hchain⟩ := (exists_new?_iff hroots).1 ⟨i, hx⟩
    -- Along the chain from the root every node is kept, and so is the branch to the next.
    induction hchain generalizing i with
    | refl =>
      refine ⟨i, (mem_sortedDistinct _ _ _).2 (List.mem_filterMap.2 ⟨r, hr, hx⟩), .refl⟩
    | @tail y z hchain hz ih =>
      obtain ⟨node, hnode, b, hb, hpart⟩ := mem_children_iff.1 hz
      have hlt : y < a.size := (Array.getElem?_eq_some_iff.1 hnode).1
      obtain ⟨j, hy⟩ := (exists_new?_iff hroots).2 ⟨hlt, r, hr, hchain⟩
      have hnode' := getElem?_nodes_ofArena hy hnode
      obtain ⟨s, hs, hchain'⟩ := ih j (Array.getElem?_eq_some_iff.1 hnode').1 hy
      obtain ⟨l', r', hl', hr', hlr⟩ := mem_branches_renumber hroots hy hnode hb
      refine ⟨s, hs, hchain'.tail ⟨_, hnode', (l', r'), hlr, ?_⟩⟩
      rcases hpart with rfl | rfl
      · exact .inl (Option.some.inj (hx.symm.trans hl'))
      · exact .inr (Option.some.inj (hx.symm.trans hr'))

/-- A forest that is found is what the roots lead to in the arena of all that is allowed. -/
theorem eq_ofArena_of_forest {g : Grammar} {aut : Automaton} {template : Option Chart}
    (h : (forest g aut template).value = .ok (some f)) :
    f = ofArena (grow g aut (allowedBy template)) ((grow g aut (allowedBy template)).starts g aut) := by
  unfold forest at h
  split at h
  · simp only at h
    split at h
    · cases h
    · simp only [Except.ok.injEq] at h
      split at h
      · cases h
      · exact (Option.some.inj h).symm
  · cases h

/-- A forest that is found has no dead wood, whatever its template was. -/
theorem live_of_forest {g : Grammar} {aut : Automaton} {template : Option Chart}
    (h : (forest g aut template).value = .ok (some f)) : f.Live := by
  rw [eq_ofArena_of_forest h]
  exact live_ofArena (productive_grow g aut (allowedBy template)) fun r hr => starts_lt hr

/-- The labels of a forest that is found are about states and rules that exist. -/
theorem named_of_forest {g : Grammar} {aut : Automaton} {template : Option Chart}
    (h : (forest g aut template).value = .ok (some f)) :
    ∀ node ∈ f.nodes.toList, node.label.Named g aut := by
  rw [eq_ofArena_of_forest h]
  intro node hmem
  obtain ⟨i, hi, rfl⟩ := List.mem_iff_getElem.1 hmem
  rw [Array.length_toList] at hi
  obtain ⟨x, node, hx, hnode⟩ := exists_of_lt_size_ofArena (fun r hr => starts_lt hr) hi
  have hget := getElem?_nodes_ofArena hx hnode
  rw [Array.getElem?_eq_getElem hi, Option.some.injEq] at hget
  rw [Array.getElem_toList, hget]
  exact named_grow g aut (allowedBy template) node (by simpa using Array.mem_of_getElem? hnode)

theorem Live.treesOf_ne_nil (h : f.Live) (hx : x < f.nodes.size) : f.treesOf x ≠ [] := by
  induction x using Nat.strongRecOn with
  | ind x ih =>
    have hnode := Array.getElem?_eq_getElem hx
    rw [treesOf_eq hnode]
    rcases h.productive _ (Array.getElem_mem_toList hx) with hleaves | hbranches
    · simp [hleaves]
    · obtain ⟨b, hb⟩ := List.exists_mem_of_ne_nil _ hbranches
      have hlt := f.child_lt x _ hnode b hb
      obtain ⟨l, hl⟩ := List.exists_mem_of_ne_nil _ (ih b.1 hlt.1 (by omega))
      obtain ⟨r, hr⟩ := List.exists_mem_of_ne_nil _ (ih b.2 hlt.2 (by omega))
      have htree : Tree.branch l r ∈ f.branchTrees b :=
        List.mem_flatMap.2 ⟨l, hl, List.mem_map_of_mem hr⟩
      exact List.ne_nil_of_mem (List.mem_append_right _ (List.mem_flatMap.2 ⟨b, hb, htree⟩))

theorem Live.one_le_counts (h : f.Live) (hx : x < f.nodes.size) : 1 ≤ f.counts.getD x 0 := by
  have htrees := List.length_pos_iff.2 (h.treesOf_ne_nil hx)
  have hlimit : 1 ≤ Saturating.limit := by decide
  have hmin := (agrees_counts (f := f) x).min_eq
  omega

/-- A part has no more trees than the whole. -/
theorem Live.length_treesOf_part_le (h : f.Live) (hpart : f.HasPart x y) :
    (f.treesOf y).length ≤ (f.treesOf x).length := by
  obtain ⟨node, hnode, b, hb, hy⟩ := hpart
  have hsize := (Array.getElem?_eq_some_iff.1 hnode).1
  have hlt := f.child_lt x node hnode b hb
  have hpos := Nat.mul_pos (List.length_pos_iff.2 (h.treesOf_ne_nil (Nat.lt_trans hlt.1 hsize)))
    (List.length_pos_iff.2 (h.treesOf_ne_nil (Nat.lt_trans hlt.2 hsize)))
  rw [← length_branchTrees] at hpos
  have hle := length_treesOf_le_of_branchTrees (List.length_pos_iff.1 hpos)
  have hblock := length_branchTrees_le hnode hb
  rcases hy with rfl | rfl
  · exact Nat.le_trans hle.1 hblock
  · exact Nat.le_trans hle.2 hblock

/-- A node has no more trees than all roots have together. -/
theorem Live.length_treesOf_le (h : f.Live) (hx : x < f.nodes.size) :
    (f.treesOf x).length ≤ f.trees.length := by
  obtain ⟨r, hr, hchain⟩ := h.below_root x hx
  refine Nat.le_trans ?_ (Forest.length_treesOf_le hr)
  clear hx
  induction hchain with
  | refl => exact Nat.le_refl _
  | tail _ hpart ih => exact Nat.le_trans (h.length_treesOf_part_le hpart) ih

end Forest

end GrammarRepair
