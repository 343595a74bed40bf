import GrammarRepair.Forest.Basic
import GrammarRepair.Proofs.Forest.Arena
import GrammarRepair.Proofs.Forest.Compaction
import GrammarRepair.Proofs.Forest.Live

/-!
What the starts of an arena lead to. The numbers of the nodes are the places of their constituents, so
a chain of numbers is a chain of parts, and new numbers are given in the old order. Main statement: a
forest holds the constituents that the starts lead to, made up as if nothing else had ever been there.
-/

namespace GrammarRepair

theorem map_idxOf_eq_range {α : Type} [DecidableEq α] {xs : List α} (h : xs.Nodup) :
    xs.map xs.idxOf = List.range xs.length := by
  refine List.ext_getElem (by simp) fun i hi hi' => ?_
  rw [List.getElem_map, List.getElem_range, h.idxOf_getElem]

namespace Constituent

variable {g : Grammar} {aut : Automaton} {inside : Constituent → Bool} {t : Constituent}

def HasInside (g : Grammar) (aut : Automaton) (inside : Constituent → Bool) (t u : Constituent) :
    Prop :=
  ∃ p ∈ partsOf g aut inside t, u = p.1 ∨ u = p.2

/-- A chain of parts leads to a constituent from one of `starts`. -/
def Below (g : Grammar) (aut : Automaton) (inside : Constituent → Bool) (starts : List Constituent)
    (t : Constituent) : Prop :=
  ∃ s ∈ starts, Relation.ReflTransGen (HasInside g aut inside) s t

open Classical in
noncomputable def isBelow (g : Grammar) (aut : Automaton) (inside : Constituent → Bool)
    (starts : List Constituent) (t : Constituent) : Bool :=
  decide (Below g aut inside starts t)

theorem isBelow_iff {starts : List Constituent} :
    isBelow g aut inside starts t = true ↔ Below g aut inside starts t := by
  simp [isBelow]

def startLabels (g : Grammar) (aut : Automaton) (inside : Constituent → Bool) : List Constituent :=
  aut.initials.flatMap fun p => (aut.finals.map fun q => ⟨p, g.start, q⟩).filter inside

theorem mem_startLabels : t ∈ startLabels g aut inside ↔
    inside t = true ∧ ∃ p ∈ aut.initials, ∃ q ∈ aut.finals, t = ⟨p, g.start, q⟩ := by
  simp only [startLabels, List.mem_flatMap, List.mem_filter, List.mem_map]
  constructor
  · rintro ⟨p, hp, ⟨q, hq, rfl⟩, hinside⟩
    exact ⟨hinside, p, hp, q, hq, rfl⟩
  · rintro ⟨hinside, p, hp, q, hq, rfl⟩
    exact ⟨p, hp, ⟨q, hq, rfl⟩, hinside⟩

theorem numbers_startLabels {ls : List Constituent} {number? : Constituent → Option Nat}
    (hnumber : ∀ t, number? t = if t ∈ ls then some (ls.idxOf t) else none)
    (hmem : ∀ t, t ∈ ls ↔ inside t = true) :
    (aut.initials.flatMap fun p => aut.finals.filterMap fun q => number? ⟨p, g.start, q⟩) =
      (startLabels g aut inside).map ls.idxOf := by
  rw [startLabels, List.map_flatMap]
  refine List.flatMap_congr fun p _ => ?_
  induction aut.finals with
  | nil => rfl
  | cons q qs ih =>
    rw [List.filterMap_cons, ih, List.map_cons, List.filter_cons, hnumber]
    by_cases hin : inside ⟨p, g.start, q⟩ = true
    · simp [hin, (hmem _).2 hin]
    · simp [hin, hmem]

end Constituent

open Constituent Compaction

variable {g : Grammar} {aut : Automaton} {inside : Constituent → Bool} {nodes : Array Node}
  {ls starts : List Constituent} {t u : Constituent} {x : Nat}

theorem below_of_hasInside (ht : Below g aut inside starts t) (hu : HasInside g aut inside t u) :
    Below g aut inside starts u := by
  obtain ⟨s, hs, hchain⟩ := ht
  exact ⟨s, hs, hchain.tail hu⟩

/-- The nodes are those of a list of constituents, and all parts are on the list. -/
structure Spells (g : Grammar) (aut : Automaton) (inside : Constituent → Bool) (nodes : Array Node)
    (ls : List Constituent) : Prop where
  nodup : ls.Nodup
  nodes_eq : nodes.toList = ls.map (Arena.nodeOf g aut inside ls)
  parts_mem : ∀ t ∈ ls, ∀ u, HasInside g aut inside t u → u ∈ ls

namespace Spells

theorem size_eq (h : Spells g aut inside nodes ls) : nodes.size = ls.length := by
  simpa using congrArg List.length h.nodes_eq

theorem getElem?_nodes (h : Spells g aut inside nodes ls) (ht : t ∈ ls) :
    nodes[ls.idxOf t]? = some (Arena.nodeOf g aut inside ls t) := by
  rw [← Array.getElem?_toList, h.nodes_eq, List.getElem?_map, List.getElem?_idxOf ht,
    Option.map_some]

theorem exists_idxOf (h : Spells g aut inside nodes ls) (hx : x < nodes.size) :
    ∃ t ∈ ls, x = ls.idxOf t := by
  have hlt : x < ls.length := h.size_eq ▸ hx
  exact ⟨ls[x], List.getElem_mem hlt, (h.nodup.idxOf_getElem x hlt).symm⟩

theorem leadsTo_iff (h : Spells g aut inside nodes ls) (ht : t ∈ ls) {y : Nat} :
    LeadsTo nodes (ls.idxOf t) y ↔ ∃ u, HasInside g aut inside t u ∧ y = ls.idxOf u := by
  rw [Compaction.leadsTo_iff (h.getElem?_nodes ht)]
  simp only [Arena.nodeOf, List.mem_map]
  constructor
  · rintro ⟨_, ⟨p, hp, rfl⟩, rfl | rfl⟩
    · exact ⟨p.1, ⟨p, hp, .inl rfl⟩, rfl⟩
    · exact ⟨p.2, ⟨p, hp, .inr rfl⟩, rfl⟩
  · rintro ⟨u, ⟨p, hp, rfl | rfl⟩, rfl⟩
    · exact ⟨_, ⟨p, hp, rfl⟩, .inl rfl⟩
    · exact ⟨_, ⟨p, hp, rfl⟩, .inr rfl⟩

theorem below_mem (h : Spells g aut inside nodes ls) (hstarts : ∀ s ∈ starts, s ∈ ls)
    (ht : Below g aut inside starts t) : t ∈ ls := by
  obtain ⟨s, hs, hchain⟩ := ht
  induction hchain with
  | refl => exact hstarts s hs
  | tail _ hpart ih => exact h.parts_mem _ ih _ hpart

theorem starts_lt (h : Spells g aut inside nodes ls) (hstarts : ∀ s ∈ starts, s ∈ ls) :
    ∀ r ∈ starts.map ls.idxOf, r < nodes.size := by
  intro r hr
  obtain ⟨s, hs, rfl⟩ := List.mem_map.1 hr
  rw [h.size_eq]
  exact List.idxOf_lt_length_iff.2 (hstarts s hs)

theorem reached_iff (h : Spells g aut inside nodes ls) (hstarts : ∀ s ∈ starts, s ∈ ls)
    (ht : t ∈ ls) :
    Reached nodes (starts.map ls.idxOf) (ls.idxOf t) ↔ Below g aut inside starts t := by
  constructor
  · rintro ⟨r, hr, hchain⟩
    obtain ⟨s, hs, rfl⟩ := List.mem_map.1 hr
    have hfollow : ∀ y, Relation.ReflTransGen (LeadsTo nodes) (ls.idxOf s) y →
        ∃ u, Below g aut inside starts u ∧ y = ls.idxOf u := by
      intro y hchain
      induction hchain with
      | refl => exact ⟨s, ⟨s, hs, .refl⟩, rfl⟩
      | tail _ hlast ih =>
        obtain ⟨u, hu, rfl⟩ := ih
        obtain ⟨u', hpart, rfl⟩ := (h.leadsTo_iff (h.below_mem hstarts hu)).1 hlast
        obtain ⟨s', hs', hchain'⟩ := hu
        exact ⟨u', ⟨s', hs', hchain'.tail hpart⟩, rfl⟩
    obtain ⟨u, hu, heq⟩ := hfollow _ hchain
    rwa [(List.idxOf_inj ht).1 heq]
  · rintro ⟨s, hs, hchain⟩
    refine ⟨ls.idxOf s, List.mem_map_of_mem hs, ?_⟩
    induction hchain with
    | refl => exact .refl
    | @tail u u' hchain hpart ih =>
      have hu : u ∈ ls := h.below_mem hstarts ⟨s, hs, hchain⟩
      exact (ih hu).tail ((h.leadsTo_iff hu).2 ⟨u', hpart, rfl⟩)

end Spells

namespace Arena

variable {a : Arena}

theorem Lists.spells (h : a.Lists g aut inside ls) : Spells g aut inside a.nodes ls where
  nodup := h.nodup
  nodes_eq := h.nodes_eq
  parts_mem := by
    rintro t ht u ⟨p, hp, rfl | rfl⟩
    · exact (h.parts_mem t ht p hp).1
    · exact (h.parts_mem t ht p hp).2

noncomputable def keptOf (g : Grammar) (aut : Automaton) (inside : Constituent → Bool)
    (starts ls : List Constituent) : List Constituent :=
  ls.filter (isBelow g aut inside starts)

section

variable (h : a.Lists g aut inside ls) (hstarts : ∀ s ∈ starts, s ∈ ls)

include h hstarts

theorem Lists.mem_keptOf : t ∈ keptOf g aut inside starts ls ↔ Below g aut inside starts t := by
  rw [keptOf, List.mem_filter, isBelow_iff]
  exact and_iff_right_of_imp fun ht => h.spells.below_mem hstarts ht

theorem Lists.mem_explore_iff (ht : t ∈ ls) :
    ls.idxOf t ∈ explore a.children a.size (starts.map ls.idxOf) ↔
      Below g aut inside starts t := by
  rw [mem_explore_children (h.spells.starts_lt hstarts), ← h.spells.reached_iff hstarts ht]
  simp only [mem_children_iff]
  rfl

theorem Lists.kept_eq : (a.keptNodes (starts.map ls.idxOf)).kept.toList =
    (keptOf g aut inside starts ls).map ls.idxOf := by
  have hrange : List.range a.size = ls.map ls.idxOf := by
    rw [map_idxOf_eq_range h.nodup, size, h.size_eq]
  rw [keptNodes, Renumbering.kept_eq, hrange, List.filter_map, keptOf]
  congr 1
  refine List.filter_congr fun t ht => ?_
  rw [Function.comp_apply, Bool.eq_iff_iff, isBelow_iff, NatSet.has_ofList, decide_eq_true_eq,
    h.mem_explore_iff hstarts ht]

theorem Lists.new?_eq (ht : t ∈ keptOf g aut inside starts ls) :
    (a.keptNodes (starts.map ls.idxOf)).new? (ls.idxOf t) =
      some ((keptOf g aut inside starts ls).idxOf t) := by
  refine (Renumbering.new?_eq_some_iff _ _ _ _).2 ?_
  rw [← keptNodes, ← Array.getElem?_toList, h.kept_eq hstarts, List.getElem?_map,
    List.getElem?_idxOf ht, Option.map_some]

theorem Lists.keptNode_eq (ht : t ∈ keptOf g aut inside starts ls) :
    a.keptNode (a.keptNodes (starts.map ls.idxOf)) (ls.idxOf t) =
      nodeOf g aut inside (keptOf g aut inside starts ls) t := by
  have hbelow := (h.mem_keptOf hstarts).1 ht
  have hmem := h.spells.below_mem hstarts hbelow
  rw [keptNode, Array.getD_eq_getD_getElem?, h.spells.getElem?_nodes hmem, Option.getD_some,
    renumber, nodeOf, nodeOf]
  congr 1
  rw [List.filterMap_map, ← List.filterMap_eq_map (f := fun p : Constituent × Constituent =>
    ((keptOf g aut inside starts ls).idxOf p.1, (keptOf g aut inside starts ls).idxOf p.2))]
  refine List.filterMap_congr fun p hp => ?_
  have hl := h.new?_eq hstarts ((h.mem_keptOf hstarts).2
    (below_of_hasInside hbelow ⟨p, hp, .inl rfl⟩))
  have hr := h.new?_eq hstarts ((h.mem_keptOf hstarts).2
    (below_of_hasInside hbelow ⟨p, hp, .inr rfl⟩))
  simp only [Function.comp_apply, hl, hr]
  rfl

theorem Lists.nodes_ofArena : (Forest.ofArena a (starts.map ls.idxOf)).nodes.toList =
    (keptOf g aut inside starts ls).map (nodeOf g aut inside (keptOf g aut inside starts ls)) := by
  rw [Forest.ofArena, Array.toList_map, h.kept_eq hstarts, List.map_map]
  exact List.map_congr_left fun t ht => h.keptNode_eq hstarts ht

theorem Lists.roots_ofArena : (Forest.ofArena a (starts.map ls.idxOf)).roots =
    sortedDistinct (· ≤ ·) (starts.map (keptOf g aut inside starts ls).idxOf) := by
  have hnew : (starts.map ls.idxOf).filterMap (a.keptNodes (starts.map ls.idxOf)).new? =
      starts.map (keptOf g aut inside starts ls).idxOf := by
    rw [List.filterMap_map, ← List.filterMap_eq_map (f := (keptOf g aut inside starts ls).idxOf)]
    refine List.filterMap_congr fun s hs => ?_
    exact h.new?_eq hstarts ((h.mem_keptOf hstarts).2 ⟨s, hs, .refl⟩)
  exact congrArg (sortedDistinct (· ≤ ·)) hnew

end

theorem Lists.starts_eq (h : a.Lists g aut inside ls) (hmem : ∀ t, t ∈ ls ↔ inside t = true) :
    a.starts g aut = (startLabels g aut inside).map ls.idxOf :=
  numbers_startLabels h.number?_eq hmem

end Arena

end GrammarRepair
