import GrammarRepair.Proofs.Forest.Below
import Mathlib.Data.List.Sort

/-!
The part of an arena that a forest keeps, where all that is needed was let in. The starts lead to what
is needed and to nothing else, so the nodes of the forest are made up as if nothing else had ever been
let in. Main statements: a forest holds what is needed, in the order of creation, and there is but one
such forest.
-/

namespace GrammarRepair

namespace Constituent

open Classical in
noncomputable def isNeeded (g : Grammar) (aut : Automaton) (t : Constituent) : Bool :=
  decide (t.Needed g aut)

variable {g : Grammar} {aut : Automaton} {inside : Constituent → Bool} {t u : Constituent}

@[simp] theorem isNeeded_iff : isNeeded g aut t = true ↔ t.Needed g aut := by simp [isNeeded]

theorem partClosed_isNeeded (g : Grammar) (aut : Automaton) :
    PartClosed g aut (isNeeded g aut) := by
  constructor
  · intro t ht
    exact (isNeeded_iff.1 ht).spanned
  · intro t l r ht hsplits
    have hneeded := isNeeded_iff.1 ht
    exact ⟨isNeeded_iff.2 (hneeded.part ⟨l, r, hsplits, .inl rfl⟩),
      isNeeded_iff.2 (hneeded.part ⟨l, r, hsplits, .inr rfl⟩)⟩

noncomputable def neededOrder (g : Grammar) (aut : Automaton) : List Constituent :=
  creationOrder g aut (isNeeded g aut)

theorem mem_neededOrder : t ∈ neededOrder g aut ↔ t.Needed g aut := by
  rw [neededOrder, (partClosed_isNeeded g aut).mem_creationOrder, isNeeded_iff]

theorem PartClosed.hasInside_iff (h : PartClosed g aut inside) (ht : inside t = true) :
    HasInside g aut inside t u ↔ t.HasPart g aut u := by
  constructor
  · rintro ⟨⟨l, r⟩, hp, hu⟩
    exact ⟨l, r, (h.mem_partsOf ht).1 hp, hu⟩
  · rintro ⟨l, r, hsplits, hu⟩
    exact ⟨(l, r), (h.mem_partsOf ht).2 hsplits, hu⟩

theorem PartClosed.below_iff (h : PartClosed g aut inside)
    (hneeded : ∀ t : Constituent, t.Needed g aut → inside t = true) :
    Below g aut inside (startLabels g aut inside) t ↔ t.Needed g aut := by
  constructor
  · rintro ⟨s, hs, hchain⟩
    obtain ⟨hinside, p, hp, q, hq, rfl⟩ := mem_startLabels.1 hs
    induction hchain with
    | refl => exact .start hp hq (h.spanned _ hinside)
    | tail _ hpart ih => exact ih.part ((h.hasInside_iff (hneeded _ ih)).1 hpart)
  · intro ht
    induction ht with
    | @start p q hp hq hspans =>
      have hstart := hneeded _ (.start hp hq hspans)
      exact ⟨_, mem_startLabels.2 ⟨hstart, p, hp, q, hq, rfl⟩, .refl⟩
    | part hneeds hpart ih =>
      obtain ⟨s, hs, hchain⟩ := ih
      exact ⟨s, hs, hchain.tail ((h.hasInside_iff (hneeded _ hneeds)).2 hpart)⟩

theorem PartClosed.keptOf_eq (h : PartClosed g aut inside)
    (hneeded : ∀ t : Constituent, t.Needed g aut → inside t = true) :
    Arena.keptOf g aut inside (startLabels g aut inside) (creationOrder g aut inside) =
      neededOrder g aut := by
  rw [neededOrder, h.creationOrder_eq (partClosed_isNeeded g aut) fun t ht =>
    hneeded t (isNeeded_iff.1 ht), Arena.keptOf]
  refine List.filter_congr fun t _ => ?_
  rw [Bool.eq_iff_iff, isBelow_iff, isNeeded_iff, h.below_iff hneeded]

end Constituent

namespace Forest

open Constituent Arena

variable {g : Grammar} {aut : Automaton} {f f' : Forest}

/-- The forest of all that is needed: a node for each constituent, in the order of creation. -/
structure IsFull (g : Grammar) (aut : Automaton) (f : Forest) : Prop where
  nodes_eq : f.nodes.toList =
    (neededOrder g aut).map (nodeOf g aut (isNeeded g aut) (neededOrder g aut))
  mem_roots : ∀ x, x ∈ f.roots ↔ ∃ p ∈ aut.initials, ∃ q ∈ aut.finals,
    Needed g aut ⟨p, g.start, q⟩ ∧ x = (neededOrder g aut).idxOf ⟨p, g.start, q⟩
  roots_ascending : f.roots.Pairwise (· < ·)

theorem IsFull.getElem?_nodes (h : f.IsFull g aut) {t : Constituent}
    (ht : t.Needed g aut) :
    f.nodes[(neededOrder g aut).idxOf t]? =
      some (nodeOf g aut (isNeeded g aut) (neededOrder g aut) t) := by
  rw [← Array.getElem?_toList, h.nodes_eq, List.getElem?_map,
    List.getElem?_idxOf (mem_neededOrder.2 ht), Option.map_some]

theorem IsFull.unique (h : f.IsFull g aut) (h' : f'.IsFull g aut) : f = f' := by
  have hnodes : f.nodes = f'.nodes := Array.toList_inj.1 (h.nodes_eq.trans h'.nodes_eq.symm)
  have hroots : f.roots = f'.roots := h.roots_ascending.eq_of_mem_iff h'.roots_ascending fun x =>
    (h.mem_roots x).trans (h'.mem_roots x).symm
  have hcounts : f.counts = f'.counts := by rw [f.counts_eq, f'.counts_eq, hnodes]
  cases f
  cases f'
  simp only [mk.injEq]
  exact ⟨hnodes, hroots, hcounts⟩

theorem isFull_ofArena {a : Arena} {inside : Constituent → Bool}
    (h : a.Lists g aut inside (creationOrder g aut inside)) (hclosed : PartClosed g aut inside)
    (hneeded : ∀ t : Constituent, t.Needed g aut → inside t = true) :
    (ofArena a (a.starts g aut)).IsFull g aut := by
  have hstarts : ∀ s ∈ startLabels g aut inside, s ∈ creationOrder g aut inside := fun s hs =>
    hclosed.mem_creationOrder.2 (mem_startLabels.1 hs).1
  have hkept := hclosed.keptOf_eq hneeded
  rw [h.starts_eq fun t => hclosed.mem_creationOrder]
  constructor
  · rw [h.nodes_ofArena hstarts, hkept]
    refine List.map_congr_left fun t ht => ?_
    have hparts := hclosed.partsOf_eq (partClosed_isNeeded g aut)
      (fun t ht => hneeded t (isNeeded_iff.1 ht)) (isNeeded_iff.2 (mem_neededOrder.1 ht))
    rw [nodeOf, nodeOf, hparts]
  · intro x
    rw [h.roots_ofArena hstarts, mem_sortedDistinct, List.mem_map, hkept]
    constructor
    · rintro ⟨t, ht, rfl⟩
      obtain ⟨hinside, p, hp, q, hq, rfl⟩ := mem_startLabels.1 ht
      exact ⟨p, hp, q, hq, .start hp hq (hclosed.spanned _ hinside), rfl⟩
    · rintro ⟨p, hp, q, hq, hstart, rfl⟩
      exact ⟨_, mem_startLabels.2 ⟨hneeded _ hstart, p, hp, q, hq, rfl⟩, rfl⟩
  · rw [h.roots_ofArena hstarts]
    exact ascending_sortedDistinct _

end Forest

end GrammarRepair
