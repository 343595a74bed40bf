import GrammarRepair.Proofs.Forest.Language

/-!
How many trees a forest can have. A constituent over the distance `d` is a leaf, or one of its
splits divides `d` between its two parts, so its trees are no more than a power of the number of
ways to make up one node. Main statement: a forest over a small automaton has few enough trees to
count.
-/

namespace GrammarRepair

open Constituent

variable {g : Grammar} {aut : Automaton} {f : Forest} {t : Constituent}

theorem length_leavesOf_le : (Arena.leavesOf g aut t).length ≤ aut.edges.length := by
  rw [Arena.leavesOf, List.length_map]
  exact List.length_filter_le _ _

theorem length_partsOf_le (inside : Constituent → Bool) :
    (partsOf g aut inside t).length ≤ g.pairs.length * t.target := by
  have hmidpoints : (aut.reach.midpoints t.source t.target).length ≤ t.target := by
    rw [Reach.midpoints]
    refine Nat.le_trans (List.length_filter_le _ _) (Nat.le_trans (List.length_filter_le _ _) ?_)
    rw [List.length_range]
  refine Nat.le_trans (length_flatMap_le fun pair _ => ?_)
    (Nat.mul_le_mul_right _ (List.length_filter_le _ _))
  rw [partsOver]
  refine Nat.le_trans (List.length_filter_le _ _) ?_
  rw [List.length_map]
  exact hmidpoints

namespace Forest

/-- The ways to make up one node: by an edge, or by a pair of rules and a state between. -/
def nodeWays (g : Grammar) (aut : Automaton) : Nat :=
  1 + aut.edges.length + g.pairs.length * aut.stateCount

/-- There are no more trees over a distance than ways to make up all nodes of one. -/
theorem IsFull.length_treesFor_le (h : f.IsFull g aut) (ht : t.Needed g aut) :
    (f.treesFor g aut t).length ≤ nodeWays g aut ^ (2 * (t.target - t.source) - 1) := by
  induction hd : t.target - t.source using Nat.strongRecOn generalizing t with
  | ind d ih =>
    have hbranch : ∀ p ∈ partsOf g aut (isNeeded g aut) t,
        ((f.treesFor g aut p.1).flatMap fun left =>
          (f.treesFor g aut p.2).map (Tree.branch left)).length ≤ nodeWays g aut ^ (2 * d - 2) := by
      rintro ⟨l, r⟩ hp
      have hsplits := ((partClosed_isNeeded g aut).mem_partsOf (isNeeded_iff.2 ht)).1 hp
      have hl : t.HasPart g aut l := ⟨l, r, hsplits, .inl rfl⟩
      have hr : t.HasPart g aut r := ⟨l, r, hsplits, .inr rfl⟩
      have hleft := ih _ (hd ▸ hl.distance_lt) (ht.part hl) rfl
      have hright := ih _ (hd ▸ hr.distance_lt) (ht.part hr) rfl
      have hbounds := hsplits.bounds
      have hexponent : 2 * (l.target - l.source) - 1 + (2 * (r.target - r.source) - 1) =
          2 * d - 2 := by omega
      calc _ ≤ (f.treesFor g aut l).length * (f.treesFor g aut r).length :=
            length_flatMap_le fun left _ => Nat.le_of_eq (List.length_map _)
        _ ≤ _ := Nat.mul_le_mul hleft hright
        _ = _ := by rw [← Nat.pow_add, hexponent]
    have hlt := ht.spanned.lt
    have hpos : 0 < nodeWays g aut ^ (2 * d - 2) :=
      Nat.pow_pos (Nat.lt_of_lt_of_le Nat.one_pos (by unfold nodeWays; omega))
    have hparts : (partsOf g aut (isNeeded g aut) t).length ≤ g.pairs.length * aut.stateCount :=
      Nat.le_trans (length_partsOf_le _) (Nat.mul_le_mul_left _ (Nat.le_of_lt hlt.2))
    have hways : aut.edges.length + g.pairs.length * aut.stateCount ≤ nodeWays g aut := by
      unfold nodeWays
      omega
    rw [h.treesFor_eq ht, List.length_append, List.length_map]
    calc _ ≤ aut.edges.length + g.pairs.length * aut.stateCount * nodeWays g aut ^ (2 * d - 2) :=
          Nat.add_le_add length_leavesOf_le
            (Nat.le_trans (length_flatMap_le hbranch) (Nat.mul_le_mul_right _ hparts))
      _ ≤ (aut.edges.length + g.pairs.length * aut.stateCount) * nodeWays g aut ^ (2 * d - 2) := by
          rw [Nat.add_mul]
          exact Nat.add_le_add_right (Nat.le_mul_of_pos_right _ hpos) _
      _ ≤ nodeWays g aut * nodeWays g aut ^ (2 * d - 2) := Nat.mul_le_mul_right _ hways
      _ = nodeWays g aut ^ (2 * d - 1) := by
          rw [← Nat.pow_succ']
          congr 1
          omega

theorem IsFull.length_roots_le (h : f.IsFull g aut) :
    f.roots.length ≤ aut.initials.length * aut.finals.length := by
  have hsubset : f.roots ⊆ aut.initials.flatMap fun p => aut.finals.map fun q =>
      (neededOrder g aut).idxOf ⟨p, g.start, q⟩ := by
    intro x hx
    obtain ⟨p, hp, q, hq, -, rfl⟩ := (h.mem_roots x).1 hx
    exact List.mem_flatMap.2 ⟨p, hp, List.mem_map_of_mem hq⟩
  have hnodup : f.roots.Nodup := h.roots_ascending.imp Nat.ne_of_lt
  refine Nat.le_trans (hnodup.subperm hsubset).length_le (length_flatMap_le fun p _ => ?_)
  rw [List.length_map]

theorem IsFull.length_trees_le (h : f.IsFull g aut) : f.trees.length ≤
    aut.initials.length * aut.finals.length * nodeWays g aut ^ (2 * aut.stateCount) := by
  refine Nat.le_trans (length_flatMap_le fun x hx => ?_) (Nat.mul_le_mul_right _ h.length_roots_le)
  obtain ⟨p, -, q, -, hneeded, rfl⟩ := (h.mem_roots x).1 hx
  have hlt := hneeded.spanned.lt
  have hways : 0 < nodeWays g aut := by
    unfold nodeWays
    omega
  exact Nat.le_trans (h.length_treesFor_le hneeded) (Nat.pow_le_pow_right hways (by omega))

end Forest

end GrammarRepair
