import GrammarRepair.Proofs.Forest.Counting

/-!
Numbers of derivations in a forest of any size. A count that stopped growing is too small, never too
great. So a number below the count of a node is taken apart into numbers below the counts of its parts,
whether or not counts stopped growing. Main statements: every number below the count of a node leads to
a whole tree of it, and a number belongs to one of the roots exactly if it is below the sum of their
counts.
-/

namespace GrammarRepair

open Saturating

/-- A sum that stops growing is the sum as far as that fits. -/
theorem Saturating.foldl_add_eq {α : Type} (count : α → Nat) (xs : List α) {n : Nat}
    (hn : n ≤ limit) :
    xs.foldl (fun c x => add c (count x)) n = min (n + (xs.map count).sum) limit := by
  induction xs generalizing n with
  | nil => exact (Nat.min_eq_left hn).symm
  | cons x xs ih =>
    have hstep : add n (count x) = min (n + count x) limit := rfl
    have hrest := ih (n := add n (count x)) (Nat.min_le_right _ _)
    rw [List.foldl_cons, List.map_cons, List.sum_cons]
    omega

namespace Forest

variable {f : Forest} {x k : Nat} {node : Node} {t : Tree}

theorem foldl_add_le {α : Type} (count : α → Nat) (xs : List α) (n : Nat) :
    xs.foldl (fun c x => add c (count x)) n ≤ n + (xs.map count).sum :=
  (agrees_foldl_add (fun x _ => .refl (count x)) (.refl n)).le

theorem isSome_locate?_iff {α : Type} (size : α → Nat) (xs : List α) (k : Nat) :
    (locate? size xs k).isSome = true ↔ k < (xs.map size).sum := by
  induction xs generalizing k with
  | nil => simp [locate?]
  | cons x xs ih =>
    rw [List.map_cons, List.sum_cons, locate?]
    split
    · next hlt => exact iff_of_true rfl (Nat.lt_add_right _ hlt)
    · next hge =>
      rw [ih]
      omega

/-- The numbers of a branch are pairs of numbers of its parts. -/
theorem parts_lt_of_lt_branchCount {b : Nat × Nat} (h : k < Node.branchCount f.counts b) :
    k / f.counts.getD b.2 0 < f.counts.getD b.1 0 ∧
      k % f.counts.getD b.2 0 < f.counts.getD b.2 0 := by
  have hlt : k < f.counts.getD b.1 0 * f.counts.getD b.2 0 :=
    Nat.lt_of_lt_of_le h (Nat.min_le_left _ _)
  have hpos : 0 < f.counts.getD b.2 0 := by
    apply Nat.pos_of_ne_zero
    intro hzero
    rw [hzero, Nat.mul_zero] at hlt
    exact Nat.not_lt_zero k hlt
  exact ⟨(Nat.div_lt_iff_lt_mul hpos).2 hlt, Nat.mod_lt k hpos⟩

/-- Past the leaves of a node, a number below its count lies in the block of a branch. -/
theorem exists_pick?_of_lt_count (h : k < node.count f.counts) (hleaf : node.leaves[k]? = none) :
    ∃ b j, pick? f.counts node.branches (k - node.leaves.length) = some (b, j) ∧
      j < Node.branchCount f.counts b := by
  have hle := List.getElem?_eq_none_iff.1 hleaf
  have hcount : node.count f.counts ≤
      node.leaves.length + (node.branches.map (Node.branchCount f.counts)).sum :=
    foldl_add_le (Node.branchCount f.counts) node.branches node.leaves.length
  obtain ⟨⟨b, j⟩, hlocate⟩ := Option.isSome_iff_exists.1
    ((isSome_locate?_iff (Node.branchCount f.counts) node.branches
      (k - node.leaves.length)).2 (by omega))
  exact ⟨b, j, by rw [pick?_eq_locate?, hlocate], (locate?_mem hlocate).2⟩

/-- `f.Decodes x k t`: number `k` of node `x` is in range and leads to the tree `t`. It is that of a
leaf, or it lies in the block of a branch, where the count of the right part divides it into numbers of
both parts. -/
inductive Decodes (f : Forest) : Nat → Nat → Tree → Prop
  | leaf {x k token : Nat} {node : Node} (hrange : k < f.counts.getD x 0)
      (hx : f.nodes[x]? = some node) (hleaf : node.leaves[k]? = some token) :
      Decodes f x k (.leaf token)
  | branch {x k j : Nat} {node : Node} {b : Nat × Nat} {left right : Tree}
      (hrange : k < f.counts.getD x 0) (hx : f.nodes[x]? = some node)
      (hleaf : node.leaves[k]? = none)
      (hpick : pick? f.counts node.branches (k - node.leaves.length) = some (b, j))
      (hdivisor : 0 < f.counts.getD b.2 0)
      (hleft : Decodes f b.1 (j / f.counts.getD b.2 0) left)
      (hright : Decodes f b.2 (j % f.counts.getD b.2 0) right) :
      Decodes f x k (.branch left right)

theorem Decodes.mem_treesOf (h : f.Decodes x k t) : t ∈ f.treesOf x := by
  induction h with
  | leaf _ hx hleaf =>
    rw [treesOf_eq hx]
    exact List.mem_append_left _ (List.mem_map_of_mem (List.mem_of_getElem? hleaf))
  | branch _ hx _ hpick _ _ _ ihleft ihright =>
    rw [treesOf_eq hx]
    exact List.mem_append_right _ (List.mem_flatMap.2 ⟨_, mem_of_pick? hpick,
      List.mem_flatMap.2 ⟨_, ihleft, List.mem_map_of_mem ihright⟩⟩)

/-- The tokens of a number are those of the whole tree. -/
theorem Decodes.tokens_eq (h : f.Decodes x k t) : t.tokens = f.yield x k := by
  induction h with
  | leaf _ hx hleaf => exact (yield_of_leaf hx hleaf).symm
  | branch _ hx hleaf hpick _ _ _ ihleft ihright =>
    rw [yield_of_pick hx hleaf hpick, Tree.tokens, ihleft, ihright]

/-- Every number below the count of a node leads to a tree. -/
theorem exists_decodes (h : k < f.counts.getD x 0) : ∃ t, f.Decodes x k t := by
  induction x using Nat.strongRecOn generalizing k with
  | ind x ih =>
    cases hx : f.nodes[x]? with
    | none =>
      have hsize := Array.getElem?_eq_none_iff.1 hx
      simp [Array.getD, size_counts, Nat.not_lt.2 hsize] at h
    | some node =>
      cases hleaf : node.leaves[k]? with
      | some token => exact ⟨_, .leaf h hx hleaf⟩
      | none =>
        obtain ⟨b, j, hpick, hj⟩ := exists_pick?_of_lt_count (counts_getD hx ▸ h) hleaf
        obtain ⟨hleft, hright⟩ := parts_lt_of_lt_branchCount hj
        have hlt := f.child_lt x node hx b (mem_of_pick? hpick)
        obtain ⟨left, hdecodes⟩ := ih b.1 hlt.1 hleft
        obtain ⟨right, hdecodes'⟩ := ih b.2 hlt.2 hright
        exact ⟨_, .branch h hx hleaf hpick (Nat.zero_lt_of_lt hright) hdecodes hdecodes'⟩

/-- The sum of the counts of all roots, however great. -/
def rootSum (f : Forest) : Nat := (f.roots.map fun x => f.counts.getD x 0).sum

theorem count_eq_min (f : Forest) : f.count = min f.rootSum limit := by
  have hsum := foldl_add_eq id (f.roots.map fun x => f.counts.getD x 0) (Nat.zero_le limit)
  rwa [List.map_id, Nat.zero_add] at hsum

theorem isSome_derivation?_iff : (f.derivation? k).isSome = true ↔ k < f.rootSum := by
  rw [derivation?, Option.isSome_map, pickRoot?_eq_locate?, isSome_locate?_iff, rootSum]

theorem exists_decodes_of_derivation? {w : List Nat} (h : f.derivation? k = some w) :
    ∃ x ∈ f.roots, ∃ j t, f.Decodes x j t ∧ t.tokens = w := by
  obtain ⟨⟨x, j⟩, hpick, rfl⟩ := Option.map_eq_some_iff.1 h
  rw [pickRoot?_eq_locate?] at hpick
  obtain ⟨hx, hj⟩ := locate?_mem hpick
  obtain ⟨t, ht⟩ := exists_decodes hj
  exact ⟨x, hx, j, t, ht, ht.tokens_eq⟩

end Forest

end GrammarRepair
