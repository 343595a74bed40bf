import GrammarRepair.Proofs.Forest.Bracketing
import GrammarRepair.Proofs.Forest.Live
import Mathlib.Data.Fintype.Card

/-!
Derivations and their numbers. What tells a derivation apart is which alternative it takes at each
node; two derivations may well have equal trees. Taken in order, the derivations of a node have the
trees of the node, and none comes twice. Main statement: unless there are too many, derivations are
numbered from 0 without a gap, counts are how many there are, and the `k`-th derivation has the tokens
of the `k`-th tree.
-/

namespace GrammarRepair

open Saturating

/-- What a derivation takes at a node: one of its leaves, or one of its branches together with a
derivation of either part. -/
inductive Choice
  | leaf (i : Nat)
  | branch (i : Nat) (left right : Choice)
  deriving DecidableEq, Repr

namespace Forest

variable {f : Forest} {x : Nat} {node : Node} {c : Choice} {t : Tree}

/-- `f.Takes x c t`: node `x` has all that `c` takes, and it makes up the tree `t`. -/
inductive Takes (f : Forest) : Nat → Choice → Tree → Prop
  | leaf {x i token : Nat} {node : Node} (hx : f.nodes[x]? = some node)
      (hi : node.leaves[i]? = some token) : Takes f x (.leaf i) (.leaf token)
  | branch {x i : Nat} {node : Node} {b : Nat × Nat} {c d : Choice} {l r : Tree}
      (hx : f.nodes[x]? = some node) (hi : node.branches[i]? = some b) (hl : Takes f b.1 c l)
      (hr : Takes f b.2 d r) : Takes f x (.branch i c d) (.branch l r)

def choicesOf (f : Forest) (x : Nat) : List (Choice × Tree) :=
  match hn : f.nodes[x]? with
  | none => []
  | some node =>
    node.leaves.zipIdx.map (fun l => (.leaf l.2, .leaf l.1)) ++
      node.branches.zipIdx.attach.flatMap fun b =>
        have := f.child_lt x node hn b.1.1 (List.fst_mem_of_mem_zipIdx b.2)
        (f.choicesOf b.1.1.1).flatMap fun left => (f.choicesOf b.1.1.2).map fun right =>
          (.branch b.1.2 left.1 right.1, .branch left.2 right.2)
termination_by x
decreasing_by
  · exact this.2
  · exact this.1

def branchChoices (f : Forest) (b : (Nat × Nat) × Nat) : List (Choice × Tree) :=
  (f.choicesOf b.1.1).flatMap fun left => (f.choicesOf b.1.2).map fun right =>
    (.branch b.2 left.1 right.1, .branch left.2 right.2)

theorem choicesOf_eq (h : f.nodes[x]? = some node) : f.choicesOf x =
    node.leaves.zipIdx.map (fun l => (.leaf l.2, .leaf l.1)) ++
      node.branches.zipIdx.flatMap f.branchChoices := by
  rw [choicesOf]
  split
  · next hnone =>
    rw [h] at hnone
    cases hnone
  · next n hn =>
    obtain rfl : node = n := Option.some.inj (h.symm.trans hn)
    congr 1
    rw [List.flatMap_subtype (g := f.branchChoices) (fun _ _ => rfl), List.unattach_attach]

theorem choicesOf_of_size_le (h : f.nodes.size ≤ x) : f.choicesOf x = [] := by
  rw [choicesOf]
  split
  · rfl
  · next n hn =>
    have hlt := (Array.getElem?_eq_some_iff.1 hn).1
    omega

theorem mem_branchChoices_iff {b : (Nat × Nat) × Nat} : (c, t) ∈ f.branchChoices b ↔
    ∃ c₁ t₁ c₂ t₂, (c₁, t₁) ∈ f.choicesOf b.1.1 ∧ (c₂, t₂) ∈ f.choicesOf b.1.2 ∧
      c = .branch b.2 c₁ c₂ ∧ t = .branch t₁ t₂ := by
  simp only [branchChoices, List.mem_flatMap, List.mem_map, Prod.exists, Prod.mk.injEq]
  constructor
  · rintro ⟨c₁, t₁, h₁, c₂, t₂, h₂, rfl, rfl⟩
    exact ⟨c₁, t₁, c₂, t₂, h₁, h₂, rfl, rfl⟩
  · rintro ⟨c₁, t₁, c₂, t₂, h₁, h₂, rfl, rfl⟩
    exact ⟨c₁, t₁, h₁, c₂, t₂, h₂, rfl, rfl⟩

theorem map_fst_branchChoices (f : Forest) (b : (Nat × Nat) × Nat) :
    (f.branchChoices b).map Prod.fst =
      ((f.choicesOf b.1.1).map Prod.fst ×ˢ (f.choicesOf b.1.2).map Prod.fst).map
        fun p => .branch b.2 p.1 p.2 := by
  simp only [branchChoices, SProd.sprod, List.product, List.map_flatMap, List.flatMap_map,
    List.map_map]
  rfl

/-- The derivations that take a branch tell which branch it is. -/
theorem eq_branch_of_mem {b : (Nat × Nat) × Nat} (h : c ∈ (f.branchChoices b).map Prod.fst) :
    ∃ l r, c = .branch b.2 l r := by
  rw [map_fst_branchChoices] at h
  obtain ⟨p, -, rfl⟩ := List.mem_map.1 h
  exact ⟨_, _, rfl⟩

theorem nodup_branchChoices {b : (Nat × Nat) × Nat}
    (hl : ((f.choicesOf b.1.1).map Prod.fst).Nodup)
    (hr : ((f.choicesOf b.1.2).map Prod.fst).Nodup) :
    ((f.branchChoices b).map Prod.fst).Nodup := by
  rw [map_fst_branchChoices]
  refine (hl.product hr).map fun p q heq => ?_
  exact Prod.ext (Choice.branch.inj heq).2.1 (Choice.branch.inj heq).2.2

/-- The trees of the derivations, in order, are the trees of the node. -/
theorem map_snd_choicesOf (f : Forest) (x : Nat) : (f.choicesOf x).map Prod.snd = f.treesOf x := by
  induction x using Nat.strongRecOn with
  | ind x ih =>
    cases hx : f.nodes[x]? with
    | none =>
      have hsize := Array.getElem?_eq_none_iff.1 hx
      rw [choicesOf_of_size_le hsize, treesOf_of_size_le hsize]
      rfl
    | some node =>
      have hbranch : ∀ b ∈ node.branches.zipIdx,
          (f.branchChoices b).map Prod.snd = f.branchTrees b.1 := by
        intro b hb
        have hlt := f.child_lt x node hx b.1 (List.fst_mem_of_mem_zipIdx hb)
        rw [branchChoices, branchTrees, ← ih _ hlt.1, ← ih _ hlt.2, List.map_flatMap,
          List.flatMap_map]
        simp only [List.map_map]
        rfl
      have hleaves : (node.leaves.zipIdx.map fun l => (Choice.leaf l.2, Tree.leaf l.1)).map
          Prod.snd = node.leaves.map .leaf := by
        conv_rhs => rw [← List.zipIdx_map_fst 0 node.leaves, List.map_map]
        rw [List.map_map]
        rfl
      rw [choicesOf_eq hx, treesOf_eq hx, List.map_append, hleaves, List.map_flatMap,
        List.flatMap_congr hbranch]
      conv_rhs => rw [← List.zipIdx_map_fst 0 node.branches, List.flatMap_map]

theorem mem_choicesOf_iff : (c, t) ∈ f.choicesOf x ↔ f.Takes x c t := by
  induction x using Nat.strongRecOn generalizing c t with
  | ind x ih =>
    cases hx : f.nodes[x]? with
    | none =>
      rw [choicesOf_of_size_le (Array.getElem?_eq_none_iff.1 hx)]
      refine iff_of_false (List.not_mem_nil) ?_
      rintro (⟨hx', -⟩ | ⟨hx', -⟩) <;> cases hx.symm.trans hx'
    | some node =>
      rw [choicesOf_eq hx, List.mem_append, List.mem_map, List.mem_flatMap]
      constructor
      · rintro (⟨⟨token, i⟩, hl, heq⟩ | ⟨⟨b, i⟩, hb, hmem⟩)
        · cases heq
          exact .leaf hx (List.mem_zipIdx_iff_getElem?.1 hl)
        · have hlt := f.child_lt x node hx b (List.fst_mem_of_mem_zipIdx hb)
          obtain ⟨c₁, t₁, c₂, t₂, h₁, h₂, rfl, rfl⟩ := mem_branchChoices_iff.1 hmem
          exact .branch hx (List.mem_zipIdx_iff_getElem?.1 hb) ((ih _ hlt.1).1 h₁)
            ((ih _ hlt.2).1 h₂)
      · rintro (⟨hx', hi⟩ | ⟨hx', hi, h₁, h₂⟩)
        · obtain rfl := Option.some.inj (hx.symm.trans hx')
          exact .inl ⟨(_, _), List.mem_zipIdx_iff_getElem?.2 hi, rfl⟩
        · obtain rfl := Option.some.inj (hx.symm.trans hx')
          have hb := List.mk_mem_zipIdx_iff_getElem?.2 hi
          have hlt := f.child_lt x node hx _ (List.fst_mem_of_mem_zipIdx hb)
          exact .inr ⟨_, hb, mem_branchChoices_iff.2
            ⟨_, _, _, _, (ih _ hlt.1).2 h₁, (ih _ hlt.2).2 h₂, rfl, rfl⟩⟩

theorem nodup_choicesOf (f : Forest) (x : Nat) : ((f.choicesOf x).map Prod.fst).Nodup := by
  induction x using Nat.strongRecOn with
  | ind x ih =>
    cases hx : f.nodes[x]? with
    | none =>
      rw [choicesOf_of_size_le (Array.getElem?_eq_none_iff.1 hx)]
      exact List.nodup_nil
    | some node =>
      have hleaves : (node.leaves.zipIdx.map fun l => (Choice.leaf l.2, Tree.leaf l.1)).map
          Prod.fst = (List.range node.leaves.length).map .leaf := by
        rw [List.range_eq_range', ← List.zipIdx_map_snd 0 node.leaves, List.map_map, List.map_map]
        rfl
      have hnumbers : node.branches.zipIdx.Pairwise fun a b => a.2 ≠ b.2 := by
        rw [← List.pairwise_map (f := Prod.snd), List.zipIdx_map_snd]
        exact List.nodup_range'
      have hbranch : ∀ b ∈ node.branches.zipIdx, ((f.branchChoices b).map Prod.fst).Nodup := by
        intro b hb
        have hlt := f.child_lt x node hx b.1 (List.fst_mem_of_mem_zipIdx hb)
        exact nodup_branchChoices (ih _ hlt.1) (ih _ hlt.2)
      rw [choicesOf_eq hx, List.map_append, hleaves, List.map_flatMap]
      refine List.nodup_append.2 ⟨List.nodup_range.map fun i j => Choice.leaf.inj,
        List.nodup_flatMap.2 ⟨hbranch, hnumbers.imp fun {a b} hne => ?_⟩, ?_⟩
      · intro c hca hcb
        obtain ⟨l, r, rfl⟩ := eq_branch_of_mem hca
        obtain ⟨l', r', heq⟩ := eq_branch_of_mem hcb
        exact hne (Choice.branch.inj heq).1
      · rintro c hc d hd rfl
        obtain ⟨b, -, hd⟩ := List.mem_flatMap.1 hd
        obtain ⟨l, r, rfl⟩ := eq_branch_of_mem hd
        obtain ⟨i, -, hi⟩ := List.mem_map.1 hc
        cases hi

def choices (f : Forest) : List ((Nat × Choice) × Tree) :=
  f.roots.flatMap fun x => (f.choicesOf x).map fun c => ((x, c.1), c.2)

def IsDerivation (f : Forest) (d : Nat × Choice) : Prop := d.1 ∈ f.roots ∧ ∃ t, f.Takes d.1 d.2 t

theorem map_snd_choices (f : Forest) : f.choices.map Prod.snd = f.trees := by
  rw [choices, trees, List.map_flatMap]
  refine List.flatMap_congr fun x _ => ?_
  rw [List.map_map, ← map_snd_choicesOf]
  rfl

theorem mem_choices_iff {d : Nat × Choice} :
    (d, t) ∈ f.choices ↔ d.1 ∈ f.roots ∧ f.Takes d.1 d.2 t := by
  obtain ⟨x, c⟩ := d
  simp only [choices, List.mem_flatMap, List.mem_map, Prod.exists, Prod.mk.injEq,
    mem_choicesOf_iff]
  constructor
  · rintro ⟨x, hx, c, t, htakes, ⟨rfl, rfl⟩, rfl⟩
    exact ⟨hx, htakes⟩
  · rintro ⟨hx, htakes⟩
    exact ⟨x, hx, c, t, htakes, ⟨rfl, rfl⟩, rfl⟩

theorem mem_map_fst_choices_iff {d : Nat × Choice} :
    d ∈ f.choices.map Prod.fst ↔ f.IsDerivation d := by
  rw [List.mem_map]
  constructor
  · rintro ⟨⟨d, t⟩, hmem, rfl⟩
    obtain ⟨hroot, htakes⟩ := mem_choices_iff.1 hmem
    exact ⟨hroot, t, htakes⟩
  · rintro ⟨hroot, t, htakes⟩
    exact ⟨(d, t), mem_choices_iff.2 ⟨hroot, htakes⟩, rfl⟩

theorem nodup_choices (hroots : f.roots.Nodup) : (f.choices.map Prod.fst).Nodup := by
  have hblock : ∀ x, ((f.choicesOf x).map fun c => ((x, c.1), c.2)).map Prod.fst =
      ((f.choicesOf x).map Prod.fst).map (Prod.mk x) := by
    intro x
    rw [List.map_map, List.map_map]
    rfl
  rw [choices, List.map_flatMap]
  simp only [hblock]
  refine List.nodup_flatMap.2 ⟨fun x _ => ?_, hroots.imp fun {x y} hne => ?_⟩
  · exact (nodup_choicesOf f x).map fun c d heq => (Prod.mk.inj heq).2
  · intro d hx hy
    obtain ⟨c, -, rfl⟩ := List.mem_map.1 hx
    obtain ⟨c', -, heq⟩ := List.mem_map.1 hy
    exact hne (Prod.mk.inj heq).1.symm

/-- As many numbers as there are trees stand for the derivations, one each, in the order of the
trees. -/
theorem exists_numbering (hroots : f.roots.Nodup) :
    ∃ e : Fin f.trees.length ≃ {d // f.IsDerivation d},
      ∀ k, f.Takes (e k).1.1 (e k).1.2 f.trees[k] := by
  have hlength : f.trees.length = (f.choices.map Prod.fst).length := by
    rw [← map_snd_choices, List.length_map, List.length_map]
  refine ⟨(finCongr hlength).trans ((List.Nodup.getEquiv _ (nodup_choices hroots)).trans
    (Equiv.subtypeEquivRight fun d => mem_map_fst_choices_iff)), fun k => ?_⟩
  have hk : k.1 < f.choices.length :=
    Nat.lt_of_lt_of_eq k.2 (hlength.trans (List.length_map _))
  have htree : f.trees[k] = f.choices[k.1].2 := by
    simp only [← map_snd_choices, Fin.getElem_fin, List.getElem_map]
  have htakes := (mem_choices_iff.1 (List.getElem_mem hk)).2
  rw [htree]
  simpa using htakes

end Forest

/-- Unless a forest has too many trees to count, its counts are the numbers of trees of each node and of
all roots, the `k`-th derivation has the tokens of the `k`-th tree if there are that many, and the
numbers below the count stand for the derivations, one each. -/
theorem derivations_are_numbered {g : Grammar} {aut : Automaton} {template : Option Chart}
    {f : Forest} (h : (forest g aut template).value = .ok (some f))
    (hfits : f.trees.length < limit) :
    (∀ x < f.nodes.size, f.nodeCount? x = some (f.treesOf x).length) ∧
      f.count = f.trees.length ∧
      (∀ k, f.derivation? k = f.trees[k]?.map Tree.tokens) ∧
      ∃ e : Fin f.count ≃ {d // f.IsDerivation d}, ∀ k : Fin f.count,
        ∃ t, f.trees[k.1]? = some t ∧ f.Takes (e k).1.1 (e k).1.2 t := by
  have hlive := Forest.live_of_forest h
  have hcount : f.count = f.trees.length := (Forest.agrees_count f).eq_of_le (Nat.le_of_lt hfits)
  refine ⟨fun x hx => ?_, hcount, Forest.derivation?_eq (Nat.le_of_lt hfits), ?_⟩
  · have hnode : (f.treesOf x).length ≤ limit :=
      Nat.le_trans (hlive.length_treesOf_le hx) (Nat.le_of_lt hfits)
    have hlt : x < f.counts.size := by rwa [Forest.size_counts]
    rw [Forest.nodeCount?, ← (Forest.agrees_counts x).eq_of_le hnode]
    simp [hlt]
  · obtain ⟨e, he⟩ := Forest.exists_numbering hlive.nodup_roots
    refine ⟨(finCongr hcount).trans e, fun k => ⟨_, ?_, he (finCongr hcount k)⟩⟩
    simp

/-- The five ways to bracket four tokens are numbered from 0 to 4. -/
theorem derivations_are_numbered_line :
    ∃ f, (forest bracketing (line 4 [4] (by decide)) none).value = .ok (some f) ∧
      f.trees.length < limit ∧ f.count = 5 ∧ f.derivation? 5 = none ∧
      Nonempty (Fin 5 ≃ {d // f.IsDerivation d}) := by
  obtain ⟨f, hforest, hfull⟩ := exists_forest_line 4 [4] (by decide) (by decide) (by decide)
  have hroots := roots_line hfull (by decide) (by decide) (by decide)
  have hlength : f.trees.length = 5 := by
    rw [Forest.trees, List.perm_singleton.1 hroots, List.flatMap_singleton]
    exact (length_treesFor_line (p := 0) (d := 3) hfull (by decide) (by decide)).trans catalan_three
  have hfits : f.trees.length < limit := by
    rw [hlength]
    decide
  obtain ⟨-, hcount, hderivation, e, -⟩ := derivations_are_numbered hforest hfits
  rw [hlength] at hcount
  refine ⟨f, hforest, hfits, hcount, ?_, ⟨(finCongr hcount.symm).trans e⟩⟩
  rw [hderivation, List.getElem?_eq_none (Nat.le_of_eq hlength)]
  rfl

end GrammarRepair
