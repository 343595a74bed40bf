import GrammarRepair.Forest.Derivation
import GrammarRepair.Forest.Trees
import Mathlib.Algebra.GroupWithZero.Nat
import Mathlib.Data.List.Basic
import Mathlib.Data.List.Induction

/-!
What the counts and the numbers of derivations in a forest mean. A count is the number of trees, as
far as that fits, and as long as it fits the `k`-th derivation is the `k`-th tree: blocks of trees
follow one another, and within the block of a branch the left part is the leading digit. Main
statement: unless too many, the strings of a forest are those of its trees, each where it first
appears.
-/

namespace GrammarRepair

namespace Saturating

variable {c d m n : Nat}

/-- The count `c` is as good a count of `n` things as fits, and never too great. -/
structure Agrees (c n : Nat) : Prop where
  le : c ≤ n
  min_eq : min c limit = min n limit

theorem Agrees.refl (n : Nat) : Agrees n n := ⟨Nat.le_refl n, rfl⟩

theorem Agrees.eq_of_le (h : Agrees c n) (hn : n ≤ limit) : c = n := by
  obtain ⟨hle, hmin⟩ := h
  omega

theorem Agrees.add (h : Agrees c m) (h' : Agrees d n) : Agrees (add c d) (m + n) := by
  obtain ⟨hle, hmin⟩ := h
  obtain ⟨hle', hmin'⟩ := h'
  unfold Saturating.add
  constructor <;> omega

theorem min_mul_min (bound m n : Nat) :
    min (min m bound * min n bound) bound = min (m * n) bound := by
  rcases Nat.eq_zero_or_pos bound with rfl | hbound
  · simp
  have hcut : ∀ m n, bound ≤ m → min (min m bound * n) bound = min (m * n) bound := by
    intro m n hm
    rcases Nat.eq_zero_or_pos n with rfl | hn
    · simp
    have h1 : bound ≤ bound * n := Nat.le_mul_of_pos_right bound hn
    have h2 : bound ≤ m * n := Nat.le_trans hm (Nat.le_mul_of_pos_right m hn)
    rw [Nat.min_eq_right hm, Nat.min_eq_right h1, Nat.min_eq_right h2]
  have hleft : ∀ m n, min (min m bound * n) bound = min (m * n) bound := by
    intro m n
    rcases Nat.le_total bound m with hm | hm
    · exact hcut m n hm
    · rw [Nat.min_eq_left hm]
  rw [hleft, Nat.mul_comm, hleft, Nat.mul_comm]

theorem Agrees.mul (h : Agrees c m) (h' : Agrees d n) : Agrees (mul c d) (m * n) := by
  constructor
  · exact Nat.le_trans (Nat.min_le_left _ _) (Nat.mul_le_mul h.le h'.le)
  · rw [Saturating.mul, Nat.min_eq_left (Nat.min_le_right _ _), ← min_mul_min, h.min_eq, h'.min_eq,
      min_mul_min]

theorem agrees_foldl_add {α : Type} {count size : α → Nat} {xs : List α}
    (h : ∀ x ∈ xs, Agrees (count x) (size x)) (hc : Agrees c n) :
    Agrees (xs.foldl (fun c x => add c (count x)) c) (n + (xs.map size).sum) := by
  induction xs generalizing c n with
  | nil => simpa using hc
  | cons x xs ih =>
    have hx := hc.add (h x (by simp))
    simpa [Nat.add_assoc] using ih (fun y hy => h y (by simp [hy])) hx

end Saturating

open Saturating

namespace Node

theorem count_congr {counts counts' : Array Nat} {node : Node}
    (h : ∀ b ∈ node.branches,
      counts.getD b.1 0 = counts'.getD b.1 0 ∧ counts.getD b.2 0 = counts'.getD b.2 0) :
    node.count counts = node.count counts' := by
  unfold count
  refine List.foldl_ext _ _ _ fun n b hb => ?_
  rw [branchCount, branchCount, (h b hb).1, (h b hb).2]

def counted (nodes : List Node) : Array Nat :=
  nodes.foldl (fun counts node => counts.push (node.count counts)) #[]

theorem countAll_eq (nodes : Array Node) : countAll nodes = counted nodes.toList := by
  rw [countAll, counted, Array.foldl_toList]

theorem counted_append (nodes : List Node) (node : Node) :
    counted (nodes ++ [node]) = (counted nodes).push (node.count (counted nodes)) := by
  rw [counted, List.foldl_append]
  rfl

@[simp] theorem size_counted (nodes : List Node) : (counted nodes).size = nodes.length := by
  induction nodes using List.reverseRecOn with
  | nil => rfl
  | append_singleton nodes node ih => simp [counted_append, ih]

theorem getD_push_of_lt {counts : Array Nat} {i n : Nat} (h : i < counts.size) :
    (counts.push n).getD i 0 = counts.getD i 0 := by
  simp [Array.getElem?_push_lt h, h]

theorem count_push {counts : Array Nat} {node : Node} {n : Nat}
    (h : ∀ b ∈ node.branches, b.1 < counts.size ∧ b.2 < counts.size) :
    node.count (counts.push n) = node.count counts :=
  count_congr fun b hb => ⟨getD_push_of_lt (h b hb).1, getD_push_of_lt (h b hb).2⟩

/-- Every count is made from the finished counts, since parts come before the whole. -/
theorem getD_counted {nodes : List Node}
    (hchild : ∀ (i : Nat) (node : Node), nodes[i]? = some node →
      ∀ b ∈ node.branches, b.1 < i ∧ b.2 < i) :
    ∀ (i : Nat) (node : Node), nodes[i]? = some node →
      (counted nodes).getD i 0 = node.count (counted nodes) := by
  induction nodes using List.reverseRecOn with
  | nil => simp
  | append_singleton nodes last ih =>
    intro i node hi
    have hlength := (List.getElem?_eq_some_iff.1 hi).1
    rw [List.length_append, List.length_singleton] at hlength
    rw [counted_append, count_push fun b hb => ?_]
    · by_cases hlt : i < nodes.length
      · rw [List.getElem?_append_left hlt] at hi
        rw [getD_push_of_lt (by simpa using hlt)]
        refine ih (fun j n hj => hchild j n ?_) i node hi
        rw [List.getElem?_append_left (List.getElem?_eq_some_iff.1 hj).1, hj]
      · obtain rfl : i = nodes.length := by omega
        obtain rfl : last = node := by simpa using hi
        simp [Array.getD, Array.getElem_push]
    · have hbound := hchild i node hi b hb
      rw [size_counted]
      omega

end Node

namespace Forest

variable {f : Forest} {x k : Nat} {node : Node}

theorem counts_getD (h : f.nodes[x]? = some node) : f.counts.getD x 0 = node.count f.counts := by
  rw [f.counts_eq, Node.countAll_eq]
  refine Node.getD_counted (fun i n hi => f.child_lt i n ?_) x node ?_
  · rwa [Array.getElem?_toList] at hi
  · rwa [Array.getElem?_toList]

theorem size_counts : f.counts.size = f.nodes.size := by
  rw [f.counts_eq, Node.countAll_eq, Node.size_counted, Array.length_toList]

def branchTrees (f : Forest) (b : Nat × Nat) : List Tree :=
  (f.treesOf b.1).flatMap fun left => (f.treesOf b.2).map (.branch left)

theorem treesOf_eq (h : f.nodes[x]? = some node) :
    f.treesOf x = node.leaves.map .leaf ++ node.branches.flatMap f.branchTrees := by
  rw [treesOf]
  split
  · next hnone =>
    rw [h] at hnone
    cases hnone
  · next n hn =>
    obtain rfl : node = n := Option.some.inj (h.symm.trans hn)
    congr 1
    rw [List.flatMap_subtype (g := f.branchTrees) (fun _ _ => rfl), List.unattach_attach]

theorem treesOf_of_size_le (h : f.nodes.size ≤ x) : f.treesOf x = [] := by
  rw [treesOf]
  split
  · rfl
  · next n hn =>
    have hlt := (Array.getElem?_eq_some_iff.1 hn).1
    omega

theorem length_branchTrees (b : Nat × Nat) :
    (f.branchTrees b).length = (f.treesOf b.1).length * (f.treesOf b.2).length := by
  simp [branchTrees, List.length_flatMap, List.map_const']

theorem agrees_counts (x : Nat) : Agrees (f.counts.getD x 0) (f.treesOf x).length := by
  induction x using Nat.strongRecOn with
  | ind x ih =>
    cases hx : f.nodes[x]? with
    | none =>
      have hsize := Array.getElem?_eq_none_iff.1 hx
      have hnone : f.counts.getD x 0 = 0 := by simp [Array.getD, size_counts, Nat.not_lt.2 hsize]
      rw [hnone, treesOf_of_size_le hsize]
      exact .refl 0
    | some node =>
      rw [counts_getD hx, treesOf_eq hx, List.length_append, List.length_map, List.length_flatMap]
      refine agrees_foldl_add (fun b hb => ?_) (.refl _)
      have hlt := f.child_lt x node hx b hb
      rw [length_branchTrees]
      exact (ih b.1 hlt.1).mul (ih b.2 hlt.2)

theorem agrees_count (f : Forest) : Agrees f.count f.trees.length := by
  have hsum : f.count = f.roots.foldl (fun c x => add c (f.counts.getD x 0)) 0 := by
    rw [count, sum, List.foldl_map]
  rw [hsum, trees, List.length_flatMap]
  simpa using agrees_foldl_add (fun x _ => agrees_counts x) (Agrees.refl 0)

/-- The item in whose block a position lies and the position there, where blocks of the given sizes
follow one another. -/
def locate? {α : Type} (size : α → Nat) : List α → Nat → Option (α × Nat)
  | [], _ => none
  | x :: xs, k => if k < size x then some (x, k) else locate? size xs (k - size x)

theorem locate?_mem {α : Type} {size : α → Nat} {xs : List α} {y : α} {j : Nat}
    (h : locate? size xs k = some (y, j)) : y ∈ xs ∧ j < size y := by
  induction xs generalizing k with
  | nil => cases h
  | cons x xs ih =>
    rw [locate?] at h
    split at h
    · next hlt =>
      cases h
      exact ⟨by simp, hlt⟩
    · have := ih h
      exact ⟨List.mem_cons_of_mem _ this.1, this.2⟩

theorem getElem?_flatMap_locate? {α β : Type} {size : α → Nat} {block : α → List β} {xs : List α}
    (h : ∀ x ∈ xs, size x = (block x).length) (k : Nat) :
    (xs.flatMap block)[k]? = (locate? size xs k).bind fun p => (block p.1)[p.2]? := by
  induction xs generalizing k with
  | nil => simp [locate?]
  | cons x xs ih =>
    rw [List.flatMap_cons, locate?, h x (by simp)]
    split
    · next hlt =>
      rw [List.getElem?_append_left hlt]
      rfl
    · next hge =>
      rw [List.getElem?_append_right (Nat.le_of_not_lt hge)]
      exact ih (fun y hy => h y (by simp [hy])) _

theorem pick?_eq_locate? (counts : Array Nat) (bs : List (Nat × Nat)) (k : Nat) :
    pick? counts bs k = locate? (Node.branchCount counts) bs k := by
  induction bs generalizing k with
  | nil => rfl
  | cons b bs ih => rw [pick?, locate?, ih]

theorem pickRoot?_eq_locate? (xs : List Nat) (k : Nat) :
    f.pickRoot? xs k = locate? (fun x => f.counts.getD x 0) xs k := by
  induction xs generalizing k with
  | nil => rfl
  | cons x xs ih => rw [pickRoot?, locate?, ih]

/-- In a list of pairs the first part is the leading digit of a position. -/
theorem getElem?_flatMap_map {α β γ : Type} (g : α → β → γ) (xs : List α) {ys : List β}
    (hys : ys ≠ []) (j : Nat) : (xs.flatMap fun x => ys.map (g x))[j]? =
      xs[j / ys.length]?.bind fun x => ys[j % ys.length]?.map (g x) := by
  have hpos := List.length_pos_iff.2 hys
  induction xs generalizing j with
  | nil => simp
  | cons x xs ih =>
    rw [List.flatMap_cons]
    by_cases hlt : j < ys.length
    · rw [List.getElem?_append_left (by simpa using hlt), Nat.div_eq_of_lt hlt,
        Nat.mod_eq_of_lt hlt]
      simp
    · have hle := Nat.le_of_not_lt hlt
      rw [List.getElem?_append_right (by simpa using hle), List.length_map, ih,
        Nat.div_eq_sub_div hpos hle, Nat.mod_eq_sub_mod hle, List.getElem?_cons_succ]

theorem length_branchTrees_le {b : Nat × Nat} (hx : f.nodes[x]? = some node)
    (hb : b ∈ node.branches) : (f.branchTrees b).length ≤ (f.treesOf x).length := by
  have hblock := (List.sublist_flatten_of_mem (List.mem_map_of_mem (f := f.branchTrees) hb)).length_le
  rw [treesOf_eq hx, List.length_append, List.flatMap]
  omega

/-- A tree of a branch is made of a tree of either part, and those of the left part vary slowest. -/
theorem exists_parts_of_branchTrees {b : Nat × Nat} {j : Nat} {t : Tree}
    (ht : (f.branchTrees b)[j]? = some t) :
    ∃ left right, (f.treesOf b.1)[j / (f.treesOf b.2).length]? = some left ∧
      (f.treesOf b.2)[j % (f.treesOf b.2).length]? = some right ∧ t = .branch left right := by
  have hright : f.treesOf b.2 ≠ [] := by
    intro hnil
    simp [branchTrees, hnil] at ht
  rw [branchTrees, getElem?_flatMap_map _ _ hright] at ht
  obtain ⟨left, hl, ht⟩ := Option.bind_eq_some_iff.1 ht
  obtain ⟨right, hr, rfl⟩ := Option.map_eq_some_iff.1 ht
  exact ⟨left, right, hl, hr, rfl⟩

theorem length_treesOf_le_of_branchTrees {b : Nat × Nat} (hne : f.branchTrees b ≠ []) :
    (f.treesOf b.1).length ≤ (f.branchTrees b).length ∧
      (f.treesOf b.2).length ≤ (f.branchTrees b).length := by
  have hpos := List.length_pos_iff.2 hne
  rw [length_branchTrees] at hpos ⊢
  exact ⟨Nat.le_mul_of_pos_right _ (Nat.pos_of_mul_pos_left hpos),
    Nat.le_mul_of_pos_left _ (Nat.pos_of_mul_pos_right hpos)⟩

theorem branchCount_eq {b : Nat × Nat} (hfits : (f.branchTrees b).length ≤ limit) :
    Node.branchCount f.counts b = (f.branchTrees b).length := by
  rw [length_branchTrees] at hfits ⊢
  exact ((agrees_counts b.1).mul (agrees_counts b.2)).eq_of_le hfits

theorem yield_of_leaf {token : Nat} (hx : f.nodes[x]? = some node)
    (hleaf : node.leaves[k]? = some token) : f.yield x k = [token] := by
  rw [yield]
  split
  · next hnone =>
    rw [hx] at hnone
    cases hnone
  · next n hn =>
    obtain rfl : node = n := Option.some.inj (hx.symm.trans hn)
    simp only [hleaf]

theorem yield_of_pick {b : Nat × Nat} {j : Nat} (hx : f.nodes[x]? = some node)
    (hnone : node.leaves[k]? = none)
    (hpick : pick? f.counts node.branches (k - node.leaves.length) = some (b, j)) :
    f.yield x k = f.yield b.1 (j / f.counts.getD b.2 0) ++ f.yield b.2 (j % f.counts.getD b.2 0) := by
  rw [yield]
  split
  · next hnone =>
    rw [hx] at hnone
    cases hnone
  · next n hn =>
    obtain rfl : node = n := Option.some.inj (hx.symm.trans hn)
    simp only [hnone]
    split
    · next hnopick =>
      rw [hpick] at hnopick
      cases hnopick
    · next b' j' hpick' =>
      obtain ⟨rfl, rfl⟩ : b = b' ∧ j = j' := by simpa using hpick.symm.trans hpick'
      rfl

theorem yield_eq_tokens {t : Tree} (hfits : (f.treesOf x).length ≤ limit)
    (ht : (f.treesOf x)[k]? = some t) : f.yield x k = t.tokens := by
  induction x using Nat.strongRecOn generalizing k t with
  | ind x ih =>
    cases hx : f.nodes[x]? with
    | none =>
      rw [treesOf_of_size_le (Array.getElem?_eq_none_iff.1 hx)] at ht
      simp at ht
    | some node =>
      have hbranch : ∀ b ∈ node.branches, (f.branchTrees b).length ≤ limit := fun b hb =>
        Nat.le_trans (length_branchTrees_le hx hb) hfits
      have hsize := fun b hb => branchCount_eq (hbranch b hb)
      rw [treesOf_eq hx] at ht
      cases hleaf : node.leaves[k]? with
      | some token =>
        have hlt := (List.getElem?_eq_some_iff.1 hleaf).1
        rw [List.getElem?_append_left (by simpa using hlt), List.getElem?_map, hleaf] at ht
        obtain rfl := Option.some.inj ht
        exact yield_of_leaf hx hleaf
      | none =>
        rw [List.getElem?_append_right (by simpa using hleaf), List.length_map,
          getElem?_flatMap_locate? hsize, ← pick?_eq_locate?] at ht
        obtain ⟨⟨b, j⟩, hpick, htree⟩ := Option.bind_eq_some_iff.1 ht
        have hb : b ∈ node.branches := mem_of_pick? hpick
        have hlt := f.child_lt x node hx b hb
        have hle := length_treesOf_le_of_branchTrees (List.ne_nil_of_mem
          (List.mem_of_getElem? htree))
        have hfitsl := Nat.le_trans hle.1 (hbranch b hb)
        have hfitsr := Nat.le_trans hle.2 (hbranch b hb)
        obtain ⟨left, right, hl, hr, rfl⟩ := exists_parts_of_branchTrees htree
        rw [yield_of_pick hx hleaf hpick, (agrees_counts b.2).eq_of_le hfitsr,
          ih b.1 hlt.1 hfitsl hl, ih b.2 hlt.2 hfitsr hr]
        rfl

theorem length_treesOf_le (hx : x ∈ f.roots) : (f.treesOf x).length ≤ f.trees.length :=
  (List.sublist_flatten_of_mem (List.mem_map_of_mem (f := f.treesOf) hx)).length_le

/-- The `k`-th derivation has the tokens of the `k`-th tree, and there are no others. -/
theorem derivation?_eq (hfits : f.trees.length ≤ limit) (k : Nat) :
    f.derivation? k = f.trees[k]?.map Tree.tokens := by
  have hsize : ∀ x ∈ f.roots, f.counts.getD x 0 = (f.treesOf x).length := fun x hx =>
    (agrees_counts x).eq_of_le (Nat.le_trans (length_treesOf_le hx) hfits)
  rw [trees, getElem?_flatMap_locate? hsize, derivation?, pickRoot?_eq_locate?]
  cases hpick : locate? (fun x => f.counts.getD x 0) f.roots k with
  | none => rfl
  | some p =>
    obtain ⟨x, j⟩ := p
    obtain ⟨hx, hj⟩ := locate?_mem hpick
    rw [hsize x hx] at hj
    have hfitsx := Nat.le_trans (length_treesOf_le hx) hfits
    have htree : (f.treesOf x)[j]? = some (f.treesOf x)[j] := List.getElem?_eq_getElem hj
    simp [yield_eq_tokens hfitsx htree, hj]

theorem Harvest.room_add {h : Harvest} (w : List Nat) (hroom : h.room = none) :
    (h.add w).room = none := by
  unfold Harvest.add
  split <;> simp [hroom]

theorem Harvest.room_foldl_add {h : Harvest} (ws : List (List Nat)) (hroom : h.room = none) :
    (ws.foldl Harvest.add h).room = none :=
  List.foldlRecOn (motive := fun h : Harvest => h.room = none) ws _ hroom fun _ hh w _ =>
    room_add w hh

theorem gather_eq_foldl {ws : List (List Nat)} {h : Harvest} (hroom : h.room = none)
    (hws : ∀ i < ws.length, f.derivation? (k + i) = ws[i]?) :
    f.gather ws.length k h = ws.foldl Harvest.add h := by
  induction ws generalizing k h with
  | nil => rfl
  | cons w ws ih =>
    have hfirst : f.derivation? k = some w := by simpa using hws 0 (by simp)
    have hfull : h.isFull = false := by simp [Harvest.isFull, hroom]
    rw [List.length_cons, gather, hfull, hfirst]
    refine ih (Harvest.room_add w hroom) fun i hi => ?_
    rw [Nat.add_assoc, Nat.add_comm 1 i, hws (i + 1) (by simpa using hi), List.getElem?_cons_succ]

/-- The strings taken in are those met. -/
theorem toList_foldl_add (ws : List (List Nat)) {h : Harvest}
    (hmet : ∀ w, w ∈ h.met ↔ w ∈ h.toList) : (ws.foldl Harvest.add h).toList =
      ws.foldl (fun seen w => if seen.contains w then seen else seen ++ [w]) h.toList := by
  induction ws generalizing h with
  | nil => rfl
  | cons w ws ih =>
    rw [List.foldl_cons, List.foldl_cons]
    by_cases hw : w ∈ h.met
    · have hadd : h.add w = h := if_pos hw
      rw [hadd, ih hmet, if_pos (List.contains_iff_mem.2 ((hmet w).1 hw))]
    · have hadd : h.add w = ⟨h.room.map (· - 1), h.met.insert w, w :: h.strings⟩ := if_neg hw
      have hseen : ¬ h.toList.contains w = true := by
        rwa [List.contains_iff_mem, ← hmet]
      have hlist : (h.add w).toList = h.toList ++ [w] := by simp [hadd, Harvest.toList]
      rw [if_neg hseen, ← hlist]
      refine ih fun v => ?_
      rw [hlist, hadd, Std.HashSet.mem_insert, List.mem_append, List.mem_singleton, hmet, beq_iff_eq]
      have hcomm : w = v ↔ v = w := eq_comm
      rw [hcomm, or_comm]

theorem toList_foldl_add_start (ws : List (List Nat)) :
    (ws.foldl Harvest.add (.start none)).toList = distinct ws := by
  have hmet : ∀ w, w ∈ (Harvest.start none).met ↔ w ∈ (Harvest.start none).toList := by
    simp [Harvest.start, Harvest.toList]
  rw [toList_foldl_add _ hmet, distinct_eq_foldl]
  rfl

/-- Unless there are too many trees to count, the strings of a forest are those of its trees, each
where it first appears. -/
theorem sentences_eq_distinct (hfits : f.trees.length ≤ limit) :
    f.sentences none = distinct (f.trees.map Tree.tokens) := by
  have hcount : f.count = (f.trees.map Tree.tokens).length := by
    rw [List.length_map]
    exact (agrees_count f).eq_of_le hfits
  rw [sentences, hcount, gather_eq_foldl rfl fun i _ => ?_, toList_foldl_add_start]
  rw [Nat.zero_add, derivation?_eq hfits, List.getElem?_map]

end Forest

end GrammarRepair
