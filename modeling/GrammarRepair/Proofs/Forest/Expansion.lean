import GrammarRepair.Proofs.Forest.Bracketing
import GrammarRepair.Proofs.Forest.Layout
import Mathlib.Algebra.BigOperators.Ring.List
import Mathlib.Algebra.Order.BigOperators.Group.List

/-!
What a reader finds in the text of a forest. What a stack writes can be told from the items on it and
from the nodes that are laid out on the way: each of those is new, and its parts are written behind
its own line and deeper than it. Main statement: the text of a forest that is found lays out every node
once and names it afterwards, and has a line for each root and for each part of a node.
-/

namespace GrammarRepair

namespace Forest

def Line.Content.item : Line.Content → Item
  | node x _ => .node x
  | alternative => .alternative
  | leaf t => .leaf t

namespace Item

def isNode : Item → Bool
  | node _ => true
  | _ => false

def isAlternative : Item → Bool
  | alternative => true
  | _ => false

def isLeaf : Item → Bool
  | leaf _ => true
  | _ => false

end Item

end Forest

open Forest

namespace Node

def items (node : Node) : List Item :=
  let mark := if node.several then [.alternative] else []
  (node.leaves.flatMap fun t => mark ++ [.leaf t]) ++
    node.branches.flatMap fun b => mark ++ [.node b.1, .node b.2]

theorem map_item_mark (node : Node) (n : Nat) :
    (node.mark n).map (·.item) = if node.several then [.alternative] else [] := by
  unfold mark
  split <;> rfl

theorem map_item_under (node : Node) (n : Nat) : (node.under n).map (·.item) = node.items := by
  simp only [under, items, List.map_append, List.map_flatMap, map_item_mark, List.map_cons,
    List.map_nil]

theorem countP_isNode_items (node : Node) :
    node.items.countP Item.isNode = 2 * node.branches.length := by
  cases hseveral : node.several <;>
    simp [items, hseveral, List.countP_flatMap, Function.comp_def, List.countP_cons,
      Item.isNode, Nat.mul_comm]

theorem countP_isLeaf_items (node : Node) : node.items.countP Item.isLeaf = node.leaves.length := by
  cases hseveral : node.several <;>
    simp [items, hseveral, List.countP_flatMap, Function.comp_def, List.countP_cons,
      Item.isLeaf]

theorem countP_isAlternative_items (node : Node) : node.items.countP Item.isAlternative =
    if node.several then node.leaves.length + node.branches.length else 0 := by
  cases hseveral : node.several <;>
    simp [items, hseveral, List.countP_flatMap, Function.comp_def, List.countP_cons,
      Item.isAlternative]

theorem length_items_le (node : Node) :
    node.items.length ≤ 3 * (node.leaves.length + node.branches.length) := by
  cases hseveral : node.several <;>
    simp [items, hseveral, List.length_flatMap] <;> omega

end Node

namespace Forest

variable {f : Forest} {st : Stack} {seen : NatSet} {lines : List Line} {node : Node} {x n m : Nat}

theorem Writes.headers_new (h : Writes f st seen lines) :
    (headers lines).Nodup ∧ ∀ x ∈ headers lines, seen.has x = false := by
  induction h with
  | nil => exact ⟨List.nodup_nil, fun x hx => by cases hx⟩
  | alternative h ih => exact ih
  | leaf h ih => exact ih
  | again hseen h ih => exact ih
  | @first st seen lines n x node hnew hnode h ih =>
    obtain ⟨hnodup, hrest⟩ := ih
    have hrest' : ∀ y ∈ headers lines, seen.has y = false ∧ x ≠ y := by
      simpa using hrest
    refine ⟨List.nodup_cons.2 ⟨fun hx => (hrest' x hx).2 rfl, hnodup⟩, fun y hy => ?_⟩
    rcases List.mem_cons.1 hy with rfl | hy
    · exact hnew
    · exact (hrest' y hy).1

/-- All nodes on the stack are laid out sooner or later, and so are the parts of nodes that are. -/
theorem Writes.headers_closed (h : Writes f st seen lines) :
    (∀ p ∈ st, ∀ x, p.item = .node x → seen.has x = true ∨ x ∈ headers lines) ∧
      ∀ x ∈ headers lines, ∀ y, f.HasPart x y → seen.has y = true ∨ y ∈ headers lines := by
  induction h with
  | nil => exact ⟨fun p hp => (by cases hp), fun x hx => by cases hx⟩
  | alternative h ih => exact ⟨List.forall_mem_cons.2 ⟨fun x hx => (by cases hx), ih.1⟩, ih.2⟩
  | leaf h ih => exact ⟨List.forall_mem_cons.2 ⟨fun x hx => (by cases hx), ih.1⟩, ih.2⟩
  | again hseen h ih =>
    refine ⟨List.forall_mem_cons.2 ⟨fun x hx => ?_, ih.1⟩, ih.2⟩
    cases hx
    exact .inl hseen
  | @first st seen lines n x node hnew hnode h ih =>
    have hstep {y : Nat} (hy : (seen.insert x).has y = true ∨ y ∈ headers lines) :
        seen.has y = true ∨ y ∈ x :: headers lines := by
      rw [NatSet.has_insert, Bool.or_eq_true, decide_eq_true_eq] at hy
      rcases hy with (hy | rfl) | hy
      · exact .inl hy
      · exact .inr List.mem_cons_self
      · exact .inr (List.mem_cons_of_mem _ hy)
    refine ⟨List.forall_mem_cons.2 ⟨fun y hy => ?_, fun p hp y hy => ?_⟩,
      List.forall_mem_cons.2 ⟨fun y hpart => ?_, fun z hz y hpart => hstep (ih.2 z hz y hpart)⟩⟩
    · cases hy
      exact .inr List.mem_cons_self
    · exact hstep (ih.1 p (List.mem_append_right _ hp) y hy)
    · obtain ⟨node', hnode', b, hb, hy⟩ := hpart
      obtain rfl := Option.some.inj (hnode.symm.trans hnode')
      exact hstep (ih.1 _ (List.mem_append_left _ (node.part_mem_under n hb hy)) y rfl)

def itemsOf (f : Forest) (x : Nat) : List Item := (f.nodes[x]?).elim [] Node.items

/-- There is a line for each item on the stack and for all that belongs under a node that is laid
out. -/
theorem Writes.items_perm (h : Writes f st seen lines) :
    (lines.map (·.content.item)).Perm
      (st.map (·.item) ++ (headers lines).flatMap f.itemsOf) := by
  induction h with
  | nil => exact .refl _
  | alternative h ih => exact ih.cons _
  | leaf h ih => exact ih.cons _
  | again hseen h ih => exact ih.cons _
  | @first st seen lines n x node hnew hnode h ih =>
    rw [List.map_append, Node.map_item_under] at ih
    have hitems : f.itemsOf x = node.items := by rw [itemsOf, hnode, Option.elim_some]
    have hmove : (node.items ++ st.map (·.item) ++ (headers lines).flatMap f.itemsOf).Perm
        (st.map (·.item) ++ (f.itemsOf x ++ (headers lines).flatMap f.itemsOf)) := by
      rw [hitems, ← List.append_assoc]
      exact List.perm_append_comm.append_right _
    exact (ih.trans hmove).cons _

/-- Every node is laid out once, and abbreviated only behind the line that opens it, which its
alternatives follow. There is a line for each root and for all that belongs under a node. -/
structure Expanded (f : Forest) (lines : List Line) : Prop where
  headers : (headers lines).Perm (List.range f.nodes.size)
  again : ∀ before n x after, lines = before ++ ⟨n, .node x true⟩ :: after → x ∈ Forest.headers before
  items : (lines.map (·.content.item)).Perm
    (f.roots.map .node ++ f.nodes.toList.flatMap Node.items)
  nodeLines : lines.countP (·.content.item.isNode) =
    f.roots.length + 2 * (f.nodes.toList.map (·.branches.length)).sum
  leafLines : lines.countP (·.content.item.isLeaf) = (f.nodes.toList.map (·.leaves.length)).sum
  alternativeLines : lines.countP (·.content.item.isAlternative) = (f.nodes.toList.map fun node =>
    if node.several then node.leaves.length + node.branches.length else 0).sum
  layout : ∀ before n x rest, lines = before ++ ⟨n, .node x false⟩ :: rest →
    ∃ node body after, f.nodes[x]? = some node ∧ rest = body ++ after ∧ IsUnder n node body ∧
      ∀ l ∈ after.head?, l.indent ≤ n

theorem flatMap_itemsOf (f : Forest) :
    (List.range f.nodes.size).flatMap f.itemsOf = f.nodes.toList.flatMap Node.items := by
  rw [← flatMap_range Node.items f.nodes.toList, Array.length_toList]
  refine List.flatMap_congr fun x _ => ?_
  rw [itemsOf, Array.getElem?_toList]

theorem Live.perm_headers (h : f.Live) : (headers f.lines).Perm (List.range f.nodes.size) := by
  have hwrites := f.writes_lines
  refine (List.perm_ext_iff_of_nodup hwrites.headers_new.1 List.nodup_range).2 fun x => ?_
  rw [List.mem_range]
  constructor
  · intro hx
    obtain ⟨l, hl, hheader⟩ := List.mem_filterMap.1 hx
    obtain ⟨n, rfl⟩ := Line.header?_eq_some_iff.1 hheader
    obtain ⟨before, rest, hlines⟩ := List.append_of_mem hl
    rw [hlines] at hwrites
    obtain ⟨node, -, -, hnode, -⟩ := hwrites.layout (layered_roots f)
    exact (Array.getElem?_eq_some_iff.1 hnode).1
  · intro hx
    obtain ⟨r, hr, hchain⟩ := h.below_root x hx
    obtain ⟨hroots, hparts⟩ := hwrites.headers_closed
    clear hx
    induction hchain with
    | refl => simpa using hroots _ (List.mem_map_of_mem hr) r rfl
    | tail _ hpart ih => simpa using hparts _ ih _ hpart

theorem Live.perm_items (h : f.Live) : (f.lines.map (·.content.item)).Perm
    (f.roots.map .node ++ f.nodes.toList.flatMap Node.items) := by
  have hitems := f.writes_lines.items_perm
  rw [List.map_map] at hitems
  refine hitems.trans (List.Perm.append_left _ ?_)
  rw [← flatMap_itemsOf]
  exact h.perm_headers.flatMap_right f.itemsOf

theorem Live.countP_lines (h : f.Live) (p : Item → Bool) :
    f.lines.countP (fun l => p l.content.item) =
      (f.roots.map Item.node).countP p + (f.nodes.toList.map fun node => node.items.countP p).sum := by
  have hcount := h.perm_items.countP_eq p
  rw [List.countP_map, List.countP_append, List.countP_flatMap] at hcount
  exact hcount

theorem Live.expanded (h : f.Live) : Expanded f f.lines where
  headers := h.perm_headers
  again := by
    intro before n x after hlines
    have hwrites := f.writes_lines
    rw [hlines] at hwrites
    simpa using hwrites.again_after (layered_roots f)
  items := h.perm_items
  nodeLines := by
    rw [h.countP_lines Item.isNode]
    simp only [Node.countP_isNode_items, List.sum_map_mul_left]
    simp [List.countP_map, Function.comp_def, Item.isNode]
  leafLines := by
    rw [h.countP_lines Item.isLeaf]
    simp only [Node.countP_isLeaf_items]
    simp [List.countP_map, Function.comp_def, Item.isLeaf]
  alternativeLines := by
    rw [h.countP_lines Item.isAlternative]
    simp only [Node.countP_isAlternative_items]
    simp [List.countP_map, Function.comp_def, Item.isAlternative]
  layout := by
    intro before n x rest hlines
    have hwrites := f.writes_lines
    rw [hlines] at hwrites
    exact hwrites.layout (layered_roots f)

/-- There are as many steps as lines, and no more than the limit. -/
theorem Live.length_lines_le (h : f.Live) : f.lines.length ≤ Checked.writeLimit f := by
  have hlength := h.perm_items.length_eq
  rw [List.length_map, List.length_append, List.length_map, List.length_flatMap] at hlength
  rw [hlength, Checked.writeLimit, List.length_flatMap, List.length_flatMap, ← List.sum_map_add,
    ← List.sum_map_mul_left]
  exact Nat.add_le_add_left (List.sum_le_sum fun node _ => node.length_items_le) _

variable {g : Grammar} {aut : Automaton} {template : Option Chart}

theorem Live.printForest_ok (h : f.Live) (hlabels : ∀ node ∈ f.nodes.toList, node.label.Named g aut) :
    Checked.printForest f g aut = .ok (f.print g aut) := by
  have hst : ∀ p ∈ f.roots.map fun x => (⟨0, .node x⟩ : Waiting), ∀ x, p.item = .node x →
      x < f.nodes.size := by
    intro p hp x hx
    obtain ⟨r, hr, rfl⟩ := List.mem_map.1 hp
    cases hx
    exact f.root_lt x hr
  obtain ⟨spare, hlimit⟩ := Nat.exists_eq_add_of_le' h.length_lines_le
  rw [Checked.printForest, hlimit, ← Checked.marks_empty,
    Checked.write_ok f.writes_lines hlabels hst, String.empty_append]
  rfl

/-- Writing a forest that was found comes to an end, and the lines of its text lay out every node
once. -/
theorem printForest_lays_out_once (h : (forest g aut template).value = .ok (some f)) :
    Checked.printForest f g aut = .ok (f.print g aut) ∧ Expanded f f.lines :=
  ⟨(live_of_forest h).printForest_ok (named_of_forest h), (live_of_forest h).expanded⟩

/-- The brackets of four tokens, of which many share their parts. -/
theorem printForest_lays_out_once_line : ∃ f,
    (forest bracketing (line 4 [4] (by decide)) none).value = .ok (some f) ∧
    Checked.printForest f bracketing (line 4 [4] (by decide)) =
      .ok (f.print bracketing (line 4 [4] (by decide))) ∧
    Expanded f f.lines := by
  obtain ⟨f, hforest, -⟩ := exists_forest_line 4 [4] (by decide) (by decide) (by decide)
  exact ⟨f, hforest, printForest_lays_out_once hforest⟩

end Forest

end GrammarRepair
