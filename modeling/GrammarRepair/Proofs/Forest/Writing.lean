import GrammarRepair.Forest.Stack
import GrammarRepair.Proofs.Checked
import GrammarRepair.Proofs.Forest.Live

/-!
What the stack writes. Taking one item after the other off the stack writes one line after the other;
the relation between a stack and all its lines has a case for each kind of item. Main statements: the
lines of a forest are those of the stack of its roots, and the stack is empty in the end, with no look
out of bounds on the way.
-/

namespace GrammarRepair

namespace Node

def mark (node : Node) (indent : Nat) : List Forest.Waiting :=
  if node.several then [⟨indent + 1, .alternative⟩] else []

def under (node : Node) (indent : Nat) : Forest.Stack :=
  (node.leaves.flatMap fun t => node.mark indent ++ [⟨node.childIndent indent, .leaf t⟩]) ++
    node.branches.flatMap fun b => node.mark indent ++
      [⟨node.childIndent indent, .node b.1⟩, ⟨node.childIndent indent, .node b.2⟩]

theorem mem_mark {node : Node} {n : Nat} {p : Forest.Waiting} (hp : p ∈ node.mark n) :
    p = ⟨n + 1, .alternative⟩ := by
  unfold mark at hp
  split at hp
  · exact List.mem_singleton.1 hp
  · cases hp

theorem mem_under {node : Node} {n : Nat} {p : Forest.Waiting} (hp : p ∈ node.under n) :
    p = ⟨n + 1, .alternative⟩ ∨ (∃ t ∈ node.leaves, p = ⟨node.childIndent n, .leaf t⟩) ∨
      ∃ b ∈ node.branches,
        p = ⟨node.childIndent n, .node b.1⟩ ∨ p = ⟨node.childIndent n, .node b.2⟩ := by
  rw [under, List.mem_append, List.mem_flatMap, List.mem_flatMap] at hp
  rcases hp with ⟨t, ht, hp⟩ | ⟨b, hb, hp⟩
  · rcases List.mem_append.1 hp with hp | hp
    · exact .inl (mem_mark hp)
    · exact .inr (.inl ⟨t, ht, List.mem_singleton.1 hp⟩)
  · rcases List.mem_append.1 hp with hp | hp
    · exact .inl (mem_mark hp)
    · exact .inr (.inr ⟨b, hb, by simpa using hp⟩)

end Node

namespace Forest

variable {f : Forest} {st : Stack} {seen : NatSet} {lines : List Line} {node : Node} {x n : Nat}

namespace Stack

theorem pushMark_eq (node : Node) (n : Nat) (st : Stack) :
    pushMark node.several n st = node.mark n ++ st := by
  unfold pushMark Node.mark
  split <;> rfl

theorem foldl_reverse_push {α : Type} (items : α → Stack) (xs : List α) (st : Stack) :
    xs.reverse.foldl (fun st x => items x ++ st) st = xs.flatMap items ++ st := by
  rw [List.foldl_reverse]
  induction xs with
  | nil => rfl
  | cons x xs ih => rw [List.foldr_cons, ih, List.flatMap_cons, List.append_assoc]

theorem pushNode_eq (n : Nat) (node : Node) (st : Stack) :
    pushNode n node st = node.under n ++ st := by
  have hbranches := foldl_reverse_push
    (fun b => node.mark n ++ [⟨node.childIndent n, .node b.1⟩, ⟨node.childIndent n, .node b.2⟩])
    node.branches st
  have hleaves := foldl_reverse_push (fun t => node.mark n ++ [⟨node.childIndent n, .leaf t⟩])
    node.leaves
  simp only [List.append_assoc, List.cons_append, List.nil_append] at hbranches hleaves
  simp only [pushNode, pushMark_eq, hbranches, hleaves, Node.under, List.append_assoc]

end Stack

/-- `f.Writes st seen lines`: where the nodes `seen` were laid out before, the items on the stack are
written as `lines`, the one on top first. -/
inductive Writes (f : Forest) : Stack → NatSet → List Line → Prop
  | nil {seen : NatSet} : Writes f [] seen []
  | alternative {st : Stack} {seen : NatSet} {lines : List Line} {n : Nat}
      (h : Writes f st seen lines) :
      Writes f (⟨n, .alternative⟩ :: st) seen (⟨n, .alternative⟩ :: lines)
  | leaf {st : Stack} {seen : NatSet} {lines : List Line} {n t : Nat} (h : Writes f st seen lines) :
      Writes f (⟨n, .leaf t⟩ :: st) seen (⟨n, .leaf t⟩ :: lines)
  | again {st : Stack} {seen : NatSet} {lines : List Line} {n x : Nat} (hseen : seen.has x = true)
      (h : Writes f st seen lines) :
      Writes f (⟨n, .node x⟩ :: st) seen (⟨n, .node x true⟩ :: lines)
  | first {st : Stack} {seen : NatSet} {lines : List Line} {n x : Nat} {node : Node}
      (hnew : seen.has x = false) (hnode : f.nodes[x]? = some node)
      (h : Writes f (node.under n ++ st) (seen.insert x) lines) :
      Writes f (⟨n, .node x⟩ :: st) seen (⟨n, .node x false⟩ :: lines)

theorem lt_size_of_mem_under (hnode : f.nodes[x]? = some node) {p : Waiting}
    (hp : p ∈ node.under n) {y : Nat} (hy : p.item = .node y) : y < f.nodes.size := by
  have hx := (Array.getElem?_eq_some_iff.1 hnode).1
  rcases Node.mem_under hp with rfl | ⟨t, -, rfl⟩ | ⟨b, hb, rfl | rfl⟩
  · cases hy
  · cases hy
  · cases hy
    exact Nat.lt_trans (f.child_lt x node hnode b hb).1 hx
  · cases hy
    exact Nat.lt_trans (f.child_lt x node hnode b hb).2 hx

def layBranch (f : Forest) (node : Node) (n : Nat) (b : Nat × Nat) (seen : NatSet) :
    List Line × NatSet :=
  let (left, seen) := f.lay b.1 (node.childIndent n) seen
  let (right, seen) := f.lay b.2 (node.childIndent n) seen
  (altMark node.several n ++ left ++ right, seen)

theorem lay_again (hseen : seen.has x = true) : f.lay x n seen = ([⟨n, .node x true⟩], seen) := by
  rw [lay, if_pos hseen]

theorem layAll_map {α β : Type} (lay : β → NatSet → List Line × NatSet) (h : α → β) (xs : List α)
    (seen : NatSet) : layAll lay (xs.map h) seen = layAll (fun x => lay (h x)) xs seen := by
  induction xs generalizing seen with
  | nil => rfl
  | cons x xs ih => simp only [List.map_cons, layAll, ih]

def leafLines (node : Node) (n : Nat) : List Line :=
  node.leaves.flatMap fun t => altMark node.several n ++ [⟨node.childIndent n, .leaf t⟩]

theorem lay_first (hnew : seen.has x = false) (hnode : f.nodes[x]? = some node) :
    f.lay x n seen =
      (⟨n, .node x false⟩ :: leafLines node n ++
        (layAll (f.layBranch node n) node.branches (seen.insert x)).1,
        (layAll (f.layBranch node n) node.branches (seen.insert x)).2) := by
  rw [lay, if_neg (by simp [hnew])]
  split
  · next hnone => cases hnode.symm.trans hnone
  · next node' hsome =>
    obtain rfl := Option.some.inj (hnode.symm.trans hsome)
    have hattach := layAll_map (f.layBranch node n) Subtype.val node.branches.attach (seen.insert x)
    rw [List.attach_map_subtype_val] at hattach
    rw [hattach]
    rfl

theorem writes_mark (node : Node) (n : Nat) (h : Writes f st seen lines) :
    Writes f (node.mark n ++ st) seen (altMark node.several n ++ lines) := by
  unfold Node.mark altMark
  split
  · exact .alternative h
  · exact h

theorem writes_leaves (node : Node) (n : Nat) (h : Writes f st seen lines) :
    Writes f ((node.leaves.flatMap fun t =>
      node.mark n ++ [⟨node.childIndent n, .leaf t⟩]) ++ st) seen (leafLines node n ++ lines) := by
  unfold leafLines
  induction node.leaves with
  | nil => exact h
  | cons t ts ih =>
    simp only [List.flatMap_cons, List.append_assoc]
    exact writes_mark node n (.leaf ih)

theorem writes_layAll {α : Type} {lay : α → NatSet → List Line × NatSet} {items : α → Stack}
    {xs : List α}
    (hstep : ∀ a ∈ xs, ∀ seen st lines, Writes f st (lay a seen).2 lines →
      Writes f (items a ++ st) seen ((lay a seen).1 ++ lines))
    (h : Writes f st (layAll lay xs seen).2 lines) :
    Writes f (xs.flatMap items ++ st) seen ((layAll lay xs seen).1 ++ lines) := by
  induction xs generalizing seen with
  | nil => exact h
  | cons a xs ih =>
    have hrest := ih (fun b hb => hstep b (List.mem_cons_of_mem _ hb)) h
    rw [List.flatMap_cons, List.append_assoc, layAll]
    simp only [List.append_assoc]
    exact hstep a List.mem_cons_self _ _ _ hrest

/-- A node on the stack writes the lines that are laid out for it. -/
theorem writes_lay (hx : x < f.nodes.size) (h : Writes f st (f.lay x n seen).2 lines) :
    Writes f (⟨n, .node x⟩ :: st) seen ((f.lay x n seen).1 ++ lines) := by
  induction x using Nat.strongRecOn generalizing n seen st lines with
  | ind x ih =>
    cases hseen : seen.has x with
    | true =>
      rw [lay_again hseen] at h ⊢
      exact .again hseen h
    | false =>
      have hnode := Array.getElem?_eq_getElem hx
      rw [lay_first hseen hnode] at h ⊢
      simp only [List.cons_append, List.append_assoc]
      refine .first hseen hnode ?_
      rw [Node.under, List.append_assoc]
      refine writes_leaves _ n (writes_layAll (fun b hb seen st lines h => ?_) h)
      obtain ⟨hleft, hright⟩ := f.child_lt x _ hnode b hb
      simp only [layBranch, List.append_assoc] at h ⊢
      refine writes_mark _ n ?_
      exact ih b.1 hleft (Nat.lt_trans hleft hx) (ih b.2 hright (Nat.lt_trans hright hx) h)

theorem writes_lines (f : Forest) : Writes f (f.roots.map fun x => ⟨0, .node x⟩) .empty f.lines := by
  have hroots : Writes f (f.roots.flatMap (fun x => [⟨0, .node x⟩]) ++ []) .empty
      ((layAll (fun x => f.lay x 0) f.roots .empty).1 ++ []) :=
    writes_layAll (fun x hx seen st lines h => writes_lay (f.root_lt x hx) h) .nil
  rwa [List.append_nil, List.append_nil, ← List.map_eq_flatMap] at hroots

end Forest

namespace Checked

open Forest

variable {f : Forest} {g : Grammar} {aut : Automaton} {st : Stack} {seen : NatSet}
  {lines : List Line} {x n : Nat}

theorem labelText_ok {t : Constituent} (h : t.Named g aut) :
    labelText g aut t = .ok (Forest.labelText g aut t) := by
  have hstate {p : Nat} (hp : p < aut.stateCount) : entry aut.labels p = .ok (aut.label p) := by
    refine entry_ok ?_
    rw [Automaton.label, Array.getD_eq_getD_getElem?, Array.getElem?_eq_getElem hp, Option.getD_some]
  have hrule : entry g.ruleNames t.rule = .ok (g.ruleName t.rule) := by
    refine entry_ok ?_
    rw [Grammar.ruleName, Array.getD_eq_getD_getElem?, Array.getElem?_eq_getElem h.rule_lt,
      Option.getD_some]
  rw [labelText, hstate h.source_lt, hrule, hstate h.target_lt]
  rfl

def marks (size : Nat) (seen : NatSet) : Array Bool := Array.ofFn (n := size) fun i => seen.has i

theorem getElem?_marks {size : Nat} (hx : x < size) : (marks size seen)[x]? = some (seen.has x) := by
  rw [marks, Array.getElem?_ofFn, dif_pos hx]

theorem setIfInBounds_marks (size : Nat) :
    (marks size seen).setIfInBounds x true = marks size (seen.insert x) := by
  refine Array.ext_getElem? fun i => ?_
  by_cases hi : i < size
  · by_cases hx : x = i
    · simp [marks, hi, hx]
    · simp [marks, hi, hx]
  · simp [marks, hi]

theorem marks_empty (size : Nat) : marks size .empty = Array.replicate size false := by
  refine Array.ext (by simp [marks]) fun i hi hi' => ?_
  simp [marks]

theorem addLine_lines (text : String) (l : Line) (lines : List Line) :
    addLine text l.indent (f.contentText g aut l.content) ++ String.join (lines.map (f.lineText g aut)) =
      text ++ String.join ((l :: lines).map (f.lineText g aut)) := by
  rw [List.map_cons, String.join_cons, ← String.append_assoc]
  rfl

/-- The stack writes what it stands for: it gets empty, and whatever is looked up is there. -/
theorem write_ok (h : Writes f st seen lines)
    (hlabels : ∀ node ∈ f.nodes.toList, node.label.Named g aut)
    (hst : ∀ p ∈ st, ∀ x, p.item = .node x → x < f.nodes.size) (spare : Nat) (text : String) :
    write f g aut (spare + lines.length) st (marks f.nodes.size seen) text =
      .ok (text ++ String.join (lines.map (f.lineText g aut))) := by
  induction h generalizing text with
  | nil => cases spare <;> simp [write]
  | @alternative st seen lines n h ih =>
    have hrest := ih (List.forall_mem_cons.1 hst).2
    rw [List.length_cons, ← Nat.add_assoc, write, hrest, ← addLine_lines]
    rfl
  | @leaf st seen lines n t h ih =>
    have hrest := ih (List.forall_mem_cons.1 hst).2
    rw [List.length_cons, ← Nat.add_assoc, write, hrest, ← addLine_lines]
    rfl
  | @again st seen lines n x hseen h ih =>
    have hx := hst _ List.mem_cons_self x rfl
    have hnode := Array.getElem?_eq_getElem hx
    have hrest := ih (List.forall_mem_cons.1 hst).2
    rw [List.length_cons, ← Nat.add_assoc, write, entry_ok (getElem?_marks hx), ok_bind,
      entry_ok hnode, ok_bind, labelText_ok (hlabels _ (Array.getElem_mem_toList hx)), ok_bind,
      hseen, if_pos rfl, hrest, ← addLine_lines]
    simp [contentText, hnode]
  | @first st seen lines n x node hnew hnode h ih =>
    have hx := hst _ List.mem_cons_self x rfl
    have hlabel := hlabels node (by simpa using Array.mem_of_getElem? hnode)
    have hrest := ih fun p hp y hy => (List.mem_append.1 hp).elim
      (fun hp => lt_size_of_mem_under hnode hp hy)
      (fun hp => hst p (List.mem_cons_of_mem _ hp) y hy)
    rw [List.length_cons, ← Nat.add_assoc, write, entry_ok (getElem?_marks hx), ok_bind,
      entry_ok hnode, ok_bind, labelText_ok hlabel, ok_bind, hnew, if_neg Bool.false_ne_true,
      Stack.pushNode_eq, setIfInBounds_marks, hrest, ← addLine_lines]
    simp [contentText, hnode]

end Checked

end GrammarRepair
