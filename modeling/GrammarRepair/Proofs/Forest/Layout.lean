import GrammarRepair.Proofs.Forest.Writing
import Mathlib.Data.List.Forall2

/-!
Where the lines of a node stand. Nothing below a node on the stack is indented further than the node,
so its lines go on until one comes that is not deeper. Main statement: behind the line that opens a
node stand its leaves and then its branches, each part of a branch as a block of its own.
-/

namespace GrammarRepair

open Forest

namespace Node

theorem indent_of_mem_under {node : Node} {n : Nat} {p : Waiting} (hp : p ∈ node.under n) :
    n < p.indent ∧ p.indent ≤ node.childIndent n := by
  have hchild : n < node.childIndent n := by
    unfold childIndent
    split <;> omega
  rcases mem_under hp with rfl | ⟨t, -, rfl⟩ | ⟨b, -, rfl | rfl⟩
  · exact ⟨Nat.lt_succ_self n, hchild⟩
  · exact ⟨hchild, Nat.le_refl _⟩
  · exact ⟨hchild, Nat.le_refl _⟩
  · exact ⟨hchild, Nat.le_refl _⟩

theorem indent_eq_of_mem_under {node : Node} {n x : Nat} {p : Waiting} (hp : p ∈ node.under n)
    (hx : p.item = .node x) : p.indent = node.childIndent n := by
  rcases mem_under hp with rfl | ⟨t, -, rfl⟩ | ⟨b, -, rfl | rfl⟩
  · cases hx
  · cases hx
  · rfl
  · rfl

theorem part_mem_under {node : Node} (n : Nat) {b : Nat × Nat} (hb : b ∈ node.branches) {y : Nat}
    (hy : y = b.1 ∨ y = b.2) : ⟨node.childIndent n, .node y⟩ ∈ node.under n := by
  refine List.mem_append_right _ (List.mem_flatMap.2 ⟨b, hb, List.mem_append_right _ ?_⟩)
  rcases hy with rfl | rfl <;> simp

end Node

namespace Forest

variable {f : Forest} {st : Stack} {seen : NatSet} {lines : List Line} {node : Node} {x n m : Nat}

def Line.header? (l : Line) : Option Nat :=
  match l.content with
  | .node x false => some x
  | _ => none

theorem Line.header?_eq_some_iff {l : Line} {x : Nat} :
    l.header? = some x ↔ ∃ n, l = ⟨n, .node x false⟩ := by
  obtain ⟨n, content⟩ := l
  rcases content with ⟨y, _ | _⟩ | _ | t <;> simp [header?]

def headers (lines : List Line) : List Nat := lines.filterMap Line.header?

/-- Where a node stands on the stack, nothing below is indented further. -/
def Stack.Layered (st : Stack) : Prop :=
  st.Pairwise fun p q => ∀ x, p.item = .node x → q.indent ≤ p.indent

theorem Stack.Layered.under (h : Stack.Layered (⟨n, .node x⟩ :: st)) (node : Node) :
    Stack.Layered (node.under n ++ st) := by
  obtain ⟨hbelow, hst⟩ := List.pairwise_cons.1 h
  refine List.pairwise_append.2 ⟨List.pairwise_iff_forall_sublist.2 fun hsub y hy => ?_, hst,
    fun p hp q hq y hy => ?_⟩
  · rw [Node.indent_eq_of_mem_under (hsub.subset List.mem_cons_self) hy]
    exact (Node.indent_of_mem_under (hsub.subset (List.mem_cons_of_mem _ List.mem_cons_self))).2
  · exact Nat.le_trans (hbelow q hq x rfl) (Nat.le_of_lt (Node.indent_of_mem_under hp).1)

/-- After some lines have been written, a stack is left that writes the others. -/
theorem Writes.left_over {before rest : List Line} (h : Writes f st seen (before ++ rest))
    (hst : st.Layered) : ∃ (st' : Stack) (seen' : NatSet), Writes f st' seen' rest ∧ st'.Layered ∧
      ∀ x, seen'.has x = true ↔ seen.has x = true ∨ x ∈ headers before := by
  induction before generalizing st seen with
  | nil => exact ⟨st, seen, h, hst, fun x => by simp [headers]⟩
  | cons l before ih =>
    rw [List.cons_append] at h
    cases h with
    | alternative h => exact ih h hst.of_cons
    | leaf h => exact ih h hst.of_cons
    | again hseen h => exact ih h hst.of_cons
    | @first _ _ _ n y node hnew hnode h =>
      obtain ⟨st', seen', hrest, hst', hseen'⟩ := ih h (hst.under node)
      refine ⟨st', seen', hrest, hst', fun x => ?_⟩
      have hheaders : headers (⟨n, .node y false⟩ :: before) = y :: headers before := rfl
      rw [hseen', NatSet.has_insert, Bool.or_eq_true, decide_eq_true_eq, hheaders, List.mem_cons,
        or_assoc, eq_comm (a := y)]

/-- A node is abbreviated only where it has been laid out before. -/
theorem Writes.again_after {before after : List Line}
    (h : Writes f st seen (before ++ ⟨n, .node x true⟩ :: after)) (hst : st.Layered) :
    seen.has x = true ∨ x ∈ headers before := by
  obtain ⟨st', seen', hrest, -, hseen'⟩ := h.left_over hst
  cases hrest with
  | again hseen => exact (hseen' x).1 hseen

theorem layered_roots (f : Forest) : Stack.Layered (f.roots.map fun x => ⟨0, .node x⟩) := by
  refine List.pairwise_map.2 (List.pairwise_of_forall fun x y z hz => ?_)
  exact Nat.le_refl 0

/-- A line for a node and deeper ones, of which there are none if the node is only named. -/
def IsBlock (n x : Nat) (lines : List Line) : Prop :=
  ∃ again deeper, lines = ⟨n, .node x again⟩ :: deeper ∧ (∀ l ∈ deeper, n < l.indent) ∧
    (again = true → deeper = [])

def branchLines (node : Node) (n : Nat) (parts : List Line × List Line) : List Line :=
  altMark node.several n ++ (parts.1 ++ parts.2)

/-- All alternatives of a node: its leaves in order and then its branches in order, each with the
block of its left part before that of its right part. -/
def IsUnder (n : Nat) (node : Node) (lines : List Line) : Prop :=
  ∃ parts : List (List Line × List Line),
    List.Forall₂ (fun b p => IsBlock (node.childIndent n) b.1 p.1 ∧
      IsBlock (node.childIndent n) b.2 p.2) node.branches parts ∧
    lines = leafLines node n ++ parts.flatMap (branchLines node n)

theorem Writes.split {st' : Stack} (h : Writes f (st ++ st') seen lines) :
    ∃ (lines₁ lines₂ : List Line) (seen' : NatSet), lines = lines₁ ++ lines₂ ∧
      Writes f st seen lines₁ ∧ Writes f st' seen' lines₂ := by
  generalize hall : st ++ st' = all at h
  induction h generalizing st with
  | @nil seen =>
    obtain ⟨rfl, rfl⟩ := List.append_eq_nil_iff.1 hall
    exact ⟨[], [], seen, rfl, .nil, .nil⟩
  | alternative h ih =>
    rcases List.append_eq_cons_iff.1 hall with ⟨rfl, rfl⟩ | ⟨st, rfl, hrest⟩
    · exact ⟨[], _, _, rfl, .nil, .alternative h⟩
    · obtain ⟨lines₁, lines₂, seen', rfl, h₁, h₂⟩ := ih hrest.symm
      exact ⟨_ :: lines₁, lines₂, seen', rfl, .alternative h₁, h₂⟩
  | leaf h ih =>
    rcases List.append_eq_cons_iff.1 hall with ⟨rfl, rfl⟩ | ⟨st, rfl, hrest⟩
    · exact ⟨[], _, _, rfl, .nil, .leaf h⟩
    · obtain ⟨lines₁, lines₂, seen', rfl, h₁, h₂⟩ := ih hrest.symm
      exact ⟨_ :: lines₁, lines₂, seen', rfl, .leaf h₁, h₂⟩
  | again hseen h ih =>
    rcases List.append_eq_cons_iff.1 hall with ⟨rfl, rfl⟩ | ⟨st, rfl, hrest⟩
    · exact ⟨[], _, _, rfl, .nil, .again hseen h⟩
    · obtain ⟨lines₁, lines₂, seen', rfl, h₁, h₂⟩ := ih hrest.symm
      exact ⟨_ :: lines₁, lines₂, seen', rfl, .again hseen h₁, h₂⟩
  | first hnew hnode h ih =>
    rcases List.append_eq_cons_iff.1 hall with ⟨rfl, rfl⟩ | ⟨st, rfl, rfl⟩
    · exact ⟨[], _, _, rfl, .nil, .first hnew hnode h⟩
    · obtain ⟨lines₁, lines₂, seen', rfl, h₁, h₂⟩ := ih (List.append_assoc _ _ _)
      exact ⟨_ :: lines₁, lines₂, seen', rfl, .first hnew hnode h₁, h₂⟩

/-- No line is indented less than the items on the stack. -/
theorem Writes.le_indent (h : Writes f st seen lines) (hst : ∀ p ∈ st, m ≤ p.indent) :
    ∀ l ∈ lines, m ≤ l.indent := by
  induction h with
  | nil => exact fun l hl => by cases hl
  | alternative h ih =>
    obtain ⟨hfirst, hst⟩ := List.forall_mem_cons.1 hst
    exact List.forall_mem_cons.2 ⟨hfirst, ih hst⟩
  | leaf h ih =>
    obtain ⟨hfirst, hst⟩ := List.forall_mem_cons.1 hst
    exact List.forall_mem_cons.2 ⟨hfirst, ih hst⟩
  | again hseen h ih =>
    obtain ⟨hfirst, hst⟩ := List.forall_mem_cons.1 hst
    exact List.forall_mem_cons.2 ⟨hfirst, ih hst⟩
  | @first _ _ _ n x node hnew hnode h ih =>
    obtain ⟨hfirst, hst⟩ := List.forall_mem_cons.1 hst
    refine List.forall_mem_cons.2 ⟨hfirst, ih fun p hp => ?_⟩
    rcases List.mem_append.1 hp with hp | hp
    · exact Nat.le_trans hfirst (Nat.le_of_lt (Node.indent_of_mem_under hp).1)
    · exact hst p hp

/-- The first line is indented like the item on top of the stack. -/
theorem Writes.head_le (h : Writes f st seen lines) (hst : ∀ p ∈ st, p.indent ≤ n) :
    ∀ l ∈ lines.head?, l.indent ≤ n := by
  intro l hl
  cases h with
  | nil => cases hl
  | alternative =>
    cases hl
    exact hst _ List.mem_cons_self
  | leaf =>
    cases hl
    exact hst _ List.mem_cons_self
  | again =>
    cases hl
    exact hst _ List.mem_cons_self
  | first =>
    cases hl
    exact hst _ List.mem_cons_self

theorem Writes.block (h : Writes f (⟨n, .node x⟩ :: st) seen lines) :
    ∃ (block rest : List Line) (seen' : NatSet), lines = block ++ rest ∧ IsBlock n x block ∧
      Writes f st seen' rest := by
  have htop : Writes f ([⟨n, .node x⟩] ++ st) seen lines := h
  obtain ⟨block, rest, seen', rfl, hblock, hrest⟩ := htop.split
  refine ⟨block, rest, seen', rfl, ?_, hrest⟩
  cases hblock with
  | again hseen hnil =>
    cases hnil
    exact ⟨true, [], rfl, fun l hl => (by cases hl), fun _ => rfl⟩
  | first hnew hnode hdeeper =>
    rw [List.append_nil] at hdeeper
    refine ⟨false, _, rfl, hdeeper.le_indent fun p hp => (Node.indent_of_mem_under hp).1, ?_⟩
    exact fun hfalse => by cases hfalse

theorem Writes.mark (h : Writes f (node.mark n ++ st) seen lines) :
    ∃ rest, lines = altMark node.several n ++ rest ∧ Writes f st seen rest := by
  unfold Node.mark at h
  unfold altMark
  split at h
  · cases h with
    | alternative h => exact ⟨_, by simp_all, h⟩
  · exact ⟨lines, by simp_all, h⟩

theorem Writes.leaves {ts : List Nat} (h : Writes f ((ts.flatMap fun t =>
      node.mark n ++ [⟨node.childIndent n, .leaf t⟩]) ++ st) seen lines) :
    ∃ rest, lines = (ts.flatMap fun t =>
      altMark node.several n ++ [⟨node.childIndent n, .leaf t⟩]) ++ rest ∧ Writes f st seen rest := by
  induction ts generalizing lines with
  | nil => exact ⟨lines, rfl, h⟩
  | cons t ts ih =>
    rw [List.flatMap_cons, List.append_assoc, List.append_assoc] at h
    obtain ⟨rest, rfl, hleaf⟩ := h.mark
    cases hleaf with
    | leaf hleaf =>
      obtain ⟨rest, rfl, hrest⟩ := ih hleaf
      exact ⟨rest, by simp, hrest⟩

theorem Writes.branches {bs : List (Nat × Nat)} (h : Writes f ((bs.flatMap fun b => node.mark n ++
      [⟨node.childIndent n, .node b.1⟩, ⟨node.childIndent n, .node b.2⟩]) ++ st) seen lines) :
    ∃ (parts : List (List Line × List Line)) (rest : List Line) (seen' : NatSet),
      lines = parts.flatMap (branchLines node n) ++ rest ∧
      List.Forall₂ (fun b p => IsBlock (node.childIndent n) b.1 p.1 ∧
        IsBlock (node.childIndent n) b.2 p.2) bs parts ∧ Writes f st seen' rest := by
  induction bs generalizing seen lines with
  | nil => exact ⟨[], lines, seen, rfl, .nil, h⟩
  | cons b bs ih =>
    rw [List.flatMap_cons, List.append_assoc, List.append_assoc] at h
    obtain ⟨_, rfl, hparts⟩ := h.mark
    obtain ⟨left, _, _, rfl, hleft, hlater⟩ := hparts.block
    obtain ⟨right, _, _, rfl, hright, hlater⟩ := hlater.block
    obtain ⟨parts, rest, seen', rfl, hparts, hrest⟩ := ih hlater
    refine ⟨(left, right) :: parts, rest, seen', ?_, .cons ⟨hleft, hright⟩ hparts, hrest⟩
    simp [branchLines]

theorem Writes.under (h : Writes f (node.under n ++ st) seen lines) :
    ∃ (body rest : List Line) (seen' : NatSet), lines = body ++ rest ∧ IsUnder n node body ∧
      Writes f st seen' rest := by
  rw [Node.under, List.append_assoc] at h
  obtain ⟨_, rfl, hbranches⟩ := h.leaves
  obtain ⟨parts, rest, seen', rfl, hparts, hrest⟩ := hbranches.branches
  exact ⟨_, rest, seen', (List.append_assoc _ _ _).symm, ⟨parts, hparts, rfl⟩, hrest⟩

/-- Behind the line that opens a node stand its alternatives, up to a line that is not deeper. -/
theorem Writes.layout {before rest : List Line}
    (h : Writes f st seen (before ++ ⟨n, .node x false⟩ :: rest)) (hst : st.Layered) :
    ∃ node body after, f.nodes[x]? = some node ∧ rest = body ++ after ∧ IsUnder n node body ∧
      ∀ l ∈ after.head?, l.indent ≤ n := by
  obtain ⟨st', seen', hleft, hlayered, -⟩ := h.left_over hst
  cases hleft with
  | @first _ _ _ _ _ node hnew hnode hleft =>
    obtain ⟨body, after, _, rfl, hbody, hafter⟩ := hleft.under
    refine ⟨node, body, after, hnode, rfl, hbody, hafter.head_le fun q hq => ?_⟩
    exact (List.pairwise_cons.1 hlayered).1 q hq x rfl

end Forest

end GrammarRepair
