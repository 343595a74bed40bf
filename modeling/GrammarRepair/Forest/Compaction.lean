import GrammarRepair.Checked
import GrammarRepair.Forest.Basic

/-!
Forests from nodes in any order. What the roots lead to is marked and sorted by the distance of its
states, and then it gets new numbers and is counted. Every look-up is checked, and so is every
distance.
-/

namespace GrammarRepair

/-- What a forest consists of, whether or not it is in order. -/
structure RawForest where
  nodes : Array Node
  roots : List Nat
  counts : Array Nat
  deriving DecidableEq, Repr

def Forest.raw (f : Forest) : RawForest := ⟨f.nodes, f.roots, f.counts⟩

namespace Compaction

/-- Puts the parts of a node in line, so that the last is taken first. -/
def lineUp (node : Node) (todo : List Nat) : List Nat :=
  node.branches.foldl (fun todo b => b.2 :: b.1 :: todo) todo

/-- Marks what the nodes in line lead to. A node may be in line more than once. -/
def mark (nodes : Array Node) : (steps : Nat) → (todo : List Nat) → (seen : Array Bool) →
    Checked (Array Bool)
  | 0, todo, seen => if todo.isEmpty then pure seen else .error .unfinished
  | _ + 1, [], seen => pure seen
  | steps + 1, x :: todo, seen => do
    if ← Checked.entry seen x then mark nodes steps todo seen
    else
      let node ← Checked.entry nodes x
      mark nodes steps (lineUp node todo) (← Checked.put seen x true)

/-- Every node is to put its parts in line once. -/
def markLimit (nodes : Array Node) (roots : List Nat) : Nat :=
  roots.length + 2 * (nodes.toList.flatMap (·.branches)).length

def distance (nodes : Array Node) (x : Nat) : Checked Nat := do
  let node ← Checked.entry nodes x
  Checked.minus node.label.target node.label.source

/-- The marked nodes by growing distance, those over one distance in their old order. -/
def byDistance (nodes : Array Node) (seen : Array Bool) : Checked (List Nat) := do
  let marks ← (List.range nodes.size).mapM fun x => do pure (x, ← Checked.entry seen x)
  let keyed ← ((marks.filter (·.2)).map (·.1)).mapM fun x => do pure (← distance nodes x, x)
  pure ((keyed.mergeSort fun a b => a.1 ≤ b.1).map (·.2))

def newNumbers (size : Nat) (order : List Nat) : Checked (Array Nat) :=
  order.zipIdx.foldlM (fun map p => Checked.put map p.1 p.2) (Array.replicate size 0)

/-- The nodes that have not been taken, and those that have, with their numbers of derivations. -/
structure Packing where
  left : Array (Option Node)
  nodes : Array Node
  counts : Array Nat
  deriving DecidableEq, Repr

def addBranch (counts : Array Nat) (n : Nat) (b : Nat × Nat) : Checked Nat := do
  pure (Saturating.add n
    (Saturating.mul (← Checked.entry counts b.1) (← Checked.entry counts b.2)))

/-- Takes a node, with new numbers for its parts, and counts its derivations. -/
def pack (map : Array Nat) (s : Packing) (x : Nat) : Checked Packing := do
  match ← Checked.entry s.left x with
  | none => pure s
  | some node => do
    let left ← Checked.put s.left x none
    let branches ← node.branches.mapM fun b => do
      pure (← Checked.entry map b.1, ← Checked.entry map b.2)
    let count ← branches.foldlM (addBranch s.counts) node.leaves.length
    pure ⟨left, s.nodes.push { node with branches }, s.counts.push count⟩

def compact (nodes : Array Node) (roots : List Nat) : Checked RawForest := do
  let seen ← mark nodes (markLimit nodes roots) roots.reverse (Array.replicate nodes.size false)
  let order ← byDistance nodes seen
  let map ← newNumbers nodes.size order
  let s ← order.foldlM (pack map) ⟨nodes.map some, #[], #[]⟩
  let roots ← roots.mapM (Checked.entry map)
  pure ⟨s.nodes, sortedDistinct (· ≤ ·) roots, s.counts⟩

end Compaction

end GrammarRepair
