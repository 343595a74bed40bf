import GrammarRepair.Forest.Basic

/-!
The derivation trees of a forest, written out. Their number is what the forest counts without
writing them out.
-/

namespace GrammarRepair

/-- A derivation: a single token, or the derivations of two parts. -/
inductive Tree
  | leaf (token : Nat)
  | branch (left right : Tree)
  deriving DecidableEq, Repr

namespace Tree

def tokens : Tree → List Nat
  | leaf token => [token]
  | branch left right => left.tokens ++ right.tokens

end Tree

namespace Forest

/-- All derivations of a node: its leaves, then for each branch all pairs of derivations of its
parts, the left part varying slowest. -/
def treesOf (f : Forest) (x : Nat) : List Tree :=
  match hn : f.nodes[x]? with
  | none => []
  | some node =>
    node.leaves.map .leaf ++ node.branches.attach.flatMap fun b =>
      have := f.child_lt x node hn b.1 b.2
      (f.treesOf b.1.1).flatMap fun left => (f.treesOf b.1.2).map (.branch left)
termination_by x
decreasing_by
  · exact this.2
  · exact this.1

def trees (f : Forest) : List Tree := f.roots.flatMap f.treesOf

end Forest

end GrammarRepair
