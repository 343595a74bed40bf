import GrammarRepair.Intersection.Basic

/-!
What the productions between numbered nonterminals mean.
-/

namespace GrammarRepair

namespace Marking

/-- `Derives pairs terminals x w`: nonterminal `x` derives the string `w`. -/
inductive Derives (pairs : Array Pair) (terminals : Array (Nat × Nat)) : Nat → List Nat → Prop
  | terminal {x t : Nat} (h : (x, t) ∈ terminals) : Derives pairs terminals x [t]
  | pair {x y z : Nat} {v w : List Nat} (h : (x, y, z) ∈ pairs)
      (hv : Derives pairs terminals y v) (hw : Derives pairs terminals z w) :
      Derives pairs terminals x (v ++ w)

end Marking

namespace Intersection

def Derives (ig : Intersection) (x : Nat) (w : List Nat) : Prop :=
  Marking.Derives ig.pairs ig.terminals x w

/-- The sentences of an intersection are what its start alternatives derive. -/
def IsSentence (ig : Intersection) (w : List Nat) : Prop := ∃ x ∈ ig.starts, ig.Derives x w

end Intersection

end GrammarRepair
