import GrammarRepair.MapState
import GrammarRepair.NormalForm.FreshName
import GrammarRepair.NormalForm.Table

/-!
The second pass to normal form: a production of more than two symbols becomes a chain of rules that
each take one symbol off the front, `A: X A~1`, `A~1: Y A~2`, …, down to a pair.
-/

namespace GrammarRepair

namespace NormalForm

/-- How many links the current rule has been given, and all names that are taken. -/
structure Linking where
  links : Nat
  taken : List String
  deriving Repr

namespace Linking

def mint (owner : String) (s : Linking) : String × Linking :=
  let name := freshName s.taken (owner ++ "~" ++ toString (s.links + 1))
  (name, ⟨s.links + 1, name :: s.taken⟩)

/-- The body that is left of a production of `owner`, and the rules of its links in order. -/
def chainBody (owner : String) : List Sym → Linking → (List Sym × Table) × Linking
  | x :: y :: z :: more, s =>
    let (name, s) := s.mint owner
    let ((rest, links), s) := chainBody owner (y :: z :: more) s
    (([x, .rule name], ⟨name, [rest]⟩ :: links), s)
  | body, s => ((body, []), s)

/-- Links are counted anew for every rule. -/
def chainRow (row : Row) (taken : List String) : (Row × Table) × List String :=
  let (chained, s) := mapState (chainBody row.name) row.bodies ⟨0, taken⟩
  ((⟨row.name, chained.map (·.1)⟩, chained.flatMap (·.2)), s.taken)

end Linking

/-- Splits all longer productions; the links follow the old rules. -/
def splitLong (t : Table) : Table :=
  let (chained, _) := mapState Linking.chainRow t t.names
  chained.map (·.1) ++ chained.flatMap (·.2)

end NormalForm

end GrammarRepair
