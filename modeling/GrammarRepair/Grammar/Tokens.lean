import GrammarRepair.Grammar.Basic

/-!
Numbers for the tokens of an input. Names that are no tokens of the grammar get the numbers after
those of the grammar's tokens, in order of first appearance.
-/

namespace GrammarRepair

namespace Grammar

/-- The number of one name, and the foreign names met up to and including it. -/
def numberName (g : Grammar) (w : Width) (foreign : List String) (name : String) :
    Except Fault (Nat × List String) :=
  match g.tokenIndex? name with
  | some token => .ok (token, foreign)
  | none =>
    let foreign' := if name ∈ foreign then foreign else foreign ++ [name]
    let token := g.tokenCount + foreign'.idxOf name
    if token ≤ w.maxIndex then .ok (token, foreign') else .error (.overfull .input)

def numberNames (g : Grammar) (w : Width) :
    List String → List String → Except Fault (List Nat × List String)
  | foreign, [] => .ok ([], foreign)
  | foreign, name :: names =>
    match g.numberName w foreign name with
    | .error fault => .error fault
    | .ok (token, foreign') =>
      match g.numberNames w foreign' names with
      | .error fault => .error fault
      | .ok (tokens, foreign'') => .ok (token :: tokens, foreign'')

/-- The numbers of an input's tokens, and its foreign names in order of first appearance. -/
def tokenIndices (g : Grammar) (w : Width) (names : List String) :
    Except Fault (List Nat × List String) :=
  g.numberNames w [] names

end Grammar

end GrammarRepair
