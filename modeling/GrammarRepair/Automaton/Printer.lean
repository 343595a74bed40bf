import GrammarRepair.Automaton.Basic
import GrammarRepair.Grammar.Printer

/-!
The text of an automaton: a line for every state, and below it one for every edge.
-/

namespace GrammarRepair

namespace Automaton

def stateLine (aut : Automaton) (p : Nat) : String :=
  (aut.label p).text ++ (if p ∈ aut.initials then " (initial)" else "") ++
    (if p ∈ aut.finals then " (final)" else "") ++ "\n"

def edgeLine (aut : Automaton) (g : Grammar) (e : Edge) : String :=
  "  " ++ g.quoteToken e.token ++ " -> " ++ (aut.label e.target).text ++ "\n"

def print (aut : Automaton) (g : Grammar) : String :=
  String.join ((List.range aut.stateCount).map fun p =>
    aut.stateLine p ++ String.join ((aut.edgesFrom p).map (aut.edgeLine g)))

end Automaton

end GrammarRepair
