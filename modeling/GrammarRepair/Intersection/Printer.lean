import GrammarRepair.Grammar.Printer
import GrammarRepair.Intersection.Basic

/-!
The text of an intersection, laid out like that of a grammar with the start rule `^`.
-/

namespace GrammarRepair

namespace Intersection

def labelText (ig : Intersection) (state : Nat) : String :=
  (ig.labels.getD state (.plain state)).text

def constituentText (ig : Intersection) (g : Grammar) (t : Constituent) : String :=
  "[" ++ ig.labelText t.source ++ "," ++ g.ruleName t.rule ++ "," ++ ig.labelText t.target ++ "]"

def name? (ig : Intersection) (g : Grammar) (x : Nat) : Option String :=
  (ig.nonterminals[x]?).map (ig.constituentText g)

def name (ig : Intersection) (g : Grammar) (x : Nat) : String := (ig.name? g x).getD ""

def alternatives (ig : Intersection) (g : Grammar) (x : Nat) : List String :=
  (ig.pairs.toList.filter (·.1 == x)).map (fun p => ig.name g p.2.1 ++ " " ++ ig.name g p.2.2) ++
    (ig.terminals.toList.filter (·.1 == x)).map fun p => g.quoteToken p.2

def print (ig : Intersection) (g : Grammar) : String :=
  "%start ^\n%%\n" ++ Grammar.ruleText "^" (ig.starts.map (ig.name g)) ++
    String.join ((List.range ig.nonterminals.size).map fun x =>
      Grammar.ruleText (ig.name g x) (ig.alternatives g x))

end Intersection

end GrammarRepair
