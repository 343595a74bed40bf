import GrammarRepair.Grammar.Prune
import GrammarRepair.Intersection.Printer

/-!
An intersection as a grammar in its own right. The start rule takes over the productions of its
alternatives, so the result is in binary normal form again.
-/

namespace GrammarRepair

namespace Intersection

def bodyProductions (ig : Intersection) : List Production :=
  ig.pairs.toList.map (fun (x, y, z) => ⟨x + 1, .pair (y + 1) (z + 1)⟩) ++
    ig.terminals.toList.map fun (x, t) => ⟨x + 1, .token t⟩

def startProductions (ig : Intersection) : List Production :=
  ig.starts.flatMap fun x =>
    (ig.bodyProductions.filter (·.head == x + 1)).map fun p => ⟨0, p.body⟩

/-- The grammar over the same tokens, without useless rules. -/
def toGrammar (ig : Intersection) (w : Width) (g : Grammar) : Except Fault Grammar :=
  (Grammar.ofParts w ("^" :: (List.range ig.nonterminals.size).map (ig.name g)) 0
    g.tokenNames.toList (ig.startProductions ++ ig.bodyProductions)).map (·.prune)

end Intersection

end GrammarRepair
