import GrammarRepair.Exploration
import GrammarRepair.Grammar.Basic
import GrammarRepair.NatSet

/-!
Which rules of a grammar can take part in a sentence: those that derive some string, and those that
the start rule leads to through productions that can be completed.
-/

namespace GrammarRepair

def settle (f : NatSet → NatSet) : (steps : Nat) → NatSet → NatSet
  | 0, s => s
  | steps + 1, s =>
    let s' := f s
    if s' = s then s else settle f steps s'

structure Usefulness where
  generating : NatSet
  reachable : NatSet
  deriving DecidableEq, Repr

namespace Grammar

def completes (marked : NatSet) : Body → Bool
  | .pair b c => marked.has b && marked.has c
  | .token _ => true

/-- Marks, in one pass over the productions, every rule with one that can be completed. -/
def markHeads (g : Grammar) (marked : NatSet) : NatSet :=
  g.productions.toList.foldl
    (fun m p => if completes m p.body then m.insert p.head else m) marked

/-- Every pass but the last marks a rule, so one pass per rule and one more are enough. -/
def generating (g : Grammar) : NatSet := settle g.markHeads (g.ruleCount + 1) .empty

/-- The rules next to a rule in productions that can be completed. -/
def neighbours (g : Grammar) (generating : NatSet) (rule : Nat) : List Nat :=
  (g.pairsOf rule).flatMap fun (b, c) =>
    if generating.has b && generating.has c then [b, c] else []

def usefulness (g : Grammar) : Usefulness :=
  let generating := g.generating
  { generating
    reachable := .ofList (explore (g.neighbours generating) g.ruleCount [g.start]) }

end Grammar

namespace Usefulness

def isUseful (u : Usefulness) (rule : Nat) : Bool := u.generating.has rule && u.reachable.has rule

def all (u : Usefulness) (count : Nat) : Bool := (List.range count).all u.isUseful

end Usefulness

end GrammarRepair
