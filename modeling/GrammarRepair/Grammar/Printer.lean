import GrammarRepair.Grammar.Basic

/-!
The text of a grammar: a `%start` line and then its rules, the start rule first.
-/

namespace GrammarRepair

namespace Grammar

def quoteToken (g : Grammar) (token : Nat) : String := "'" ++ g.tokenText token ++ "'"

def bodyText (g : Grammar) : Body → String
  | .pair b c => g.ruleName b ++ " " ++ g.ruleName c
  | .token t => g.quoteToken t

def productionText (g : Grammar) (p : Production) : String :=
  g.ruleName p.head ++ ": " ++ g.bodyText p.body

def ruleText (name : String) (alternatives : List String) : String :=
  name ++ ":" ++ "\n  |".intercalate (alternatives.map (" " ++ ·)) ++ ";\n"

def bodiesOf (g : Grammar) (rule : Nat) : List Body :=
  (g.productionsOf rule).filterMap fun i => (g.productions[i]?).map (·.body)

/-- The start rule, then all other rules in order. -/
def printOrder (g : Grammar) : List Nat :=
  g.start :: (List.range g.ruleCount).filter (· != g.start)

def ruleLines (g : Grammar) (rule : Nat) : String :=
  match g.bodiesOf rule with
  | [] => ""
  | bodies => ruleText (g.ruleName rule) (bodies.map g.bodyText)

def print (g : Grammar) : String :=
  "%start " ++ g.ruleName g.start ++ "\n%%\n" ++ String.join (g.printOrder.map g.ruleLines)

end Grammar

end GrammarRepair
