import GrammarRepair.Exploration
import GrammarRepair.Roster
import GrammarRepair.NormalForm.Chain
import GrammarRepair.NormalForm.StandIn

/-!
The last pass to normal form: a production that is a single rule goes away, and its owner takes over
the other productions of all rules that it leads to. What is left are pairs of rules and single
tokens.
-/

namespace GrammarRepair

namespace NormalForm

inductive NamedBody
  | pair (left right : String)
  | token (text : String)
  deriving DecidableEq, Hashable, Repr

def unitOf? : List Sym → Option String
  | [.rule name] => some name
  | _ => none

def namedBody? : List Sym → Option NamedBody
  | [.token text] => some (.token text)
  | [.rule left, .rule right] => some (.pair left right)
  | _ => none

namespace Table

/-- The rules that a rule leads to through single-rule productions, itself included. -/
def unitClosure (t : Table) (name : String) : List String :=
  explore (fun n => (t.bodiesOf n).filterMap unitOf?) t.length [name]

/-- All productions in normal form of the rules that a rule leads to, each once. -/
def closedBodies (t : Table) (name : String) : List NamedBody :=
  distinct ((t.unitClosure name).flatMap fun n => (t.bodiesOf n).filterMap namedBody?)

end Table

end NormalForm

/-- First come the rules that the author wrote, whose names `written` lists, then fresh ones. -/
structure NormalForm where
  start : String
  rules : List (String × List NormalForm.NamedBody)
  tokens : List Lexeme
  written : List Lexeme
  deriving DecidableEq, Repr

namespace NormalForm

def dropUnits (t : Table) : List (String × List NamedBody) :=
  t.map fun row => (row.name, t.closedBodies row.name)

/-- The normal form of a grammar whose references are in order. -/
def ofWritten (g : Written) : NormalForm where
  start := (g.start.map (·.text)).getD ""
  rules := dropUnits (splitLong (replaceTokens (tableOf g)))
  tokens := g.tokens
  written := g.rules.map (·.name)

end NormalForm

end GrammarRepair
