import GrammarRepair.Source.Written

/-!
Rule tables by name, the working form in which a written grammar is brought into normal form.
-/

namespace GrammarRepair

namespace NormalForm

inductive Sym
  | rule (name : String)
  | token (text : String)
  deriving DecidableEq, Repr

structure Row where
  name : String
  bodies : List (List Sym)
  deriving DecidableEq, Repr

abbrev Table := List Row

namespace Table

def names (t : Table) : List String := t.map (·.name)

/-- The bodies of a rule; a rule that is not there has none. -/
def bodiesOf (t : Table) (name : String) : List (List Sym) :=
  match t.find? (·.name == name) with
  | some row => row.bodies
  | none => []

end Table

def Sym.ofSymbol : Symbol → Sym
  | .rule name => .rule name.text
  | .token name => .token name.text

def tableOf (g : Written) : Table :=
  g.rules.map fun r => ⟨r.name.text, r.bodies.map (·.map Sym.ofSymbol)⟩

end NormalForm

end GrammarRepair
