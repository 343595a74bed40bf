import GrammarRepair.MapState
import GrammarRepair.NormalForm.FreshName
import GrammarRepair.NormalForm.Table

/-!
The first pass to normal form: in a production of two or more symbols every token gives way to a
rule that stands in for it and has that token as its only production.
-/

namespace GrammarRepair

namespace NormalForm

/-- The rules that stand in for tokens, in order of first use, and all names that are taken. -/
structure StandIns where
  taken : List String
  rules : List (String × String)
  deriving Repr

namespace StandIns

def ruleFor (token : String) (s : StandIns) : String × StandIns :=
  match s.rules.lookup token with
  | some name => (name, s)
  | none =>
    let name := freshName s.taken ("T~" ++ token)
    (name, ⟨name :: s.taken, s.rules ++ [(token, name)]⟩)

def replaceSym (x : Sym) (s : StandIns) : Sym × StandIns :=
  match x with
  | .rule name => (.rule name, s)
  | .token token =>
    let (name, s) := s.ruleFor token
    (.rule name, s)

def replaceBody (body : List Sym) (s : StandIns) : List Sym × StandIns :=
  if 1 < body.length then mapState replaceSym body s else (body, s)

def replaceRow (row : Row) (s : StandIns) : Row × StandIns :=
  let (bodies, s) := mapState replaceBody row.bodies s
  (⟨row.name, bodies⟩, s)

def rows (s : StandIns) : Table := s.rules.map fun (token, name) => ⟨name, [[.token token]]⟩

end StandIns

/-- Replaces the tokens of all longer productions; the stand-ins follow the old rules. -/
def replaceTokens (t : Table) : Table :=
  let (rows, s) := mapState StandIns.replaceRow t ⟨t.names, []⟩
  rows ++ s.rows

end NormalForm

end GrammarRepair
