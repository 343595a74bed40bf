import GrammarRepair.Source.Written

/-!
What a written grammar means, productions being taken as they stand.
-/

namespace GrammarRepair

namespace Written

/-- `g.Derives xs w`: the symbols `xs` derive the string `w` of token texts. -/
inductive Derives (g : Written) : List Symbol → List String → Prop
  | nil : Derives g [] []
  | token {name : Lexeme} {xs : List Symbol} {w : List String} (h : Derives g xs w) :
      Derives g (.token name :: xs) (name.text :: w)
  | rule {name : Lexeme} {r : WrittenRule} {body xs : List Symbol} {v w : List String}
      (hr : r ∈ g.rules) (hname : r.name.text = name.text) (hbody : body ∈ r.bodies)
      (hv : Derives g body v) (hw : Derives g xs w) : Derives g (.rule name :: xs) (v ++ w)

/-- The sentences of a written grammar are what its start symbol derives. -/
def IsSentence (g : Written) (w : List String) : Prop :=
  ∃ name, g.start = some name ∧ g.Derives [.rule name] w

end Written

end GrammarRepair
