import GrammarRepair.NormalForm.Unit

/-!
What a rule table means. A normal form is a table as well, so that both have one notion of meaning.
-/

namespace GrammarRepair

namespace NormalForm

/-- `t.Derives xs w`: the symbols `xs` derive the string `w` of token texts. -/
inductive Table.Derives (t : Table) : List Sym → List String → Prop
  | nil : Table.Derives t [] []
  | token {text : String} {xs : List Sym} {w : List String} (h : Table.Derives t xs w) :
      Table.Derives t (.token text :: xs) (text :: w)
  | rule {name : String} {body xs : List Sym} {v w : List String} (hbody : body ∈ t.bodiesOf name)
      (hv : Table.Derives t body v) (hw : Table.Derives t xs w) :
      Table.Derives t (.rule name :: xs) (v ++ w)

theorem Table.Derives.append {t : Table} {xs ys : List Sym} {v w : List String}
    (hx : t.Derives xs v) (hy : t.Derives ys w) : t.Derives (xs ++ ys) (v ++ w) := by
  induction hx with
  | nil => exact hy
  | token h ih => exact .token ih
  | rule hbody hv hw ihv ihw =>
    rw [List.append_assoc]
    exact .rule hbody hv ihw

def NamedBody.symbols : NamedBody → List Sym
  | .pair left right => [.rule left, .rule right]
  | .token text => [.token text]

theorem namedBody?_symbols (b : NamedBody) : namedBody? b.symbols = some b := by cases b <;> rfl

def rowOf (rule : String × List NamedBody) : Row := ⟨rule.1, rule.2.map (·.symbols)⟩

def table (nf : NormalForm) : Table := nf.rules.map rowOf

/-- The sentences of a normal form are what its start rule derives. -/
def IsSentence (nf : NormalForm) (w : List String) : Prop := nf.table.Derives [.rule nf.start] w

end NormalForm

end GrammarRepair
