import GrammarRepair.Checked
import GrammarRepair.NormalForm.Unit

/-!
The passes to normal form that could go wrong, checked. Splitting has to come to an end although it
adds rules as it goes. When single-rule productions are dropped, a rule that is looked up has to be
there, and every production has to be a single rule, a single token or a pair of rules.
-/

namespace GrammarRepair

namespace Checked

open NormalForm

/-- Splits the rows of a queue. The links of a row join its end, so the queue runs empty only if
links have no links of their own. -/
def splitRows : (steps : Nat) → (queue : Table) → (taken : List String) → Checked Table
  | 0, queue, _ => if queue.isEmpty then pure [] else .error .unfinished
  | _ + 1, [], _ => pure []
  | steps + 1, row :: rest, taken => do
    let ((row, links), taken) := Linking.chainRow row taken
    let later ← splitRows steps (rest ++ links) taken
    pure (row :: later)

/-- Every row gives itself, and less than one link for each of its symbols. -/
def splitLimit (t : Table) : Nat := t.length + (t.flatMap (·.bodies.flatten)).length

def splitLong (t : Table) : Checked Table := splitRows (splitLimit t) t t.names

def isShaped (body : List Sym) : Bool := (unitOf? body).isSome || (namedBody? body).isSome

def bodiesOf (t : Table) (name : String) : Checked (List (List Sym)) :=
  match t.find? (·.name == name) with
  | some row => if row.bodies.all isShaped then .ok row.bodies else .error .badShape
  | none => .error (.noName name)

def unitClosure (t : Table) (name : String) : Checked (List String) :=
  explore (fun n => do pure ((← bodiesOf t n).filterMap unitOf?)) t.length [name]

def closedBodies (t : Table) (name : String) : Checked (List NamedBody) := do
  let bodies ← (← unitClosure t name).mapM (bodiesOf t)
  pure (distinct (bodies.flatMap (·.filterMap namedBody?)))

def dropUnits (t : Table) : Checked (List (String × List NamedBody)) :=
  t.mapM fun row => do pure (row.name, ← closedBodies t row.name)

def normalForm (g : Written) : Checked NormalForm := do
  let rules ← dropUnits (← splitLong (replaceTokens (tableOf g)))
  pure
    { start := (g.start.map (·.text)).getD ""
      rules
      tokens := g.tokens
      written := g.rules.map (·.name) }

end Checked

end GrammarRepair
