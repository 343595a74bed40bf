import GrammarRepair.Checked
import GrammarRepair.Forest.Printer

/-!
Writing a forest from a stack of what is still to come. A node is marked when its turn comes, but it
is put on the stack by every node that it is a part of, so it may wait there more than once. What
belongs under a node is put on the stack from its end, and every look into a table is checked.
-/

namespace GrammarRepair

namespace Node

def several (node : Node) : Bool := decide (1 < node.leaves.length + node.branches.length)

def childIndent (node : Node) (indent : Nat) : Nat :=
  if node.several then indent + 2 else indent + 1

end Node

namespace Forest

inductive Item
  | node (x : Nat)
  | alternative
  | leaf (token : Nat)
  deriving DecidableEq, Repr

/-- An item that is still to be written, and how far it is indented. -/
structure Waiting where
  indent : Nat
  item : Item
  deriving DecidableEq, Repr

abbrev Stack := List Waiting

namespace Stack

/-- Puts the mark before an alternative on the stack, if there are several. -/
def pushMark (several : Bool) (indent : Nat) (st : Stack) : Stack :=
  if several then ⟨indent + 1, .alternative⟩ :: st else st

/-- Puts all that belongs under a node on the stack, the branches first and each from its end. -/
def pushNode (indent : Nat) (node : Node) (st : Stack) : Stack :=
  let child := node.childIndent indent
  let withBranches := node.branches.reverse.foldl
    (fun st b => pushMark node.several indent (⟨child, .node b.1⟩ :: ⟨child, .node b.2⟩ :: st)) st
  node.leaves.reverse.foldl
    (fun st t => pushMark node.several indent (⟨child, .leaf t⟩ :: st)) withBranches

end Stack

end Forest

namespace Checked

open Forest

def labelText (g : Grammar) (aut : Automaton) (t : Constituent) : Checked String := do
  let source ← entry aut.labels t.source
  let rule ← entry g.ruleNames t.rule
  let target ← entry aut.labels t.target
  pure ("[" ++ source.text ++ "," ++ rule ++ "," ++ target.text ++ "]")

def addLine (text : String) (indent : Nat) (content : String) : String :=
  text ++ ("".pushn ' ' indent ++ content ++ "\n")

/-- Writes what is on the stack, where `seen` marks the nodes that were laid out. -/
def write (f : Forest) (g : Grammar) (aut : Automaton) :
    (steps : Nat) → Stack → (seen : Array Bool) → (text : String) → Checked String
  | 0, st, _, text => if st.isEmpty then pure text else .error .unfinished
  | _ + 1, [], _, text => pure text
  | steps + 1, ⟨indent, .alternative⟩ :: st, seen, text =>
    write f g aut steps st seen (addLine text indent "|")
  | steps + 1, ⟨indent, .leaf t⟩ :: st, seen, text =>
    write f g aut steps st seen (addLine text indent (g.quoteToken t))
  | steps + 1, ⟨indent, .node x⟩ :: st, seen, text => do
    let again ← entry seen x
    let node ← entry f.nodes x
    let label ← labelText g aut node.label
    if again then write f g aut steps st seen (addLine text indent (label ++ " *"))
    else
      write f g aut steps (Stack.pushNode indent node st) (seen.setIfInBounds x true)
        (addLine text indent label)

/-- Every node is to put its parts on the stack once, with a mark for each at most. -/
def writeLimit (f : Forest) : Nat :=
  f.roots.length + 3 * ((f.nodes.toList.flatMap (·.leaves)).length +
    (f.nodes.toList.flatMap (·.branches)).length)

def printForest (f : Forest) (g : Grammar) (aut : Automaton) : Checked String :=
  write f g aut (writeLimit f) (f.roots.map fun x => ⟨0, .node x⟩)
    (Array.replicate f.nodes.size false) ""

end Checked

end GrammarRepair
