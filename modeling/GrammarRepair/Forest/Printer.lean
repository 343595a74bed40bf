import GrammarRepair.Automaton.Basic
import GrammarRepair.Forest.Basic
import GrammarRepair.Grammar.Printer

/-!
The text of a forest: each node is laid out where it is met first, and only named where it is met
again. The alternatives of a node follow its name, leaves before branches.
-/

namespace GrammarRepair

namespace Forest

inductive Line.Content
  | node (x : Nat) (again : Bool)
  | alternative
  | leaf (token : Nat)
  deriving DecidableEq, Repr

structure Line where
  indent : Nat
  content : Line.Content
  deriving DecidableEq, Repr

/-- The mark before an alternative, if there are several. -/
def altMark (several : Bool) (indent : Nat) : List Line :=
  if several then [⟨indent + 1, .alternative⟩] else []

def layAll {α : Type} (lay : α → NatSet → List Line × NatSet) :
    List α → NatSet → List Line × NatSet
  | [], seen => ([], seen)
  | x :: xs, seen =>
    let (lines, seen) := lay x seen
    let (more, seen) := layAll lay xs seen
    (lines ++ more, seen)

/-- The lines of a node, given the nodes already laid out. -/
def lay (f : Forest) (x indent : Nat) (seen : NatSet) : List Line × NatSet :=
  if seen.has x then ([⟨indent, .node x true⟩], seen)
  else
    match hn : f.nodes[x]? with
    | none => ([], seen)
    | some node =>
      let several := decide (1 < node.leaves.length + node.branches.length)
      let child := if several then indent + 2 else indent + 1
      let leafLines := node.leaves.flatMap fun t =>
        altMark several indent ++ [⟨child, .leaf t⟩]
      let (branchLines, seen) := layAll
        (fun (b : { b // b ∈ node.branches }) seen =>
          have := f.child_lt x node hn b.1 b.2
          let (left, seen) := f.lay b.1.1 child seen
          let (right, seen) := f.lay b.1.2 child seen
          (altMark several indent ++ left ++ right, seen))
        node.branches.attach (seen.insert x)
      (⟨indent, .node x false⟩ :: leafLines ++ branchLines, seen)
termination_by x
decreasing_by
  · exact this.1
  · exact this.2

def lines (f : Forest) : List Line := (layAll (fun x => f.lay x 0) f.roots .empty).1

def labelText (g : Grammar) (aut : Automaton) (t : Constituent) : String :=
  "[" ++ (aut.label t.source).text ++ "," ++ g.ruleName t.rule ++ "," ++
    (aut.label t.target).text ++ "]"

def contentText (f : Forest) (g : Grammar) (aut : Automaton) : Line.Content → String
  | .node x again =>
    let label := match f.nodes[x]? with
      | some node => labelText g aut node.label
      | none => ""
    label ++ if again then " *" else ""
  | .alternative => "|"
  | .leaf t => g.quoteToken t

def lineText (f : Forest) (g : Grammar) (aut : Automaton) (l : Line) : String :=
  "".pushn ' ' l.indent ++ f.contentText g aut l.content ++ "\n"

def print (f : Forest) (g : Grammar) (aut : Automaton) : String :=
  String.join (f.lines.map (f.lineText g aut))

end Forest

end GrammarRepair
