import GrammarRepair.Checked
import GrammarRepair.Forest.Basic

/-!
Nodes gathered in the order in which they are first needed: the tokens of all edges, and then, by
growing distance, the pairs of parts over every pair of states that is visited. A node that can be a
token is there from the start and gets its branches later, so it may come before its own parts.
Every look-up of a part is checked.
-/

namespace GrammarRepair

/-- The nodes made so far, and the number of each constituent that has one. -/
structure Gathering where
  nodes : Array Node
  numbers : Std.HashMap Constituent Nat

inductive Finding
  | token (whole : Constituent) (token : Nat)
  | parts (whole left right : Constituent)
  deriving DecidableEq, Repr

namespace Gathering

def empty : Gathering := ⟨#[], ∅⟩

def has (s : Gathering) (t : Constituent) : Bool := s.numbers.contains t

def number (s : Gathering) (t : Constituent) : Checked Nat :=
  match s.numbers[t]? with
  | some i => .ok i
  | none => .error (.noNode t.source t.rule t.target)

/-- Changes the node of a constituent, which is made first if there is none. -/
def change (s : Gathering) (t : Constituent) (f : Node → Node) : Checked Gathering :=
  match s.numbers[t]? with
  | some i => do
    let nodes ← Checked.put s.nodes i (f (← Checked.entry s.nodes i))
    pure { s with nodes }
  | none => .ok ⟨s.nodes.push (f ⟨t, [], []⟩), s.numbers.insert t s.nodes.size⟩

/-- Enters what was found behind all that was found before. -/
def enter (s : Gathering) : Finding → Checked Gathering
  | .token t x => s.change t fun node => { node with leaves := node.leaves ++ [x] }
  | .parts t l r => do
    let left ← s.number l
    let right ← s.number r
    s.change t fun node => { node with branches := node.branches ++ [(left, right)] }

def enterEdge (g : Grammar) (allowed : Constituent → Bool) (s : Gathering) (e : Edge) :
    Checked Gathering :=
  (g.rulesOf e.token).foldlM (fun s a =>
    if allowed ⟨e.source, a, e.target⟩ then s.enter (.token ⟨e.source, a, e.target⟩ e.token)
    else pure s) s

/-- Enters the halves of a production over a visited pair of states, wherever there are both. -/
def enterPair (allowed : Constituent → Bool) (v : Visit) (s : Gathering) (pair : Nat × Nat × Nat) :
    Checked Gathering :=
  if allowed ⟨v.source, pair.1, v.target⟩ then
    v.midpoints.foldlM (fun s m =>
      if s.has ⟨v.source, pair.2.1, m⟩ && s.has ⟨m, pair.2.2, v.target⟩ then
        s.enter (.parts ⟨v.source, pair.1, v.target⟩ ⟨v.source, pair.2.1, m⟩
          ⟨m, pair.2.2, v.target⟩)
      else pure s) s
  else pure s

def enterVisit (g : Grammar) (allowed : Constituent → Bool) (s : Gathering) (v : Visit) :
    Checked Gathering :=
  g.pairs.foldlM (enterPair allowed v) s

def enterStratum (g : Grammar) (allowed : Constituent → Bool) (s : Gathering) (stratum : Stratum) :
    Checked Gathering :=
  stratum.visits.foldlM (enterVisit g allowed) s

/-- All that is allowed of what a grammar derives over an automaton. -/
def gather (g : Grammar) (aut : Automaton) (allowed : Constituent → Bool) : Checked Gathering := do
  let s ← aut.edges.foldlM (enterEdge g allowed) empty
  aut.strata.foldlM (enterStratum g allowed) s

def starts (s : Gathering) (g : Grammar) (aut : Automaton) : List Nat :=
  aut.initials.flatMap fun p => aut.finals.filterMap fun q =>
    s.numbers[(⟨p, g.start, q⟩ : Constituent)]?

end Gathering

end GrammarRepair
