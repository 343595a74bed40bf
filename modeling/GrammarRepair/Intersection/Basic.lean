import GrammarRepair.Automaton.Reach
import GrammarRepair.Forest.Arena
import GrammarRepair.Intersection.Marking
import GrammarRepair.Renumbering

/-!
The grammar of all sentences that an automaton accepts. Its nonterminals are constituents: rules
together with the states they lead from and to. A start rule `^` has every constituent of the
grammar's start rule between an initial and a final state as an alternative. Only what takes part in
a sentence is kept.
-/

namespace GrammarRepair

/-- `pairs` are the productions `x: y z` and `terminals` the productions `x: 't'`; the labels are
those of the automaton's states. -/
structure Intersection where
  nonterminals : Array Constituent
  starts : List Nat
  pairs : Array (Nat × Nat × Nat)
  terminals : Array (Nat × Nat)
  labels : Array Label
  deriving DecidableEq, Repr

/-- No sentence is accepted; so many productions were tried. -/
structure EmptyIntersection where
  productions : Nat
  deriving DecidableEq, Repr

def EmptyIntersection.message (e : EmptyIntersection) : String :=
  s!"Empty intersection ({e.productions} productions before pruning)"

namespace Intersection

/-- The productions made so far, their constituents numbered in order of appearance. -/
structure Draft where
  roster : Roster Constituent
  pairs : Array (Nat × Nat × Nat)
  terminals : Array (Nat × Nat)

namespace Draft

def empty : Draft := ⟨.empty, #[], #[]⟩

def numberOf (d : Draft) (t : Constituent) : Nat := (d.roster.position? t).getD 0

def addTerminal (d : Draft) (t : Constituent) (token : Nat) : Draft :=
  let d := { d with roster := d.roster.add t }
  { d with terminals := d.terminals.push (d.numberOf t, token) }

def addPair (d : Draft) (x y z : Constituent) : Draft :=
  let d := { d with roster := ((d.roster.add x).add y).add z }
  { d with pairs := d.pairs.push (d.numberOf x, d.numberOf y, d.numberOf z) }

def count (d : Draft) : Nat := d.roster.items.size

end Draft

/-- Can the second state lie behind the first? In a grid the labels tell. -/
def follows (aut : Automaton) (r : Reach) (p q : Nat) : Bool :=
  if aut.isGrid then p != q && (aut.label p).dominates (aut.label q) else r.reaches p q

def stateTriples (states : Nat) (follows : Nat → Nat → Bool) : List (Nat × Nat × Nat) :=
  (List.range states).flatMap fun p =>
    ((List.range' (p + 1) (states - (p + 1))).filter (follows p)).flatMap fun q =>
      ((List.range' (q + 1) (states - (q + 1))).filter (follows q)).map fun r => (p, q, r)

def addEdge (g : Grammar) (d : Draft) (e : Edge) : Draft :=
  (g.rulesOf e.token).foldl (fun d a => d.addTerminal ⟨e.source, a, e.target⟩ e.token) d

/-- A production over the three states for every pair that the grammar produces. -/
def addStates (g : Grammar) (d : Draft) (s : Nat × Nat × Nat) : Draft :=
  g.pairs.foldl
    (fun d (a, b, c) => d.addPair ⟨s.1, a, s.2.2⟩ ⟨s.1, b, s.2.1⟩ ⟨s.2.1, c, s.2.2⟩) d

/-- All productions, useful or not. -/
def draft (g : Grammar) (aut : Automaton) (follows : Nat → Nat → Bool) : Draft :=
  let d := aut.edges.foldl (addEdge g) .empty
  if g.pairs.isEmpty then d
  else (stateTriples aut.stateCount follows).foldl (addStates g) d

def startsOf (g : Grammar) (aut : Automaton) (d : Draft) : List Nat :=
  aut.initials.flatMap fun p => aut.finals.filterMap fun q => d.roster.position? ⟨p, g.start, q⟩

/-- How many productions there are, those of the start rule included. -/
def productionCount (ig : Intersection) : Nat :=
  ig.starts.length + ig.pairs.size + ig.terminals.size

def ofDraft (d : Draft) (starts : List Nat) (labels : Array Label) (r : Renumbering) :
    Intersection where
  nonterminals := r.kept.filterMap (d.roster.items[·]?)
  starts := starts.filterMap r.new?
  pairs := d.pairs.filterMap fun (x, y, z) => do
    pure (← r.new? x, ← r.new? y, ← r.new? z)
  terminals := d.terminals.filterMap fun (x, t) => do pure (← r.new? x, t)
  labels := labels

/-- Intersects a grammar with an automaton, given when a state can lie behind another. -/
def build (g : Grammar) (aut : Automaton) (follows : Nat → Nat → Bool) :
    Traced (Except EmptyIntersection Intersection) :=
  let d := draft g aut follows
  let starts := startsOf g aut d
  let before := starts.length + d.pairs.size + d.terminals.size
  let useful := Marking.useful d.count starts d.pairs d.terminals
  let ig := ofDraft d starts aut.labels (.ofKeep d.count fun x => useful.getD x false)
  ⟨[.intersected aut.stateCount before ig.productionCount],
    if ig.starts.isEmpty then .error ⟨before⟩ else .ok ig⟩

end Intersection

def intersect (g : Grammar) (aut : Automaton) : Traced (Except EmptyIntersection Intersection) :=
  Intersection.build g aut (Intersection.follows aut aut.reach)

end GrammarRepair
