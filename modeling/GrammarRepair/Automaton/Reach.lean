import GrammarRepair.Automaton.Basic

/-!
Which states of an automaton lie before, behind and between others. All sets are computed once, by
one sweep over the states in each direction.
-/

namespace GrammarRepair

/-- For every state, itself and all states that can be reached from it, and itself and all states
that it can be reached from. -/
structure Reach where
  after : Array NatSet
  before : Array NatSet
  deriving DecidableEq, Repr

namespace Reach

def gather (others : List Nat) (sets : Array NatSet) (state : Nat) : NatSet :=
  others.foldl (fun s p => s.union (sets.getD p .empty)) (NatSet.empty.insert state)

def sweepAfter (aut : Automaton) (state : Nat) (sets : Array NatSet) : Array NatSet :=
  sets.setIfInBounds state (gather ((aut.edgesFrom state).map (·.target)) sets state)

def sweepBefore (aut : Automaton) (sets : Array NatSet) (state : Nat) : Array NatSet :=
  sets.setIfInBounds state
    (gather ((aut.edges.filter (·.target == state)).map (·.source)) sets state)

def ofAutomaton (aut : Automaton) : Reach where
  after := (List.range aut.stateCount).foldr (sweepAfter aut)
    (Array.replicate aut.stateCount .empty)
  before := (List.range aut.stateCount).foldl (sweepBefore aut)
    (Array.replicate aut.stateCount .empty)

/-- Does a path with at least one edge lead from `p` to `q`? -/
def reaches (r : Reach) (p q : Nat) : Bool := p != q && (r.after.getD p .empty).has q

/-- The states on the paths from `p` to `q`, both ends included; none unless such a path has an
edge. -/
def between (r : Reach) (p q : Nat) : NatSet :=
  if r.reaches p q then (r.after.getD p .empty).inter (r.before.getD q .empty) else .empty

def midpoints (r : Reach) (p q : Nat) : List Nat := ((r.between p q).below q).filter (p < ·)

end Reach

namespace Automaton

def reach (aut : Automaton) : Reach := Reach.ofAutomaton aut

def hasState (aut : Automaton) (p : Nat) : Bool := p < aut.stateCount

def reaches? (aut : Automaton) (p q : Nat) : Option Bool :=
  if p == q then some false
  else if aut.hasState p && aut.hasState q then some (aut.reach.reaches p q) else none

def between? (aut : Automaton) (p q : Nat) : Option (List Nat) :=
  if aut.hasState p && aut.hasState q then some ((aut.reach.between p q).below aut.stateCount)
  else none

def midpoints? (aut : Automaton) (p q : Nat) : Option (List Nat) :=
  if aut.hasState p && aut.hasState q then some (aut.reach.midpoints p q) else none

end Automaton

end GrammarRepair
