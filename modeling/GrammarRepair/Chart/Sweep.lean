import GrammarRepair.Automaton.Reach

/-!
The order in which pairs of states are visited when a grammar is parsed over an automaton: by
growing distance of their numbers. Whatever lies between two states is then complete when they are
visited. Pairs without a state between them are left out.
-/

namespace GrammarRepair

/-- Two states and all states strictly between them. -/
structure Visit where
  source : Nat
  target : Nat
  midpoints : List Nat
  deriving DecidableEq, Repr

/-- All visits at one distance. -/
structure Stratum where
  distance : Nat
  visits : List Visit
  deriving DecidableEq, Repr

def Stratum.event (s : Stratum) : Event := .distanceSwept s.distance s.visits.length

namespace Automaton

/-- The visit from `p` over a distance, if there is a state between. -/
def visit? (r : Reach) (distance p : Nat) : Option Visit :=
  match r.midpoints p (p + distance) with
  | [] => none
  | m :: ms => some ⟨p, p + distance, m :: ms⟩

def stratum (aut : Automaton) (r : Reach) (distance : Nat) : Stratum :=
  ⟨distance, (List.range (aut.stateCount - distance)).filterMap (visit? r distance)⟩

/-- The strata from the least distance to the greatest. -/
def strata (aut : Automaton) : List Stratum :=
  let r := aut.reach
  (List.range' 1 (aut.stateCount - 1)).map (aut.stratum r)

end Automaton

end GrammarRepair
