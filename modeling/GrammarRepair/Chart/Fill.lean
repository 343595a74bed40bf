import GrammarRepair.Chart.Basic
import GrammarRepair.Chart.Sweep
import GrammarRepair.EditDistance.Ball
import GrammarRepair.Grammar.Basic

/-!
Parsing a grammar over an automaton: which rules derive a string that leads from one state to
another, whether any sentence is accepted, and whether a given string is a sentence.
-/

namespace GrammarRepair

namespace Chart

/-- Enters the rules that produce the tokens of edges. -/
def sow (g : Grammar) (aut : Automaton) : Chart :=
  aut.edges.foldl
    (fun c e => (g.rulesOf e.token).foldl (fun c a => c.put e.source a e.target) c)
    (blank aut.stateCount g.ruleCount)

/-- Do the two rules meet at one of the midpoints? -/
def meets (c : Chart) (v : Visit) (b d : Nat) : Bool :=
  v.midpoints.any fun r => c.has v.source b r && c.has r d v.target

/-- The rules over a visited pair, once all that lies between is known. -/
def grown (g : Grammar) (c : Chart) (v : Visit) : NatSet :=
  g.pairs.foldl
    (fun s (a, b, d) => if s.has a then s else if c.meets v b d then s.insert a else s)
    (c.cell v.source v.target)

def sweepVisit (g : Grammar) (c : Chart) (v : Visit) : Chart :=
  c.setCell v.source v.target (c.grown g v)

def sweepStratum (g : Grammar) (c : Chart) (s : Stratum) : Chart := s.visits.foldl (sweepVisit g) c

/-- Does the start rule derive a string from an initial to a final state? -/
def accepting (g : Grammar) (aut : Automaton) (c : Chart) : Bool :=
  aut.initials.any fun p => aut.finals.any fun q => c.has p g.start q

end Chart

def fullChart (g : Grammar) (aut : Automaton) : Traced Chart :=
  let strata := aut.strata
  ⟨strata.map (·.event), strata.foldl (Chart.sweepStratum g) (Chart.sow g aut)⟩

/-- Sweeps until a sentence is found. -/
def searchStrata (g : Grammar) (aut : Automaton) : List Stratum → Chart → Traced Bool
  | [], _ => pure false
  | s :: strata, c =>
    let c := c.sweepStratum g s
    do
      Traced.emit s.event
      if c.accepting g aut then pure true else searchStrata g aut strata c

/-- Is any sentence of the grammar accepted by the automaton? -/
def nonempty (g : Grammar) (aut : Automaton) : Traced Bool :=
  let c := Chart.sow g aut
  if c.accepting g aut then pure true else searchStrata g aut aut.strata c

def recognise (g : Grammar) (w : List Nat) : Traced Bool := do
  let aut ← ball w 0 w
  nonempty g aut

end GrammarRepair
