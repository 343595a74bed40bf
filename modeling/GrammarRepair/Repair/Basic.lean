import GrammarRepair.Chart.Template
import GrammarRepair.EditDistance.Distance
import GrammarRepair.Forest.Derivation
import GrammarRepair.Grammar.Tokens
import GrammarRepair.Intersection.Basic

/-!
The sentences of a grammar that are nearest to an input. Balls of growing radius are tried until one
holds a sentence; the sentences in that ball are the repairs of the input.
-/

namespace GrammarRepair

/-- The outcome of a search for the nearest sentence: how far away it is, or the bound beyond which
it lies. -/
inductive Led
  | found (distance : Nat)
  | upperBoundExceeded (bound : Nat)
  deriving DecidableEq, Repr

namespace Led

def isFound : Led → Bool
  | found _ => true
  | upperBoundExceeded _ => false

def radius : Led → Nat
  | found d => d
  | upperBoundExceeded bound => bound

end Led

/-- How to find out whether a ball holds a sentence: by filling a chart until one is found, or by
making up the whole intersection. -/
inductive Strategy
  | chart | intersection
  deriving DecidableEq, Repr

/-- Tokens of the alphabet may be inserted or put in place of others; without one, all tokens of the
grammar and the input may. -/
structure RepairSettings where
  maxRadius : Nat
  alphabet : Option (List Nat)
  strategy : Strategy
  templated : Bool
  deriving DecidableEq, Repr

namespace RepairSettings

def default : RepairSettings := ⟨4, none, .chart, true⟩

variable (s : RepairSettings) (g : Grammar)

def ballAround (input : List Nat) (radius : Nat) : Traced Automaton :=
  ball input radius (s.alphabet.getD (List.range g.tokenCount ++ input))

def tryRadius (input : List Nat) (radius : Nat) : Traced Bool := do
  let aut ← s.ballAround g input radius
  let found ← match s.strategy with
    | .chart => nonempty g aut
    | .intersection => (fun r => r.isOk) <$> intersect g aut
  Traced.emit (.radiusTried radius aut.stateCount aut.edges.length found)
  pure found

/-- The least radius from `radius` on whose ball holds a sentence, among `steps` many. -/
def searchFrom (input : List Nat) : (steps radius : Nat) → Traced (Option Nat)
  | 0, _ => pure none
  | steps + 1, radius => do
    if ← s.tryRadius g input radius then pure (some radius)
    else searchFrom input steps (radius + 1)

def nearest (input : List Nat) : Traced (Option Nat) := s.searchFrom g input (s.maxRadius + 1) 0

def led (w : Width) (names : List String) : Except Fault (Traced Led) :=
  match g.tokenIndices w names with
  | .error fault => .error fault
  | .ok (input, _) => .ok do
    match ← s.nearest g input with
    | some d => pure (.found d)
    | none => pure (.upperBoundExceeded s.maxRadius)

end RepairSettings

/-- The repairs of an input: all sentences at the distance of the nearest, as a forest. -/
structure Repairs where
  input : List Nat
  radius : Nat
  forest : Forest
  deriving DecidableEq

namespace RepairSettings

variable (s : RepairSettings) (g : Grammar)

/-- The forest of the sentences that an automaton accepts, in one pass or in two. -/
def forestOver (aut : Automaton) : Traced (Except Fault (Option Forest)) :=
  if s.templated then do
    let chart ← fullChart g aut
    match chart.template g aut with
    | .error fault => pure (.error fault)
    | .ok template => forest g aut (some template)
  else forest g aut none

def repairs (input : List Nat) : Traced (Except Fault (Option Repairs)) := do
  match ← s.nearest g input with
  | none => pure (.ok none)
  | some radius =>
    let aut ← s.ballAround g input radius
    match ← s.forestOver g aut with
    | .error fault => pure (.error fault)
    | .ok none => pure (.ok none)
    | .ok (some forest) =>
      Traced.emit (.repaired radius forest.nodes.size forest.count)
      pure (.ok (some ⟨input, radius, forest⟩))

end RepairSettings

namespace Repairs

/-- Nearer repairs come first; names decide among equally near ones. -/
def before (a b : Nat × List String) : Bool :=
  a.1 < b.1 || (a.1 == b.1 && !decide (b.2 < a.2))

def ranked (r : Repairs) (g : Grammar) (limit : Option Nat) : List (List String) :=
  let all := (r.forest.sentences none).map fun w => (editDistance r.input w, w.map g.tokenText)
  let sorted := (all.mergeSort before).map (·.2)
  match limit with
  | some n => sorted.take n
  | none => sorted

end Repairs

end GrammarRepair
