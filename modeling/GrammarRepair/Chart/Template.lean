import GrammarRepair.Chart.Fill

/-!
The part of a chart that matters: the entries that take part in a derivation of an accepted
sentence. They are marked from the outside in, by falling distance.
-/

namespace GrammarRepair

namespace Chart

def markStarts (c : Chart) (g : Grammar) (aut : Automaton) (t : Chart) : Except Fault Chart :=
  (aut.initials.flatMap fun p => aut.finals.map fun q => (p, q)).foldlM
    (fun t (p, q) => do
      if ← c.has? p g.start q then pure (t.put p g.start q) else pure t) t

def markSplit (c : Chart) (p q b d : Nat) (t : Chart) (r : Nat) : Except Fault Chart := do
  if ← c.has? p b r then
    if ← c.has? r d q then
      return (t.put p b r).put r d q
  return t

/-- Marks the halves of all splits of a production whose head is marked. -/
def markPair (c : Chart) (midpoints : List Nat) (p q : Nat) (marked : NatSet) (t : Chart)
    (pair : Nat × Nat × Nat) : Except Fault Chart :=
  if pair.1 < c.rules then
    if marked.has pair.1 then midpoints.foldlM (c.markSplit p q pair.2.1 pair.2.2) t else .ok t
  else .error .outOfRange

def markCell (c : Chart) (g : Grammar) (r : Reach) (t : Chart) (pq : Nat × Nat) :
    Except Fault Chart :=
  let marked := t.cell pq.1 pq.2
  if marked.isEmpty then .ok t
  else g.pairs.foldlM (c.markPair (r.midpoints pq.1 pq.2) pq.1 pq.2 marked) t

/-- The cells above the diagonal, by falling distance. -/
def inward (states : Nat) : List (Nat × Nat) :=
  (List.range' 1 (states - 1)).reverse.flatMap fun d =>
    (List.range (states - d)).map fun p => (p, p + d)

/-- The entries that take part in a derivation from the start rule over an initial and a final
state. It fails if the chart belongs to another grammar or automaton and lacks a place that is
asked for. -/
def template (c : Chart) (g : Grammar) (aut : Automaton) : Except Fault Chart := do
  let t ← c.markStarts g aut (blank c.states c.rules)
  (inward c.states).foldlM (c.markCell g aut.reach) t

end Chart

end GrammarRepair
