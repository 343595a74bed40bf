import GrammarRepair.Exploration
import GrammarRepair.Forest.Arena
import GrammarRepair.Renumbering

/-!
Parse forests: shared derivations of which every node is part of a whole derivation. The roots are
the nodes of the start rule between initial and final states. Numbers of derivations are kept in
128 bits and stop growing at the greatest that fits.
-/

namespace GrammarRepair

namespace Saturating

/-- The greatest number that is counted to: all of its 128 bits are ones. -/
def limit : Nat := 340282366920938463463374607431768211455

theorem limit_eq : limit = (1 <<< 128) - 1 := by decide

def add (m n : Nat) : Nat := min (m + n) limit

def mul (m n : Nat) : Nat := min (m * n) limit

def sum (xs : List Nat) : Nat := xs.foldl add 0

end Saturating

namespace Node

def branchCount (counts : Array Nat) (b : Nat × Nat) : Nat :=
  Saturating.mul (counts.getD b.1 0) (counts.getD b.2 0)

/-- How many derivations a node has, given those of all nodes before it. -/
def count (counts : Array Nat) (node : Node) : Nat :=
  node.branches.foldl (fun n b => Saturating.add n (branchCount counts b)) node.leaves.length

def countAll (nodes : Array Node) : Array Nat :=
  nodes.foldl (fun counts node => counts.push (node.count counts)) #[]

end Node

structure Forest where
  nodes : Array Node
  roots : List Nat
  counts : Array Nat
  child_lt : ∀ (i : Nat) (node : Node), nodes[i]? = some node →
    ∀ b ∈ node.branches, b.1 < i ∧ b.2 < i
  root_lt : ∀ x ∈ roots, x < nodes.size
  counts_eq : counts = Node.countAll nodes
  deriving DecidableEq

namespace Arena

def children (a : Arena) (x : Nat) : List Nat :=
  match a.nodes[x]? with
  | some node => node.branches.flatMap fun b => [b.1, b.2]
  | none => []

def keptNodes (a : Arena) (roots : List Nat) : Renumbering :=
  Renumbering.ofKeep a.size (NatSet.ofList (explore a.children a.size roots)).has

def renumber (r : Renumbering) (node : Node) : Node :=
  { node with
    branches := node.branches.filterMap fun b => do pure (← r.new? b.1, ← r.new? b.2) }

def keptNode (a : Arena) (r : Renumbering) (x : Nat) : Node :=
  renumber r (a.nodes.getD x ⟨⟨0, 0, 0⟩, [], []⟩)

theorem keptNode_child_lt {a : Arena} {roots : List Nat} {i : Nat} {node : Node}
    (h : ((a.keptNodes roots).kept.map (a.keptNode (a.keptNodes roots)))[i]? = some node) :
    ∀ b ∈ node.branches, b.1 < i ∧ b.2 < i := by
  rw [Array.getElem?_map, Option.map_eq_some_iff] at h
  obtain ⟨x, hx, rfl⟩ := h
  have hnew := (Renumbering.new?_eq_some_iff _ _ x i).2 hx
  intro b hb
  simp only [keptNode, renumber, List.mem_filterMap, Option.bind_eq_bind,
    Option.bind_eq_some_iff] at hb
  obtain ⟨old, hold, l, hl, r, hr, hb⟩ := hb
  cases hb
  cases hn : a.nodes[x]? with
  | none => simp [Array.getD_eq_getD_getElem?, hn] at hold
  | some n =>
    rw [Array.getD_eq_getD_getElem?, hn, Option.getD_some] at hold
    have := a.child_lt x n hn old hold
    exact ⟨Renumbering.new?_strictMono _ hl hnew this.1,
      Renumbering.new?_strictMono _ hr hnew this.2⟩

end Arena

namespace Forest

/-- The part of an arena that `roots` lead to, in its old order. -/
def ofArena (a : Arena) (roots : List Nat) : Forest :=
  let r := a.keptNodes roots
  let nodes := r.kept.map (a.keptNode r)
  { nodes
    roots := sortedDistinct (· ≤ ·) (roots.filterMap r.new?)
    counts := Node.countAll nodes
    child_lt := fun _ _ h => Arena.keptNode_child_lt h
    root_lt := by
      intro x hx
      rw [mem_sortedDistinct, List.mem_filterMap] at hx
      obtain ⟨y, -, hy⟩ := hx
      rw [Array.size_map]
      exact Renumbering.new?_lt _ hy
    counts_eq := rfl }

def nodeCount? (f : Forest) (x : Nat) : Option Nat := f.counts[x]?

def count (f : Forest) : Nat := Saturating.sum (f.roots.map fun x => f.counts.getD x 0)

end Forest

def allowedBy (template : Option Chart) (t : Constituent) : Bool :=
  match template with
  | some c => c.has t.source t.rule t.target
  | none => true

def coveredBy (template : Option Chart) (t : Constituent) : Bool :=
  match template with
  | some c => c.covers t.source t.rule t.target
  | none => true

def stratumCovered (g : Grammar) (template : Option Chart) (s : Stratum) : Bool :=
  s.visits.all fun v => g.pairs.all fun pair => coveredBy template ⟨v.source, pair.1, v.target⟩

def edgesCovered (g : Grammar) (aut : Automaton) (template : Option Chart) : Bool :=
  aut.edges.all fun e => (g.rulesOf e.token).all fun a =>
    coveredBy template ⟨e.source, a, e.target⟩

/-- The forest of all derivations of sentences that the automaton accepts, if there are any. With a
template only its entries are used; it fails where the template belongs to another grammar or
automaton and lacks a place that is asked for. -/
def forest (g : Grammar) (aut : Automaton) (template : Option Chart) :
    Traced (Except Fault (Option Forest)) :=
  if edgesCovered g aut template then
    let strata := aut.strata
    let covered := strata.takeWhile (stratumCovered g template)
    let events := covered.map (·.event)
    if covered.length < strata.length then ⟨events, .error .outOfRange⟩
    else
      let a := Arena.grow g aut (allowedBy template)
      let roots := a.starts g aut
      ⟨events, .ok (if roots.isEmpty then none else some (.ofArena a roots))⟩
  else ⟨[], .error .outOfRange⟩

end GrammarRepair
