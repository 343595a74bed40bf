import GrammarRepair.Automaton.Order
import GrammarRepair.Event
import GrammarRepair.NatSet
import GrammarRepair.Sorted

/-!
Acyclic automata. States are numbers in an order in which every edge leads forward, and each has a
label of its own.
-/

namespace GrammarRepair

structure Edge where
  source : Nat
  token : Nat
  target : Nat
  deriving DecidableEq, Repr

namespace Edge

def before (e f : Edge) : Bool :=
  e.source < f.source ||
    (e.source == f.source && (e.token < f.token || (e.token == f.token && e.target ≤ f.target)))

end Edge

structure Automaton where
  labels : Array Label
  edges : List Edge
  initials : List Nat
  finals : List Nat
  nodup_labels : labels.toList.Nodup
  source_lt_target : ∀ e ∈ edges, e.source < e.target
  target_lt : ∀ e ∈ edges, e.target < labels.size
  initial_lt : ∀ p ∈ initials, p < labels.size
  final_lt : ∀ q ∈ finals, q < labels.size
  deriving DecidableEq

/-- `cyclic` counts the states that lie on a cycle or behind one. -/
inductive AutomatonError
  | noInitialState
  | cyclic (unordered : Nat)
  deriving DecidableEq, Repr

def AutomatonError.message : AutomatonError → String
  | noInitialState => "Automaton has no initial state"
  | cyclic unordered => s!"Automaton is cyclic ({unordered} states have no topological position)"

namespace Automaton

def stateCount (aut : Automaton) : Nat := aut.labels.size

def ofOrder (order : List Label) (ts : List Transition) (initials finals : List Label)
    (hnodup : order.Nodup) (hforward : Transition.Forward ts order)
    (hinitials : ∀ l ∈ initials, l ∈ order) (hfinals : ∀ l ∈ finals, l ∈ order) : Automaton where
  labels := order.toArray
  edges := sortedDistinct Edge.before
    (ts.map fun t => ⟨order.idxOf t.source, t.token, order.idxOf t.target⟩)
  initials := sortedDistinct (· ≤ ·) (initials.map order.idxOf)
  finals := sortedDistinct (· ≤ ·) (finals.map order.idxOf)
  nodup_labels := by simpa using hnodup
  source_lt_target := by
    intro e he
    rw [mem_sortedDistinct, List.mem_map] at he
    obtain ⟨t, ht, rfl⟩ := he
    exact (hforward t ht).2
  target_lt := by
    intro e he
    rw [mem_sortedDistinct, List.mem_map] at he
    obtain ⟨t, ht, rfl⟩ := he
    simpa using List.idxOf_lt_length_iff.2 (hforward t ht).1
  initial_lt := by
    intro p hp
    rw [mem_sortedDistinct, List.mem_map] at hp
    obtain ⟨l, hl, rfl⟩ := hp
    simpa using List.idxOf_lt_length_iff.2 (hinitials l hl)
  final_lt := by
    intro p hp
    rw [mem_sortedDistinct, List.mem_map] at hp
    obtain ⟨l, hl, rfl⟩ := hp
    simpa using List.idxOf_lt_length_iff.2 (hfinals l hl)

def announce (aut : Automaton) (order : StateOrder) : Traced Automaton :=
  ⟨[.automatonBuilt aut.stateCount aut.edges.length order], aut⟩

open Transition in
def ofGrid (ts : List Transition) (initials finals : List Label)
    (h : followsGrid ts (mentioned ts initials finals) = true) : Traced Automaton :=
  (ofOrder (gridOrder (mentioned ts initials finals)) ts initials finals
    (nodup_gridOrder (nodup_distinct _))
    (forward_gridOrder (fun _ => source_mem_mentioned) (fun _ => target_mem_mentioned) h)
    (fun _ hl => mem_gridOrder.2 (initial_mem_mentioned hl))
    (fun _ hl => mem_gridOrder.2 (final_mem_mentioned hl))).announce .grid

open Transition in
/-- Builds an automaton, unless it has no initial state or its transitions go in a circle.
Repetitions do not matter. -/
def ofTransitions (ts : List Transition) (initials finals : List Label) :
    Except AutomatonError (Traced Automaton) :=
  if initials.isEmpty then .error .noInitialState
  else
    let labels := mentioned ts initials finals
    if hgrid : followsGrid ts labels = true then .ok (ofGrid ts initials finals hgrid)
    else
      let order := topologicalOrder ts labels
      if h : ∀ l ∈ labels, l ∈ order then
        .ok ((ofOrder order ts initials finals (nodup_topologicalOrder ts (nodup_distinct _))
          (forward_topologicalOrder (nodup_distinct _) h fun _ => target_mem_mentioned)
          (fun _ hl => h _ (initial_mem_mentioned hl))
          (fun _ hl => h _ (final_mem_mentioned hl))).announce .topological)
      else .error (.cyclic (labels.length - order.length))

def label (aut : Automaton) (state : Nat) : Label := aut.labels.getD state (.plain state)

def stateOf? (aut : Automaton) (l : Label) : Option Nat := aut.labels.idxOf? l

def edgesFrom (aut : Automaton) (state : Nat) : List Edge := aut.edges.filter (·.source == state)

/-- Are all states grid points, each of which dominates all those it has edges to? -/
def isGrid (aut : Automaton) : Bool :=
  aut.labels.all (·.isGrid) &&
    aut.edges.all fun e => (aut.label e.source).dominates (aut.label e.target)

/-- The states after reading one more token. -/
def advance (aut : Automaton) (states : NatSet) (token : Nat) : NatSet :=
  aut.edges.foldl
    (fun next e =>
      if e.token == token && states.has e.source then next.insert e.target else next) .empty

def accepts (aut : Automaton) (w : List Nat) : Bool :=
  let states := w.foldl aut.advance (.ofList aut.initials)
  aut.finals.any states.has

/-- `aut.Path p w q`: reading `w` can lead from state `p` to state `q`. -/
inductive Path (aut : Automaton) : Nat → List Nat → Nat → Prop
  | stop (p : Nat) : Path aut p [] p
  | step {e : Edge} {w : List Nat} {q : Nat} (he : e ∈ aut.edges) (h : Path aut e.target w q) :
      Path aut e.source (e.token :: w) q

theorem Path.append {aut : Automaton} {p q r : Nat} {v w : List Nat} (h : aut.Path p v q)
    (h' : aut.Path q w r) : aut.Path p (v ++ w) r := by
  induction h with
  | stop p => exact h'
  | step he h ih => exact .step he (ih h')

/-- Every token leads at least one state further. -/
theorem Path.add_length_le {aut : Automaton} {p q : Nat} {w : List Nat} (h : aut.Path p w q) :
    p + w.length ≤ q := by
  induction h with
  | stop p => exact Nat.le_refl p
  | step he h ih =>
    have := aut.source_lt_target _ he
    rw [List.length_cons]
    omega

end Automaton

end GrammarRepair
