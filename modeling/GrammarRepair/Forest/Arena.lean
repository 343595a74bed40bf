import GrammarRepair.Chart.Basic
import GrammarRepair.Chart.Sweep
import GrammarRepair.Grammar.Basic
import GrammarRepair.Roster
import Std.Data.HashMap

/-!
Shared derivations of a grammar over an automaton. Each node stands for all derivations of one rule
between two states. Nodes are made by growing distance of their states, so that parts come before
the whole.
-/

namespace GrammarRepair

/-- A rule together with the states between which it derives something. -/
structure Constituent where
  source : Nat
  rule : Nat
  target : Nat
  deriving DecidableEq, Hashable, Repr

/-- All derivations of a constituent: the tokens it can be, and the pairs of nodes it can be made
of. -/
structure Node where
  label : Constituent
  leaves : List Nat
  branches : List (Nat × Nat)
  deriving DecidableEq, Repr

structure Arena where
  nodes : Array Node
  numbers : Std.HashMap Constituent Nat
  child_lt : ∀ (i : Nat) (node : Node), nodes[i]? = some node →
    ∀ b ∈ node.branches, b.1 < i ∧ b.2 < i
  number_lt : ∀ (t : Constituent) (i : Nat), numbers[t]? = some i → i < nodes.size

namespace Arena

def empty : Arena where
  nodes := #[]
  numbers := ∅
  child_lt := by simp
  number_lt := by simp

def size (a : Arena) : Nat := a.nodes.size

def number? (a : Arena) (t : Constituent) : Option Nat := a.numbers[t]?

def push (a : Arena) (node : Node) (h : ∀ b ∈ node.branches, b.1 < a.size ∧ b.2 < a.size) :
    Arena where
  nodes := a.nodes.push node
  numbers := a.numbers.insert node.label a.nodes.size
  child_lt := by
    intro i n hn b hb
    rw [Array.getElem?_push] at hn
    split at hn
    · next hi =>
      cases hn
      rw [hi]
      exact h b hb
    · exact a.child_lt i n hn b hb
  number_lt := by
    intro t i hi
    rw [Std.HashMap.getElem?_insert] at hi
    rw [Array.size_push]
    split at hi
    · cases hi
      omega
    · have := a.number_lt t i hi
      omega

@[simp] theorem size_push (a : Arena) (node : Node)
    (h : ∀ b ∈ node.branches, b.1 < a.size ∧ b.2 < a.size) : (a.push node h).size = a.size + 1 := by
  simp [size, push]

/-- A way to make up a constituent of two nodes, with the rule of the constituent. -/
structure Split where
  rule : Nat
  left : Nat
  right : Nat
  deriving DecidableEq, Repr

def split? (a : Arena) (v : Visit) (pair : Nat × Nat × Nat) (r : Nat) : Option Split := do
  let left ← a.number? ⟨v.source, pair.2.1, r⟩
  let right ← a.number? ⟨r, pair.2.2, v.target⟩
  pure ⟨pair.1, left, right⟩

def splits (a : Arena) (v : Visit) (pairs : List (Nat × Nat × Nat)) : List Split :=
  pairs.flatMap fun pair => v.midpoints.filterMap (a.split? v pair)

theorem splits_lt {a : Arena} {v : Visit} {pairs : List (Nat × Nat × Nat)} {s : Split}
    (h : s ∈ a.splits v pairs) : s.left < a.size ∧ s.right < a.size := by
  simp only [splits, List.mem_flatMap, List.mem_filterMap] at h
  obtain ⟨pair, -, r, -, h⟩ := h
  simp only [split?, Option.bind_eq_bind, Option.bind_eq_some_iff] at h
  obtain ⟨l, hl, m, hm, h⟩ := h
  cases h
  exact ⟨a.number_lt _ _ hl, a.number_lt _ _ hm⟩

def branchesOf (splits : List Split) (rule : Nat) : List (Nat × Nat) :=
  (splits.filter (·.rule == rule)).map fun s => (s.left, s.right)

theorem branchesOf_lt {splits : List Split} {n rule : Nat}
    (h : ∀ s ∈ splits, s.left < n ∧ s.right < n) :
    ∀ b ∈ branchesOf splits rule, b.1 < n ∧ b.2 < n := by
  intro b hb
  simp only [branchesOf, List.mem_map] at hb
  obtain ⟨s, hs, rfl⟩ := hb
  exact h s (List.mem_filter.1 hs).1

def leavesOf (g : Grammar) (aut : Automaton) (t : Constituent) : List Nat :=
  (aut.edges.filter fun e =>
    e.source == t.source && e.target == t.target && (g.rulesOf e.token).contains t.rule).map (·.token)

/-- The constituents over one distance that can be single tokens, in order of their edges. -/
def leafLabels (g : Grammar) (aut : Automaton) (allowed : Constituent → Bool) (distance : Nat) :
    List Constituent :=
  distinct ((aut.edges.filter fun e => e.target - e.source == distance).flatMap fun e =>
    ((g.rulesOf e.token).map fun a => ⟨e.source, a, e.target⟩).filter allowed)

def addLeaf (g : Grammar) (aut : Automaton) (r : Reach) (a : Arena) (t : Constituent) : Arena :=
  let v : Visit := ⟨t.source, t.target, r.midpoints t.source t.target⟩
  let splits := a.splits v (g.pairs.filter (·.1 == t.rule))
  a.push ⟨t, leavesOf g aut t, branchesOf splits t.rule⟩ (branchesOf_lt fun _ h => splits_lt h)

def addPairs (v : Visit) (splits : List Split) : (rules : List Nat) → (a : Arena) →
    (∀ s ∈ splits, s.left < a.size ∧ s.right < a.size) → Arena
  | [], a, _ => a
  | rule :: rules, a, h =>
    addPairs v splits rules
      (a.push ⟨⟨v.source, rule, v.target⟩, [], branchesOf splits rule⟩ (branchesOf_lt h))
      (fun s hs => by
        have := h s hs
        rw [size_push]
        omega)

/-- Adds all constituents over a visited pair that are not there yet, in order of the first
production that makes them up. -/
def addVisit (g : Grammar) (allowed : Constituent → Bool) (a : Arena) (v : Visit) : Arena :=
  let splits := a.splits v (g.pairs.filter fun pair => allowed ⟨v.source, pair.1, v.target⟩)
  let rules := (distinct (splits.map (·.rule))).filter fun rule =>
    (a.number? ⟨v.source, rule, v.target⟩).isNone
  addPairs v splits rules a fun _ h => splits_lt h

def addStratum (g : Grammar) (aut : Automaton) (r : Reach) (allowed : Constituent → Bool)
    (a : Arena) (s : Stratum) : Arena :=
  s.visits.foldl (addVisit g allowed)
    ((leafLabels g aut allowed s.distance).foldl (addLeaf g aut r) a)

def grow (g : Grammar) (aut : Automaton) (allowed : Constituent → Bool) : Arena :=
  aut.strata.foldl (addStratum g aut aut.reach allowed) empty

def starts (a : Arena) (g : Grammar) (aut : Automaton) : List Nat :=
  aut.initials.flatMap fun p => aut.finals.filterMap fun q => a.number? ⟨p, g.start, q⟩

theorem starts_lt {a : Arena} {g : Grammar} {aut : Automaton} {x : Nat} (h : x ∈ a.starts g aut) :
    x < a.size := by
  simp only [starts, List.mem_flatMap, List.mem_filterMap] at h
  obtain ⟨p, -, q, -, h⟩ := h
  exact a.number_lt _ _ h

end Arena

end GrammarRepair
