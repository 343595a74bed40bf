import GrammarRepair.Forest.Basic
import Std.Data.HashSet

/-!
The derivations of a forest by number: the roots in order, at each node its leaves and then its
branches, and at each branch the left part varying slowest. A string may have many derivations.
-/

namespace GrammarRepair

namespace Forest

/-- The branch that contains the `k`-th derivation, and its number there. -/
def pick? (counts : Array Nat) : List (Nat × Nat) → Nat → Option ((Nat × Nat) × Nat)
  | [], _ => none
  | b :: bs, k =>
    if k < Node.branchCount counts b then some (b, k)
    else pick? counts bs (k - Node.branchCount counts b)

theorem mem_of_pick? {counts : Array Nat} {bs : List (Nat × Nat)} {k j : Nat} {b : Nat × Nat}
    (h : pick? counts bs k = some (b, j)) : b ∈ bs := by
  induction bs generalizing k with
  | nil => cases h
  | cons c bs ih =>
    rw [pick?] at h
    split at h
    · cases h
      simp
    · exact List.mem_cons_of_mem _ (ih h)

def yield (f : Forest) (x k : Nat) : List Nat :=
  match _hn : f.nodes[x]? with
  | none => []
  | some node =>
    match node.leaves[k]? with
    | some token => [token]
    | none =>
      match _hp : pick? f.counts node.branches (k - node.leaves.length) with
      | none => []
      | some (b, j) =>
        f.yield b.1 (j / f.counts.getD b.2 0) ++ f.yield b.2 (j % f.counts.getD b.2 0)
termination_by x
decreasing_by
  · exact (f.child_lt x node _hn b (mem_of_pick? _hp)).1
  · exact (f.child_lt x node _hn b (mem_of_pick? _hp)).2

def pickRoot? (f : Forest) : List Nat → Nat → Option (Nat × Nat)
  | [], _ => none
  | x :: xs, k =>
    let n := f.counts.getD x 0
    if k < n then some (x, k) else f.pickRoot? xs (k - n)

def derivation? (f : Forest) (k : Nat) : Option (List Nat) :=
  (f.pickRoot? f.roots k).map fun (x, j) => f.yield x j

/-- Strings met so far, newest first, and room for more if there is a bound. -/
structure Harvest where
  room : Option Nat
  met : Std.HashSet (List Nat)
  strings : List (List Nat)

namespace Harvest

def start (limit : Option Nat) : Harvest := ⟨limit, ∅, []⟩

def isFull (h : Harvest) : Bool := h.room == some 0

def add (h : Harvest) (w : List Nat) : Harvest :=
  if h.met.contains w then h else ⟨h.room.map (· - 1), h.met.insert w, w :: h.strings⟩

def toList (h : Harvest) : List (List Nat) := h.strings.reverse

end Harvest

/-- Takes in the strings of the next `steps` derivations from the `k`-th on, as far as there is
room. -/
def gather (f : Forest) : (steps k : Nat) → Harvest → Harvest
  | 0, _, h => h
  | steps + 1, k, h =>
    if h.isFull then h
    else
      match f.derivation? k with
      | none => h
      | some w => f.gather steps (k + 1) (h.add w)

/-- The distinct strings of a forest in order of their first derivation, all or the first few. -/
def sentences (f : Forest) (limit : Option Nat) : List (List Nat) :=
  (f.gather f.count 0 (.start limit)).toList

def distinctCount (f : Forest) : Nat := (f.sentences none).length

end Forest

end GrammarRepair
