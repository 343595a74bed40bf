import GrammarRepair.Fault
import GrammarRepair.NatSet

/-!
Charts: for every pair of automaton states a set of rules. The cells are stored row by row.
-/

namespace GrammarRepair

structure Chart where
  states : Nat
  rules : Nat
  cells : Array NatSet
  deriving DecidableEq, Repr

namespace Chart

def blank (states rules : Nat) : Chart := ⟨states, rules, Array.replicate (states * states) .empty⟩

def slot (c : Chart) (p q : Nat) : Nat := p * c.states + q

def cell (c : Chart) (p q : Nat) : NatSet := c.cells.getD (c.slot p q) .empty

def has (c : Chart) (p rule q : Nat) : Bool := (c.cell p q).has rule

def setCell (c : Chart) (p q : Nat) (s : NatSet) : Chart :=
  { c with cells := c.cells.setIfInBounds (c.slot p q) s }

def put (c : Chart) (p rule q : Nat) : Chart := c.setCell p q ((c.cell p q).insert rule)

def members (c : Chart) (p q : Nat) : List Nat := (c.cell p q).below c.rules

def entryCount (c : Chart) : Nat :=
  c.cells.foldl (fun n s => n + (s.below c.rules).length) 0

def isEmpty (c : Chart) : Bool := c.cells.all (·.isEmpty)

def inBounds (c : Chart) (p q : Nat) : Bool := c.slot p q < c.cells.size

/-- Can the chart answer whether it has the entry? -/
def covers (c : Chart) (p rule q : Nat) : Bool :=
  c.inBounds p q && ((c.cell p q).isEmpty || rule < c.rules)

/-- The members of a cell, unless it is empty. -/
def cell? (c : Chart) (p q : Nat) : Except Fault (Option (List Nat)) :=
  if c.inBounds p q then
    .ok (if (c.cell p q).isEmpty then none else some (c.members p q))
  else .error .outOfRange

def has? (c : Chart) (p rule q : Nat) : Except Fault Bool :=
  if c.covers p rule q then .ok (c.has p rule q) else .error .outOfRange

theorem slot_lt {c : Chart} {p q : Nat} (hp : p < c.states) (hq : q < c.states) :
    c.slot p q < c.states * c.states := by
  have h : (p + 1) * c.states ≤ c.states * c.states := Nat.mul_le_mul_right _ hp
  rw [Nat.add_mul, Nat.one_mul] at h
  unfold slot
  omega

end Chart

end GrammarRepair
