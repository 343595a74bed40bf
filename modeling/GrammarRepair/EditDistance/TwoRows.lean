import GrammarRepair.Checked
import GrammarRepair.EditDistance.Distance

/-!
The table of edit distances in two rows of memory. One row is complete. The next one is written over
the row before it, from left to right, and then the two change places; until an entry is written, an
entry of an older row stands there. Every look and every write is checked.
-/

namespace GrammarRepair

namespace EditDistance

/-- The last row that is complete, and the memory for the next one. -/
structure TwoRows where
  previous : Array Nat
  current : Array Nat
  deriving DecidableEq, Repr

namespace TwoRows

variable {α : Type} [DecidableEq α]

def fillEntry (x : α) (t : TwoRows) (item : α × Nat) : Checked TwoRows := do
  let (y, j) := item
  let diagonal ← Checked.entry t.previous j
  let above ← Checked.entry t.previous (j + 1)
  let left ← Checked.entry t.current j
  let entry := min (min (diagonal + if x = y then 0 else 1) (above + 1)) (left + 1)
  pure { t with current := ← Checked.put t.current (j + 1) entry }

def fillRow (w : List α) (t : TwoRows) (item : α × Nat) : Checked TwoRows := do
  let (x, i) := item
  let opened := { t with current := ← Checked.put t.current 0 (i + 1) }
  let filled ← w.zipIdx.foldlM (fillEntry x) opened
  pure ⟨filled.current, filled.previous⟩

def start (w : List α) : TwoRows :=
  ⟨Array.range (w.length + 1), Array.replicate (w.length + 1) 0⟩

def distance (v w : List α) : Checked Nat := do
  let t ← v.zipIdx.foldlM (fillRow w) (start w)
  Checked.entry t.previous w.length

end TwoRows

end EditDistance

end GrammarRepair
