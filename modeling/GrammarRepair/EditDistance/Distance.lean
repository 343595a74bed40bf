/-!
Edit distance: the least number of insertions, deletions and replacements that turn one sequence
into another. Alignments and scripts are the relations, rows of a table the computation.
-/

namespace GrammarRepair

/-- `Alignment mayAdd v w n`: `v` becomes `w` by `n` edits, all items that are inserted, or put in
place of others, being among those that may be added. -/
inductive Alignment {α : Type} (mayAdd : α → Prop) : List α → List α → Nat → Prop
  | nil : Alignment mayAdd [] [] 0
  | keep (x : α) {v w : List α} {n : Nat} (h : Alignment mayAdd v w n) :
      Alignment mayAdd (x :: v) (x :: w) n
  | replace (x y : α) {v w : List α} {n : Nat} (hy : mayAdd y) (h : Alignment mayAdd v w n) :
      Alignment mayAdd (x :: v) (y :: w) (n + 1)
  | insert (y : α) {v w : List α} {n : Nat} (hy : mayAdd y) (h : Alignment mayAdd v w n) :
      Alignment mayAdd v (y :: w) (n + 1)
  | delete (x : α) {v w : List α} {n : Nat} (h : Alignment mayAdd v w n) :
      Alignment mayAdd (x :: v) w (n + 1)

/-- One edit, anywhere in a sequence. -/
inductive Edit {α : Type} : List α → List α → Prop
  | insert (p q : List α) (y : α) : Edit (p ++ q) (p ++ y :: q)
  | delete (p q : List α) (x : α) : Edit (p ++ x :: q) (p ++ q)
  | replace (p q : List α) (x y : α) : Edit (p ++ x :: q) (p ++ y :: q)

/-- `Script v w n`: `v` becomes `w` by `n` edits, one after another. -/
inductive Script {α : Type} : List α → List α → Nat → Prop
  | done (v : List α) : Script v v 0
  | step {u v w : List α} {n : Nat} (he : Edit u v) (h : Script v w n) : Script u w (n + 1)

namespace EditDistance

variable {α : Type} [DecidableEq α]

/-- The rest of a row of the table. The row belongs to the item `x`; `diagonal` and `left` are the
neighbours of the next entry, and the list holds what is left of the row before. -/
def fillRow (x : α) : List α → (diagonal left : Nat) → List Nat → List Nat
  | y :: ys, diagonal, left, above :: row =>
    let entry := min (min (diagonal + if x = y then 0 else 1) (above + 1)) (left + 1)
    entry :: fillRow x ys above entry row
  | _, _, _, _ => []

def nextRow (w : List α) (row : List Nat) (x : α) : List Nat :=
  match row with
  | [] => []
  | first :: rest => (first + 1) :: fillRow x w first (first + 1) rest

/-- The row that belongs to `v`: the distances from `v` to all beginnings of `w`. -/
def lastRow (v w : List α) : List Nat := v.foldl (nextRow w) (List.range (w.length + 1))

end EditDistance

def editDistance {α : Type} [DecidableEq α] (v w : List α) : Nat :=
  (EditDistance.lastRow v w).getLastD 0

end GrammarRepair
