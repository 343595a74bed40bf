/-!
Sorted lists without repetition.
-/

namespace GrammarRepair

def dropRepeats {α : Type} [DecidableEq α] : List α → List α
  | [] => []
  | [x] => [x]
  | x :: y :: rest => if x = y then dropRepeats (y :: rest) else x :: dropRepeats (y :: rest)

@[simp] theorem mem_dropRepeats {α : Type} [DecidableEq α] (xs : List α) (a : α) :
    a ∈ dropRepeats xs ↔ a ∈ xs := by
  fun_induction dropRepeats xs with
  | case1 => simp
  | case2 => simp
  | case3 x rest ih =>
    rw [ih]
    simp
  | case4 x y rest h ih =>
    rw [List.mem_cons, ih, List.mem_cons (l := y :: rest)]

def sortedDistinct {α : Type} [DecidableEq α] (le : α → α → Bool) (xs : List α) : List α :=
  dropRepeats (xs.mergeSort le)

@[simp] theorem mem_sortedDistinct {α : Type} [DecidableEq α] (le : α → α → Bool) (xs : List α)
    (a : α) : a ∈ sortedDistinct le xs ↔ a ∈ xs := by
  rw [sortedDistinct, mem_dropRepeats, List.mem_mergeSort]

end GrammarRepair
