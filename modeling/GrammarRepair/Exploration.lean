import Std.Data.HashSet

/-!
Everything that can be reached from given starting points by following successors, each item once.
The item met last is explored first.
-/

namespace GrammarRepair

namespace Exploration

variable {α : Type} [BEq α] [Hashable α]

/-- Items still to be explored, the next one first, and all items met so far. -/
structure Frontier (α : Type) [BEq α] [Hashable α] where
  todo : List α
  met : Std.HashSet α

def Frontier.meet (f : Frontier α) (x : α) : Frontier α :=
  if f.met.contains x then f else ⟨x :: f.todo, f.met.insert x⟩

def Frontier.meetAll (f : Frontier α) (xs : List α) : Frontier α := xs.foldl Frontier.meet f

def run (next : α → List α) : (steps : Nat) → Frontier α → List α
  | 0, _ => []
  | steps + 1, f =>
    match f.todo with
    | [] => []
    | x :: rest => x :: run next steps (Frontier.meetAll ⟨rest, f.met⟩ (next x))

end Exploration

/-- All items that `next` leads to from `starts`, in the order of exploration. No item is explored
twice, so as many steps as there are items are enough. -/
def explore {α : Type} [BEq α] [Hashable α] (next : α → List α) (items : Nat) (starts : List α) :
    List α :=
  Exploration.run next items (Exploration.Frontier.meetAll ⟨[], ∅⟩ starts)

end GrammarRepair
