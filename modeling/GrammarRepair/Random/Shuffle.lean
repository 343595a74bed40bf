import Std.Data.HashMap

/-!
Drawing the numbers below a bound in random order, each once. Think of them as laid out in a row: a
number is taken out, and the last one moves into its place. Only the places where something has
moved are stored.
-/

namespace GrammarRepair

structure Shuffle where
  remaining : Nat
  moved : Std.HashMap Nat Nat

namespace Shuffle

def start (n : Nat) : Shuffle := ⟨n, ∅⟩

def entry (s : Shuffle) (i : Nat) : Nat := s.moved.getD i i

/-- The numbers that are left, place by place. -/
def toList (s : Shuffle) : List Nat := (List.range s.remaining).map s.entry

def take (s : Shuffle) (i : Nat) : Nat × Shuffle :=
  let last := s.remaining - 1
  let taken := s.entry i
  let filler := s.entry last
  let rest := s.moved.erase last
  (taken, ⟨last, if i = last then rest else rest.insert i filler⟩)

@[simp] theorem remaining_start (n : Nat) : (start n).remaining = n := rfl

@[simp] theorem fst_take (s : Shuffle) (i : Nat) : (s.take i).1 = s.entry i := rfl

@[simp] theorem remaining_take (s : Shuffle) (i : Nat) :
    (s.take i).2.remaining = s.remaining - 1 := rfl

end Shuffle

end GrammarRepair
