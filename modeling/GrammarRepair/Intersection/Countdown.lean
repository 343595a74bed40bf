import GrammarRepair.Checked
import GrammarRepair.Intersection.Marking

/-!
The marking with tables of numbers and with counters. Productions are looked up by their numbers, each
under its parts and under its head, in the order of the productions. Every look-up is checked, and so is
every counter before it goes down.
-/

namespace GrammarRepair

namespace Marking

namespace Countdown

def indexed (count : Nat) (entries : List (Nat × Nat)) : Checked (Array (List Nat)) :=
  entries.foldlM (fun table e => do Checked.put table e.1 ((← Checked.entry table e.1) ++ [e.2]))
    (Array.replicate count [])

/-- The productions that each nonterminal is a part of, once for each time. -/
def occurrences (count : Nat) (pairs : Array Pair) : Checked (Array (List Nat)) :=
  indexed count (pairs.toList.zipIdx.flatMap fun p => [(p.1.2.1, p.2), (p.1.2.2, p.2)])

def owned (count : Nat) (pairs : Array Pair) : Checked (Array (List Nat)) :=
  indexed count (pairs.toList.zipIdx.map fun p => (p.1.1, p.2))

def note (s : State) (x : Nat) : Checked State := do
  if ← Checked.entry s.able x then pure s
  else pure { s with able := ← Checked.put s.able x true, todo := x :: s.todo }

def countDown (pairs : Array Pair) (s : State) (i : Nat) : Checked State := do
  let left ← Checked.minus (← Checked.entry s.waiting i) 1
  let waiting ← Checked.put s.waiting i left
  let p ← Checked.entry pairs i
  if left = 0 then note { s with waiting } p.1 else pure { s with waiting }

/-- Tells the productions of every nonterminal in line, which is to take at most `steps` of them. -/
def run (pairs : Array Pair) (occurs : Array (List Nat)) : (steps : Nat) → State → Checked State
  | 0, s => if s.todo.isEmpty then pure s else .error .unfinished
  | steps + 1, s =>
    match s.todo with
    | [] => pure s
    | y :: rest => do
      let s ← (← Checked.entry occurs y).foldlM (countDown pairs) { s with todo := rest }
      run pairs occurs steps s

def generating (count : Nat) (pairs : Array Pair) (terminals : Array (Nat × Nat)) :
    Checked (Array Bool) := do
  let occurs ← occurrences count pairs
  let start ← terminals.toList.foldlM (fun s p => note s p.1)
    ⟨Array.replicate pairs.size 2, Array.replicate count false, []⟩
  let s ← run pairs occurs count start
  pure s.able

/-- The parts of the productions of `x`, those left out that cannot be completed. -/
def parts (able : Array Bool) (pairs : Array Pair) (owned : Array (List Nat)) (x : Nat) :
    Checked (List Nat) := do
  let found ← (← Checked.entry owned x).mapM fun i => do
    let p ← Checked.entry pairs i
    if ← Checked.entry able p.2.1 then
      if ← Checked.entry able p.2.2 then pure [p.2.1, p.2.2] else pure []
    else pure []
  pure found.flatten

def ableStarts (able : Array Bool) (starts : List Nat) : Checked (List Nat) := do
  let found ← starts.mapM fun x => do pure (if ← Checked.entry able x then [x] else [])
  pure found.flatten

/-- The nonterminals that derive a string and that some start which derives one leads to. -/
def useful (count : Nat) (starts : List Nat) (pairs : Array Pair)
    (terminals : Array (Nat × Nat)) : Checked (Array Bool) := do
  let able ← generating count pairs terminals
  let owned ← owned count pairs
  let starts ← ableStarts able starts
  pure (marks count (← Checked.explore (parts able pairs owned) count starts))

end Countdown

end Marking

end GrammarRepair
