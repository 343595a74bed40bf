import GrammarRepair.Exploration

/-!
Which nonterminals of a large grammar take part in a derivation of a string from one of several
starts. A production counts the parts that are still unable to derive a string; when none is left,
its head is able to.
-/

namespace GrammarRepair

namespace Marking

abbrev Pair := Nat × Nat × Nat

def marks (count : Nat) (xs : List Nat) : Array Bool :=
  xs.foldl (fun m x => m.setIfInBounds x true) (Array.replicate count false)

/-- For every nonterminal the productions that it is a part of, once for each time. -/
def occurrences (count : Nat) (pairs : Array Pair) : Array (List Nat) :=
  pairs.toList.zipIdx.foldl
    (fun occurs p =>
      (occurs.modify p.1.2.1 (p.2 :: ·)).modify p.1.2.2 (p.2 :: ·))
    (Array.replicate count [])

def bodies (count : Nat) (pairs : Array Pair) : Array (List (Nat × Nat)) :=
  pairs.toList.foldl (fun bodies p => bodies.modify p.1 (p.2 :: ·)) (Array.replicate count [])

/-- The parts that each production waits for, the nonterminals known to derive a string, and those
of them whose productions have not heard of it. -/
structure State where
  waiting : Array Nat
  able : Array Bool
  todo : List Nat
  deriving DecidableEq, Repr

namespace State

def note (s : State) (x : Nat) : State :=
  if s.able.getD x true then s else { s with able := s.able.setIfInBounds x true, todo := x :: s.todo }

def countDown (pairs : Array Pair) (s : State) (i : Nat) : State :=
  let left := s.waiting.getD i 0 - 1
  let s := { s with waiting := s.waiting.setIfInBounds i left }
  if left = 0 then
    match pairs[i]? with
    | some p => s.note p.1
    | none => s
  else s

def step (pairs : Array Pair) (occurs : Array (List Nat)) (s : State) : State :=
  match s.todo with
  | [] => s
  | y :: rest => (occurs.getD y []).foldl (countDown pairs) { s with todo := rest }

/-- At first all productions wait for both parts, and whatever has a token is able. -/
def start (count : Nat) (pairs : Array Pair) (terminals : Array (Nat × Nat)) : State :=
  terminals.toList.foldl (fun s p => s.note p.1)
    ⟨Array.replicate pairs.size 2, Array.replicate count false, []⟩

def run (pairs : Array Pair) (occurs : Array (List Nat)) : (steps : Nat) → State → State
  | 0, s => s
  | steps + 1, s => if s.todo.isEmpty then s else run pairs occurs steps (s.step pairs occurs)

end State

/-- The nonterminals that derive a string. Each is in line once. -/
def generating (count : Nat) (pairs : Array Pair) (terminals : Array (Nat × Nat)) : Array Bool :=
  (State.run pairs (occurrences count pairs) count (.start count pairs terminals)).able

def parts (able : Array Bool) (bodies : Array (List (Nat × Nat))) (x : Nat) : List Nat :=
  (bodies.getD x []).flatMap fun (y, z) =>
    if able.getD y false && able.getD z false then [y, z] else []

def useful (count : Nat) (starts : List Nat) (pairs : Array Pair)
    (terminals : Array (Nat × Nat)) : Array Bool :=
  let able := generating count pairs terminals
  marks count (explore (parts able (bodies count pairs)) count
    (starts.filter fun x => able.getD x false))

end Marking

end GrammarRepair
