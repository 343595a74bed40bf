import GrammarRepair.Exploration
import GrammarRepair.Fault

/-!
Steps that take something for granted: that an offset is a character boundary, that a name was
entered before, that a loop comes to its end. A checked step looks, and reports a slip where it
finds itself mistaken. No input ought to bring about a slip.
-/

namespace GrammarRepair

/-- A slice is bad if it is not all there, begins or ends inside a character, or ends before it
begins. A shape is bad that earlier passes leave none of, and so are places without names. -/
inductive Slip
  | badSlice (start stop : Nat)
  | noCharacter (offset : Nat)
  | noProgress (offset : Nat)
  | unfinished
  | noEntry (index : Nat)
  | noName (name : String)
  | noNode (source rule target : Nat)
  | belowZero (minuend subtrahend : Nat)
  | badShape
  | refused (fault : Fault)
  deriving DecidableEq, Repr

abbrev Checked := Except Slip

namespace Checked

def entry {α : Type} (xs : Array α) (i : Nat) : Checked α :=
  match xs[i]? with
  | some x => .ok x
  | none => .error (.noEntry i)

def put {α : Type} (xs : Array α) (i : Nat) (x : α) : Checked (Array α) :=
  if i < xs.size then .ok (xs.setIfInBounds i x) else .error (.noEntry i)

def minus (m n : Nat) : Checked Nat :=
  if n ≤ m then .ok (m - n) else .error (.belowZero m n)

def place (names : List String) (name : String) : Checked Nat :=
  match names.idxOf? name with
  | some i => .ok i
  | none => .error (.noName name)

def accepted {α : Type} : Except Fault α → Checked α
  | .ok x => .ok x
  | .error fault => .error (.refused fault)

/-- Applies `f` until nothing changes any more, which is to happen within `steps` times. -/
def settle {α : Type} [DecidableEq α] (f : α → Checked α) : (steps : Nat) → α → Checked α
  | 0, _ => .error .unfinished
  | steps + 1, x => do
    let y ← f x
    if y = x then pure x else settle f steps y

section

open Exploration

variable {α : Type} [BEq α] [Hashable α] (next : α → Checked (List α))

def run : (steps : Nat) → Frontier α → Checked (List α)
  | 0, f => if f.todo.isEmpty then pure [] else .error .unfinished
  | steps + 1, f =>
    match f.todo with
    | [] => pure []
    | x :: rest => do
      let later ← run steps (Frontier.meetAll ⟨rest, f.met⟩ (← next x))
      pure (x :: later)

/-- All items that `next` leads to from `starts`, which are to be no more than `items`. -/
def explore (items : Nat) (starts : List α) : Checked (List α) :=
  run next items (Frontier.meetAll ⟨[], ∅⟩ starts)

end

end Checked

end GrammarRepair
