import GrammarRepair.Span

/-!
A place in a text that is being read: how many bytes lie behind it and which characters lie ahead.
A cursor only ever moves by whole characters, so it stays on a character boundary.
-/

namespace GrammarRepair

structure Cursor where
  offset : Nat
  ahead : List Char
  deriving DecidableEq, Repr

namespace Cursor

def start (text : String) : Cursor := ⟨0, text.toList⟩

/-- Moves past the next `n` characters, or to the end if there are fewer. -/
def skip (c : Cursor) (n : Nat) : Cursor :=
  ⟨c.offset + byteLength (c.ahead.take n), c.ahead.drop n⟩

def sees (c : Cursor) (word : String) : Bool := word.toList.isPrefixOf c.ahead

def atEnd (c : Cursor) : Bool := c.ahead.isEmpty

@[simp] theorem skip_zero (c : Cursor) : c.skip 0 = c := by simp [skip]

@[simp] theorem ahead_skip (c : Cursor) (n : Nat) : (c.skip n).ahead = c.ahead.drop n := rfl

theorem skip_skip (c : Cursor) (m n : Nat) : (c.skip m).skip n = c.skip (m + n) := by
  simp only [skip, Cursor.mk.injEq, List.drop_drop, and_true]
  rw [Nat.add_assoc, ← byteLength_append, ← List.take_add]

theorem offset_le_skip (c : Cursor) (n : Nat) : c.offset ≤ (c.skip n).offset :=
  Nat.le_add_right _ _

theorem length_skip (c : Cursor) (n : Nat) : (c.skip n).ahead.length = c.ahead.length - n := by
  simp

theorem length_skip_lt {c : Cursor} {n : Nat} (hn : 0 < n) (hc : c.ahead ≠ []) :
    (c.skip n).ahead.length < c.ahead.length := by
  have := List.length_pos_iff.2 hc
  rw [length_skip]
  omega

def spanOf (c : Cursor) (n : Nat) : Span := ⟨c.offset, (c.skip n).offset, c.offset_le_skip n⟩

def text (c : Cursor) (n : Nat) : String := String.ofList (c.ahead.take n)

end Cursor

end GrammarRepair
