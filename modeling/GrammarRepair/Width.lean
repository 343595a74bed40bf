import GrammarRepair.Fault

/-!
Index widths. Rules, tokens and productions are numbered by unsigned integers of a fixed width, and
whatever cannot be numbered is refused.
-/

namespace GrammarRepair

inductive Width
  | w8 | w16 | w32 | w64
  deriving DecidableEq, Repr

namespace Width

def bits : Width → Nat
  | w8 => 8
  | w16 => 16
  | w32 => 32
  | w64 => 64

/-- The largest index of this width; also the largest number of things it is trusted to number. -/
def maxIndex : Width → Nat
  | w8 => 255
  | w16 => 65535
  | w32 => 4294967295
  | w64 => 18446744073709551615

theorem maxIndex_eq (w : Width) : w.maxIndex = (1 <<< w.bits) - 1 := by cases w <;> decide

theorem maxIndex_pos (w : Width) : 0 < w.maxIndex := by cases w <;> decide

/-- An index of this width read back as a 32-bit number: only widths up to 32 bits allow it. -/
def index32? (w : Width) (value : Nat) : Except Fault Nat :=
  if w.bits ≤ 32 then .ok value else .error .outOfRange

/-- States are always numbered in 32 bits. -/
def stateIndex? (value : Nat) : Except Fault Nat :=
  if value ≤ w32.maxIndex then .ok value else .error .stateOverflow

end Width

end GrammarRepair
