import GrammarRepair.Random.Generator

/-!
SplitMix64 and even draws from it. A draw scales a 128-bit number to the bound and starts over when
the remainder shows that the number would favour some results.
-/

namespace GrammarRepair

namespace SplitMix

def next (state : UInt64) : UInt64 × UInt64 :=
  let state := state + 0x9E3779B97F4A7C15
  let z := (state ^^^ (state >>> 30)) * 0xBF58476D1CE4E5B9
  let z := (z ^^^ (z >>> 27)) * 0x94D049BB133111EB
  (z ^^^ (z >>> 31), state)

def wordRange : Nat := 18446744073709551616

def wideRange : Nat := 340282366920938463463374607431768211456

theorem wideRange_eq : wideRange = wordRange * wordRange := by decide

/-- The next two words as one number; the first word makes up the low half. -/
def nextWide (state : UInt64) : Nat × UInt64 :=
  let (low, state) := next state
  let (high, state) := next state
  (high.toNat * wordRange + low.toNat, state)

theorem nextWide_lt (state : UInt64) : (nextWide state).1 < wideRange := by
  have hl := (next state).1.toNat_lt
  have hh := (next (next state).2).1.toNat_lt
  simp only [nextWide, wordRange, wideRange]
  omega

/-- The greatest remainder that is let through: the bound, shifted up to 128 bits, less one. -/
def zone (bound : Nat) : Nat := (bound <<< (127 - bound.log2)) - 1

/-- Draws until a number is let through, at most `rounds` times. -/
def drawWithin (bound : Nat) : (rounds : Nat) → UInt64 → Nat × UInt64
  | 0, state => (0, state)
  | rounds + 1, state =>
    let drawn := nextWide state
    let scaled := drawn.1 * bound
    if scaled % wideRange ≤ zone bound then (scaled / wideRange, drawn.2)
    else drawWithin bound rounds drawn.2

theorem drawWithin_lt {bound : Nat} (h : 0 < bound) (rounds : Nat) (state : UInt64) :
    (drawWithin bound rounds state).1 < bound := by
  induction rounds generalizing state with
  | zero => exact h
  | succ rounds ih =>
    simp only [drawWithin]
    split
    · refine (Nat.div_lt_iff_lt_mul (by decide)).2 ?_
      rw [Nat.mul_comm bound]
      exact Nat.mul_lt_mul_of_pos_right (nextWide_lt state) h
    · exact ih _

/-- The states form one cycle, of which a round uses two; drawing for more rounds than half the
cycle would only repeat them. -/
def generator : Generator UInt64 where
  draw bound := drawWithin bound (wordRange / 2)
  draw_lt _ _ h := drawWithin_lt h _ _

def seed (n : Nat) : UInt64 := UInt64.ofNat n

end SplitMix

end GrammarRepair
