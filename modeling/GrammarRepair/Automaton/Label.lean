/-!
Labels of automaton states. The states of an edit-distance automaton are points of a grid: so many
tokens of the input used up, so many edits spent. All other states have plain numbers.
-/

namespace GrammarRepair

inductive Label
  | plain (n : Nat)
  | grid (i j : Nat)
  deriving DecidableEq, Hashable, Repr

namespace Label

def isGrid : Label → Bool
  | plain _ => false
  | grid _ _ => true

/-- Is the first point nowhere beyond the second? Plain labels are beyond everything. -/
def dominates : Label → Label → Bool
  | grid i j, grid i' j' => i ≤ i' && j ≤ j'
  | _, _ => false

def antidiagonal? : Label → Option Nat
  | plain _ => none
  | grid i j => some (i + j)

/-- Plain labels come before grid points; otherwise numbers decide, from left to right. -/
def order : Label → Label → Ordering
  | plain m, plain n => compare m n
  | plain _, grid _ _ => .lt
  | grid _ _, plain _ => .gt
  | grid i j, grid i' j' => (compare i i').then (compare j j')

def text : Label → String
  | plain n => "q_" ++ toString n
  | grid i j => "q_" ++ toString i ++ "/" ++ toString j

/-- The place of a point when the grid is read by antidiagonals, and along each by its first
coordinate. -/
def sweepKey : Label → Nat × Nat
  | plain n => (n, n)
  | grid i j => (i + j, i)

def sweptBefore (a b : Label) : Bool :=
  a.sweepKey.1 < b.sweepKey.1 || (a.sweepKey.1 == b.sweepKey.1 && a.sweepKey.2 < b.sweepKey.2)

def notSweptAfter (a b : Label) : Bool := !sweptBefore b a

theorem sweptBefore_iff (a b : Label) : sweptBefore a b = true ↔
    a.sweepKey.1 < b.sweepKey.1 ∨ a.sweepKey.1 = b.sweepKey.1 ∧ a.sweepKey.2 < b.sweepKey.2 := by
  simp [sweptBefore]

theorem notSweptAfter_iff (a b : Label) : notSweptAfter a b = true ↔
    a.sweepKey.1 < b.sweepKey.1 ∨ a.sweepKey.1 = b.sweepKey.1 ∧ a.sweepKey.2 ≤ b.sweepKey.2 := by
  rw [notSweptAfter, Bool.not_eq_true', ← Bool.not_eq_true, sweptBefore_iff]
  omega

theorem notSweptAfter_trans (a b c : Label) (hab : notSweptAfter a b = true)
    (hbc : notSweptAfter b c = true) : notSweptAfter a c = true := by
  rw [notSweptAfter_iff] at *
  omega

theorem notSweptAfter_total (a b : Label) : (notSweptAfter a b || notSweptAfter b a) = true := by
  rw [Bool.or_eq_true, notSweptAfter_iff, notSweptAfter_iff]
  omega

end Label

end GrammarRepair
