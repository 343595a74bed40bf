import GrammarRepair.Grammar.Basic

/-!
What a grammar means: which strings of tokens a rule derives.
-/

namespace GrammarRepair

namespace Grammar

/-- `g.Derives a w`: rule `a` derives the string `w`. -/
inductive Derives (g : Grammar) : Nat → List Nat → Prop
  | token {a t : Nat} (h : ⟨a, .token t⟩ ∈ g.productions.toList) : Derives g a [t]
  | pair {a b c : Nat} {v w : List Nat} (h : ⟨a, .pair b c⟩ ∈ g.productions.toList)
      (hv : Derives g b v) (hw : Derives g c w) : Derives g a (v ++ w)

/-- The sentences of a grammar are what its start rule derives. -/
def IsSentence (g : Grammar) (w : List Nat) : Prop := g.Derives g.start w

theorem Derives.ne_nil {g : Grammar} {a : Nat} {w : List Nat} (h : g.Derives a w) : w ≠ [] := by
  induction h with
  | token h => simp
  | pair h hv hw ihv ihw => simp [ihv]

end Grammar

end GrammarRepair
