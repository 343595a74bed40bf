/-!
Sources of random numbers. Whoever draws from one relies on nothing but that the number drawn is
below the bound.
-/

namespace GrammarRepair

/-- A way to draw numbers below a bound while a state of type `σ` is handed on. -/
structure Generator (σ : Type) where
  draw : (bound : Nat) → σ → Nat × σ
  draw_lt : ∀ (bound : Nat) (s : σ), 0 < bound → (draw bound s).1 < bound

end GrammarRepair
