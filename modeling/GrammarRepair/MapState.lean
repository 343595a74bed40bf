/-!
Mapping over a list while a state is handed from one item to the next.
-/

namespace GrammarRepair

def mapState {α β σ : Type} (f : α → σ → β × σ) : List α → σ → List β × σ
  | [], s => ([], s)
  | x :: xs, s =>
    let (y, s') := f x s
    let (ys, s'') := mapState f xs s'
    (y :: ys, s'')

variable {α β σ : Type} (f : α → σ → β × σ)

@[simp] theorem mapState_nil (s : σ) : mapState f [] s = ([], s) := rfl

theorem mapState_cons (x : α) (xs : List α) (s : σ) :
    mapState f (x :: xs) s =
      ((f x s).1 :: (mapState f xs (f x s).2).1, (mapState f xs (f x s).2).2) := rfl

@[simp] theorem length_mapState (xs : List α) (s : σ) :
    (mapState f xs s).1.length = xs.length := by
  induction xs generalizing s with
  | nil => rfl
  | cons x xs ih => simp [mapState_cons, ih]

theorem mapState_invariant {P : σ → Prop} (hf : ∀ x s, P s → P (f x s).2) (xs : List α) (s : σ)
    (hs : P s) : P (mapState f xs s).2 := by
  induction xs generalizing s with
  | nil => exact hs
  | cons x xs ih => exact ih _ (hf x s hs)

end GrammarRepair
