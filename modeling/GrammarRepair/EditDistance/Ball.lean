import GrammarRepair.Automaton.Basic

/-!
Edit-distance balls: automata that accept what is within a given number of edits of an input. At the
point `q_i/j` the first `i` tokens of the input are dealt with, at the cost of `j` edits. There are
no steps that read nothing, so tokens are deleted together with the kept token that follows them, or
at the very end.
-/

namespace GrammarRepair

namespace Ball

/-- Keeping the next token of the input after deleting `k` others. -/
def keepSteps (tokens : List Nat) (radius i j : Nat) : List Transition :=
  ((tokens.drop i).zipIdx.take (radius - j + 1)).map fun (t, k) =>
    ⟨.grid i j, t, .grid (i + k + 1) (j + k)⟩

/-- Replacing the next token of the input, or inserting one before it. -/
def editSteps (tokens : List Nat) (radius : Nat) (alphabet : List Nat) (i j : Nat) :
    List Transition :=
  if j < radius then
    alphabet.flatMap fun t =>
      let insertion : Transition := ⟨.grid i j, t, .grid i (j + 1)⟩
      if i < tokens.length then [⟨.grid i j, t, .grid (i + 1) (j + 1)⟩, insertion] else [insertion]
  else []

def points (tokens : List Nat) (radius : Nat) : List (Nat × Nat) :=
  (List.range (tokens.length + 1)).flatMap fun i => (List.range (radius + 1)).map fun j => (i, j)

def transitions (tokens : List Nat) (radius : Nat) (alphabet : List Nat) : List Transition :=
  (points tokens radius).flatMap fun (i, j) =>
    keepSteps tokens radius i j ++ editSteps tokens radius alphabet i j

/-- The points from which what is left of the input may be deleted. -/
def finals (tokens : List Nat) (radius : Nat) : List Label :=
  ((points tokens radius).filter fun (i, j) => tokens.length - i + j ≤ radius).map fun (i, j) =>
    .grid i j

/-- Every step leads from one antidiagonal to a later one. -/
theorem exists_grid_of_mem {tokens : List Nat} {radius : Nat} {alphabet : List Nat}
    {t : Transition} (h : t ∈ transitions tokens radius alphabet) :
    ∃ i j i' j', t.source = .grid i j ∧ t.target = .grid i' j' ∧ i ≤ i' ∧ j ≤ j' ∧
      i + j < i' + j' := by
  simp only [transitions, List.mem_flatMap, List.mem_append] at h
  obtain ⟨⟨i, j⟩, -, h | h⟩ := h
  · simp only [keepSteps, List.mem_map] at h
    obtain ⟨⟨x, k⟩, -, rfl⟩ := h
    exact ⟨i, j, i + k + 1, j + k, rfl, rfl, by omega, by omega, by omega⟩
  · simp only [editSteps] at h
    split at h
    · simp only [List.mem_flatMap] at h
      obtain ⟨x, -, h⟩ := h
      split at h
      · simp only [List.mem_cons, List.not_mem_nil, or_false] at h
        rcases h with rfl | rfl
        · exact ⟨i, j, i + 1, j + 1, rfl, rfl, by omega, by omega, by omega⟩
        · exact ⟨i, j, i, j + 1, rfl, rfl, by omega, by omega, by omega⟩
      · rw [List.mem_singleton] at h
        subst h
        exact ⟨i, j, i, j + 1, rfl, rfl, by omega, by omega, by omega⟩
    · cases h

theorem followsGrid_transitions (tokens : List Nat) (radius : Nat) (alphabet : List Nat) :
    Transition.followsGrid (transitions tokens radius alphabet)
      (Transition.mentioned (transitions tokens radius alphabet) [.grid 0 0]
        (finals tokens radius)) = true := by
  rw [Transition.followsGrid, Bool.and_eq_true, List.all_eq_true, List.all_eq_true]
  constructor
  · intro l hl
    simp only [Transition.mentioned, mem_distinct, List.mem_append, List.mem_flatMap,
      List.mem_singleton] at hl
    rcases hl with (⟨t, ht, hl⟩ | rfl) | hl
    · obtain ⟨i, j, i', j', hs, htgt, -⟩ := exists_grid_of_mem ht
      simp only [List.mem_cons, List.not_mem_nil, or_false] at hl
      rcases hl with rfl | rfl
      · rw [hs]
        rfl
      · rw [htgt]
        rfl
    · rfl
    · simp only [finals, List.mem_map] at hl
      obtain ⟨⟨i, j⟩, -, rfl⟩ := hl
      rfl
  · intro t ht
    obtain ⟨i, j, i', j', hs, htgt, -, -, hlt⟩ := exists_grid_of_mem ht
    rw [Label.sweptBefore_iff, hs, htgt]
    exact Or.inl hlt

end Ball

/-- The ball around `tokens`, where only tokens of `alphabet` may be inserted, or put in place of
others. -/
def ball (tokens : List Nat) (radius : Nat) (alphabet : List Nat) : Traced Automaton :=
  Automaton.ofGrid (Ball.transitions tokens radius (distinct alphabet)) [.grid 0 0]
    (Ball.finals tokens radius) (Ball.followsGrid_transitions _ _ _)

end GrammarRepair
