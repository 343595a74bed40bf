import GrammarRepair.Proofs.Forest.Bracketing
import GrammarRepair.Proofs.Forest.Decoding
import Mathlib.Data.Nat.Choose.Central

/-!
Numbers of derivations at the greatest count. Main statement: every number below the count of a forest
leads to a whole tree of one of the roots, and among the numbers that fit there is but one above them
that may do so as well: the greatest, which is the count itself where the roots have more derivations
than fit.
-/

namespace GrammarRepair

open Saturating

/-- Of the numbers that fit, those below the count of a forest have a derivation, and so has the
greatest if the counts of the roots have a greater sum than fits. A derivation has the tokens of the
whole tree that the number leads to in one of the roots. -/
theorem derivation_of_number {f : Forest} {k : Nat} (hk : k ≤ limit) :
    ((f.derivation? k).isSome = true ↔ k < f.count ∨ k = limit ∧ limit < f.rootSum) ∧
      ∀ w, f.derivation? k = some w →
        ∃ x ∈ f.roots, ∃ j t, f.Decodes x j t ∧ t ∈ f.treesOf x ∧ t.tokens = w := by
  constructor
  · rw [Forest.isSome_derivation?_iff, Forest.count_eq_min]
    omega
  · intro w hw
    obtain ⟨x, hx, j, t, hdecodes, htokens⟩ := Forest.exists_decodes_of_derivation? hw
    exact ⟨x, hx, j, t, hdecodes, hdecodes.mem_treesOf, htokens⟩

/-- Seventy-two tokens have more bracketings than are counted to. -/
theorem limit_le_catalan : limit ≤ catalan 71 := by
  have hpow : 4 ^ 71 ≤ 2 * 71 * Nat.centralBinom 71 :=
    Nat.four_pow_le_two_mul_self_mul_centralBinom 71 (by decide)
  have hbinom := succ_mul_catalan_eq_centralBinom 71
  rw [← hbinom] at hpow
  have hlimit : 2 * 71 * (71 + 1) * limit ≤ 4 ^ 71 := by decide
  have hpos : 0 < 2 * 71 * (71 + 1) := by decide
  refine Nat.le_of_mul_le_mul_left ?_ hpos
  omega

section

variable {f : Forest} {n : Nat} {finals : List Nat} {hfinals : ∀ q ∈ finals, q ≤ n}

theorem agrees_counts_line (h : f.IsFull bracketing (line n finals hfinals)) (hfinal : n ∈ finals)
    {q d : Nat} (hq : q = d + 1) (hle : q ≤ n) : Agrees (f.counts.getD
      ((Constituent.neededOrder bracketing (line n finals hfinals)).idxOf ⟨0, 0, q⟩) 0)
      (catalan d) := by
  subst hq
  have hlength := length_treesFor_line h hfinal (p := 0) (d := d) (by omega)
  rw [Nat.zero_add] at hlength
  rw [← hlength]
  exact Forest.agrees_counts _

end

/-- A second final state, next to the start, adds one derivation to those over the whole line. -/
theorem exists_rootSum_gt :
    ∃ f, (forest bracketing (line 72 [1, 72] (by decide)) none).value = .ok (some f) ∧
      limit < f.rootSum := by
  obtain ⟨f, hforest, hfull⟩ := exists_forest_line 72 [1, 72] (by decide) (by decide)
    (by decide)
  have hroots := (roots_line hfull (by decide) (by decide) (by decide)).map
    fun x => f.counts.getD x 0
  have hsum : f.rootSum = _ := hroots.sum_eq
  obtain ⟨-, hfirst⟩ := agrees_counts_line hfull (by decide) (q := 1) rfl (by decide)
  obtain ⟨-, hlast⟩ := agrees_counts_line hfull (by decide) (q := 72) rfl (by decide)
  have hlimit := limit_le_catalan
  have hpos : 1 < limit := by decide
  rw [catalan_zero] at hfirst
  simp only [List.map_cons, List.map_nil, List.sum_cons, List.sum_nil] at hsum
  refine ⟨f, hforest, ?_⟩
  omega

/-- The count of a forest is no bound for the numbers of its derivations. -/
theorem exists_derivation_at_count :
    ∃ f, (forest bracketing (line 72 [1, 72] (by decide)) none).value = .ok (some f) ∧
      ¬ limit < f.count ∧ (f.derivation? limit).isSome = true := by
  obtain ⟨f, hforest, hsum⟩ := exists_rootSum_gt
  refine ⟨f, hforest, ?_, Forest.isSome_derivation?_iff.2 hsum⟩
  rw [Forest.count_eq_min]
  omega

/-- The last number below the count leads to a tree, and so does the count. -/
theorem derivation_of_number_line :
    ∃ f, (forest bracketing (line 72 [1, 72] (by decide)) none).value = .ok (some f) ∧
      limit - 1 ≤ limit ∧ limit ≤ limit ∧ f.count = limit ∧
      (∃ x ∈ f.roots, ∃ j t, f.Decodes x j t ∧ f.derivation? (limit - 1) = some t.tokens) ∧
      ∃ x ∈ f.roots, ∃ j t, f.Decodes x j t ∧ f.derivation? limit = some t.tokens := by
  obtain ⟨f, hforest, hsum⟩ := exists_rootSum_gt
  have hcount : f.count = limit := by
    rw [Forest.count_eq_min]
    exact Nat.min_eq_right (Nat.le_of_lt hsum)
  have hpos : 0 < limit := by decide
  obtain ⟨hbelow, hbelowTree⟩ := derivation_of_number (f := f) (Nat.sub_le limit 1)
  obtain ⟨hlast, hlastTree⟩ := derivation_of_number (f := f) (Nat.le_refl limit)
  obtain ⟨v, hv⟩ := Option.isSome_iff_exists.1 (hbelow.2 (.inl (by omega)))
  obtain ⟨w, hw⟩ := Option.isSome_iff_exists.1 (hlast.2 (.inr ⟨rfl, hsum⟩))
  obtain ⟨x, hx, j, t, hdecodes, -, rfl⟩ := hbelowTree v hv
  obtain ⟨y, hy, i, u, hdecodes', -, rfl⟩ := hlastTree w hw
  exact ⟨f, hforest, Nat.sub_le limit 1, Nat.le_refl limit, hcount, ⟨x, hx, j, t, hdecodes, hv⟩,
    y, hy, i, u, hdecodes', hw⟩

end GrammarRepair
