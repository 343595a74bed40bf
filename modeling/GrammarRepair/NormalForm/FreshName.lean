/-!
Names for rules that the author did not write.
-/

namespace GrammarRepair

namespace NormalForm

/-- The first of `base`, `base~`, `base~~`, … that is not taken. Of the taken names only longer
ones can matter once `base` has been refused. -/
def freshName (taken : List String) (base : String) : String :=
  if _h : base ∈ taken then freshName (taken.erase base) (base ++ "~") else base
termination_by taken.length
decreasing_by
  have := List.length_pos_of_mem _h
  rw [List.length_erase_of_mem _h]
  omega

theorem freshName_of_not_mem {taken : List String} {base : String} (h : base ∉ taken) :
    freshName taken base = base := by
  rw [freshName, dif_neg h]

theorem length_le_freshName (taken : List String) (base : String) :
    base.length ≤ (freshName taken base).length := by
  fun_induction freshName taken base with
  | case1 taken base h ih =>
    rw [String.length_append] at ih
    omega
  | case2 taken base h => exact Nat.le_refl _

theorem freshName_not_mem (taken : List String) (base : String) : freshName taken base ∉ taken := by
  fun_induction freshName taken base with
  | case1 taken base h ih =>
    intro hmem
    have hlen := length_le_freshName (taken.erase base) (base ++ "~")
    rw [String.length_append, show "~".length = 1 from rfl] at hlen
    refine ih ((List.mem_erase_of_ne ?_).2 hmem)
    intro heq
    rw [heq] at hlen
    omega
  | case2 taken base h => exact h

end NormalForm

end GrammarRepair
