import GrammarRepair.Sorted
import Mathlib.Data.Set.Card

/-!
Lists without repetition count their items, and sorted ones are strictly ascending. Main statements:
after sorting by an order and dropping repeats, every item comes strictly before all that follow it,
and nothing but the items themselves decides how they are sorted.
-/

namespace GrammarRepair

variable {α : Type} [DecidableEq α]

theorem dropRepeats_sublist (xs : List α) : (dropRepeats xs).Sublist xs := by
  fun_induction dropRepeats xs with
  | case1 => exact .slnil
  | case2 x => exact List.Sublist.refl [x]
  | case3 x rest ih => exact ih.cons x
  | case4 x y rest hne ih => exact ih.cons_cons x

theorem length_sortedDistinct_le (le : α → α → Bool) (xs : List α) :
    (sortedDistinct le xs).length ≤ xs.length := by
  have hle := (dropRepeats_sublist (xs.mergeSort le)).length_le
  rwa [List.length_mergeSort] at hle

theorem pairwise_dropRepeats {le : α → α → Prop} (hantisymm : ∀ a b, le a b → le b a → a = b)
    {xs : List α} (h : xs.Pairwise le) : (dropRepeats xs).Pairwise fun a b => le a b ∧ a ≠ b := by
  fun_induction dropRepeats xs with
  | case1 => exact .nil
  | case2 x => exact List.pairwise_singleton _ x
  | case3 x rest ih => exact ih h.of_cons
  | case4 x y rest hne ih =>
    refine List.pairwise_cons.2 ⟨fun z hz => ?_, ih h.of_cons⟩
    have hmem := (mem_dropRepeats _ z).1 hz
    refine ⟨List.rel_of_pairwise_cons h hmem, ?_⟩
    rintro rfl
    -- An equal item behind `y` would put `y` on both sides of it.
    have hxy := List.rel_of_pairwise_cons h List.mem_cons_self
    rcases List.mem_cons.1 hmem with rfl | hrest
    · exact hne rfl
    · exact hne (hantisymm x y hxy (List.rel_of_pairwise_cons h.of_cons hrest))

theorem pairwise_sortedDistinct {le : α → α → Bool}
    (htrans : ∀ a b c, le a b = true → le b c = true → le a c = true)
    (htotal : ∀ a b, (le a b || le b a) = true)
    (hantisymm : ∀ a b, le a b = true → le b a = true → a = b) (xs : List α) :
    (sortedDistinct le xs).Pairwise fun a b => le a b = true ∧ a ≠ b :=
  pairwise_dropRepeats hantisymm (List.pairwise_mergeSort htrans htotal xs)

theorem ascending_sortedDistinct (xs : List Nat) :
    (sortedDistinct (· ≤ ·) xs).Pairwise (· < ·) := by
  refine (pairwise_sortedDistinct ?_ ?_ ?_ xs).imp fun {a b} h => ?_
  · intro a b c hab hbc
    exact decide_eq_true (Nat.le_trans (of_decide_eq_true hab) (of_decide_eq_true hbc))
  · intro a b
    simpa using Nat.le_total a b
  · intro a b hab hba
    exact Nat.le_antisymm (of_decide_eq_true hab) (of_decide_eq_true hba)
  · exact Nat.lt_of_le_of_ne (of_decide_eq_true h.1) h.2

omit [DecidableEq α] in
/-- Sorting leaves items that tie in the order that they had. -/
theorem pairwise_mergeSort_ties {le : α → α → Bool}
    (htrans : ∀ a b c, le a b = true → le b c = true → le a c = true)
    (htotal : ∀ a b, (le a b || le b a) = true) {r : α → α → Prop} {xs : List α}
    (h : xs.Pairwise r) :
    (xs.mergeSort le).Pairwise fun a b => le a b = true ∧ (le b a = true → r a b) := by
  induction xs with
  | nil => simp
  | cons x xs ih =>
    -- The first item is put in front of all that tie with it.
    obtain ⟨before, behind, heq, hrest, hless⟩ := List.mergeSort_cons htrans htotal x xs
    have hsorted := List.pairwise_mergeSort htrans htotal (x :: xs)
    obtain ⟨hx, hxs⟩ := List.pairwise_cons.1 h
    have ih := ih hxs
    rw [heq, List.pairwise_append, List.pairwise_cons] at hsorted
    rw [hrest, List.pairwise_append] at ih
    rw [heq, List.pairwise_append, List.pairwise_cons]
    refine ⟨ih.1, ⟨fun y hy => ⟨hsorted.2.1.1 y hy, fun _ => hx y ?_⟩, ih.2.1⟩, fun y hy z hz => ?_⟩
    · have hmem : y ∈ xs.mergeSort le := by
        rw [hrest]
        exact List.mem_append_right _ hy
      exact List.mem_mergeSort.1 hmem
    · rcases List.mem_cons.1 hz with rfl | hz
      · refine ⟨hsorted.2.2 y hy z List.mem_cons_self, fun htie => ?_⟩
        have hnot := hless y hy
        rw [htie] at hnot
        cases hnot
      · exact ih.2.2 y hy z hz

omit [DecidableEq α] in
/-- There is one way only to put items in strictly ascending order. -/
theorem eq_of_ascending {r : α → α → Prop} (hasymm : ∀ a b, r a b → ¬ r b a) {xs ys : List α}
    (hxs : xs.Pairwise r) (hys : ys.Pairwise r) (hmem : ∀ x, x ∈ xs ↔ x ∈ ys) : xs = ys := by
  have hne : ∀ {a b}, r a b → a ≠ b := by
    rintro a b h rfl
    exact hasymm a a h h
  have hperm : xs.Perm ys := (List.perm_ext_iff_of_nodup (hxs.imp hne) (hys.imp hne)).2 hmem
  exact hperm.eq_of_pairwise (fun a b _ _ hab hba => absurd hba (hasymm a b hab)) hxs hys

omit [DecidableEq α] in
/-- A list without repetition counts the items that it has. -/
theorem ncard_eq_length {P : α → Prop} {xs : List α} (hnodup : xs.Nodup)
    (hmem : ∀ x, x ∈ xs ↔ P x) : {x | P x}.ncard = xs.length := by
  classical
  have hitems : {x | P x} = (xs.toFinset : Set α) := by
    ext x
    rw [List.coe_toFinset, Set.mem_ofPred_eq, Set.mem_ofPred_eq, hmem]
  rw [hitems, Set.ncard_coe_finset, List.toFinset_card_of_nodup hnodup]

end GrammarRepair
