import GrammarRepair.Proofs.Forest.Decoding

/-!
The strings that a forest lists, however many derivations it has. A count that stopped growing is
too small, never too great, so every derivation that is asked for is one of the trees. Main
statements: a forest lists no string twice, and every string that it lists has a tree.
-/

namespace GrammarRepair

open Saturating

namespace Forest

variable {f : Forest} {k : Nat}

/-- Every derivation has the tokens of a tree. -/
theorem exists_tree_of_derivation? {w : List Nat} (h : f.derivation? k = some w) :
    ∃ t ∈ f.trees, t.tokens = w := by
  obtain ⟨x, hx, j, t, hdecodes, htokens⟩ := exists_decodes_of_derivation? h
  exact ⟨t, List.mem_flatMap.2 ⟨x, hx, hdecodes.mem_treesOf⟩, htokens⟩

/-- A harvest remembers what it holds, holds it once, and holds only strings of trees. -/
structure Gathered (f : Forest) (h : Harvest) : Prop where
  mem_met_iff : ∀ w, w ∈ h.met ↔ w ∈ h.strings
  nodup : h.strings.Nodup
  exists_tree : ∀ w ∈ h.strings, ∃ t ∈ f.trees, t.tokens = w

theorem Gathered.start (f : Forest) (limit : Option Nat) : Gathered f (.start limit) where
  mem_met_iff := by simp [Harvest.start]
  nodup := List.nodup_nil
  exists_tree := by simp [Harvest.start]

theorem Gathered.add {h : Harvest} {w : List Nat} (hh : Gathered f h)
    (hw : ∃ t ∈ f.trees, t.tokens = w) : Gathered f (h.add w) := by
  unfold Harvest.add
  split
  · exact hh
  · next hnew =>
    have hnot : w ∉ h.strings := fun hmem => hnew ((hh.mem_met_iff w).2 hmem)
    refine ⟨fun v => ?_, List.nodup_cons.2 ⟨hnot, hh.nodup⟩, ?_⟩
    · rw [Std.HashSet.mem_insert, hh.mem_met_iff, List.mem_cons, beq_iff_eq, eq_comm (a := w)]
    · intro v hv
      rcases List.mem_cons.1 hv with rfl | hv
      · exact hw
      · exact hh.exists_tree v hv

theorem Gathered.gather {h : Harvest} {steps : Nat} (hh : Gathered f h) :
    Gathered f (f.gather steps k h) := by
  induction steps generalizing k h with
  | zero => exact hh
  | succ steps ih =>
    unfold Forest.gather
    split
    · exact hh
    · split
      · exact hh
      · next w hw => exact ih (hh.add (exists_tree_of_derivation? hw))

theorem nodup_sentences (f : Forest) (limit : Option Nat) : (f.sentences limit).Nodup :=
  (List.reverse_perm _).nodup_iff.2 (Gathered.start f limit).gather.nodup

theorem exists_tree_of_mem_sentences {limit : Option Nat} {w : List Nat}
    (hw : w ∈ f.sentences limit) : ∃ t ∈ f.trees, t.tokens = w :=
  (Gathered.start f limit).gather.exists_tree w (List.mem_reverse.1 hw)

end Forest

end GrammarRepair
