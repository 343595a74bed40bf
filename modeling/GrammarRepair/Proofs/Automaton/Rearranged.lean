import GrammarRepair.Proofs.Automaton.OfTransitions
import GrammarRepair.Proofs.EditDistance.Ball

/-!
Automata do not remember in which order, or how often, their transitions and labels were given, if
the labels are points of a grid that the transitions climb. Labels are collected in order of first
mention, but then sorted by keys that no two points share; edges, initial and final states are
sorted too. Main statement: the same transitions and labels make the same automaton, and so the same
tokens make the same ball.
-/

namespace GrammarRepair

/-- The same items, in whatever order and however often. -/
def SameItems {α : Type} (xs ys : List α) : Prop := ∀ x, x ∈ xs ↔ x ∈ ys

theorem SameItems.map {α β : Type} {xs ys : List α} (h : SameItems xs ys) (f : α → β) :
    SameItems (xs.map f) (ys.map f) := by
  intro y
  simp only [List.mem_map, h _]

theorem SameItems.eq_nil_iff {α : Type} {xs ys : List α} (h : SameItems xs ys) :
    xs = [] ↔ ys = [] := by
  simp only [List.eq_nil_iff_forall_not_mem, h _]

theorem Label.sweptBefore_of_ne {a b : Label} (ha : a.isGrid = true) (hb : b.isGrid = true)
    (hne : a ≠ b) (h : a.notSweptAfter b = true) : a.sweptBefore b = true := by
  cases a with
  | plain n => cases ha
  | grid i j =>
    cases b with
    | plain n => cases hb
    | grid i' j' =>
      rw [notSweptAfter_iff] at h
      rw [sweptBefore_iff]
      simp only [sweepKey, ne_eq, grid.injEq] at h hne ⊢
      omega

theorem Label.sweptBefore_asymm (a b : Label) (h : a.sweptBefore b = true) :
    ¬ b.sweptBefore a = true := by
  rw [sweptBefore_iff] at h ⊢
  omega

namespace Transition

variable {ts ts' : List Transition} {initials initials' finals finals' labels labels' : List Label}

theorem sameItems_mentioned (hts : SameItems ts ts') (hinitials : SameItems initials initials')
    (hfinals : SameItems finals finals') :
    SameItems (mentioned ts initials finals) (mentioned ts' initials' finals') := by
  intro l
  simp only [Automaton.mem_mentioned_iff, hts _, hinitials _, hfinals _]

theorem pairwise_gridOrder (hnodup : labels.Nodup) (hgrid : ∀ l ∈ labels, l.isGrid = true) :
    (gridOrder labels).Pairwise fun a b => a.sweptBefore b = true := by
  have hsorted : (gridOrder labels).Pairwise fun a b => a.notSweptAfter b = true :=
    List.pairwise_mergeSort Label.notSweptAfter_trans Label.notSweptAfter_total labels
  refine (hsorted.and (nodup_gridOrder hnodup)).imp_of_mem fun ha hb h => ?_
  exact Label.sweptBefore_of_ne (hgrid _ (mem_gridOrder.1 ha)) (hgrid _ (mem_gridOrder.1 hb)) h.2 h.1

/-- The sweep over some points of the grid does not depend on how they are listed. -/
theorem gridOrder_eq (h : SameItems labels labels') (hnodup : labels.Nodup)
    (hnodup' : labels'.Nodup) (hgrid : ∀ l ∈ labels, l.isGrid = true) :
    gridOrder labels = gridOrder labels' := by
  have hgrid' : ∀ l ∈ labels', l.isGrid = true := fun l hl => hgrid l ((h l).2 hl)
  refine eq_of_ascending Label.sweptBefore_asymm (pairwise_gridOrder hnodup hgrid)
    (pairwise_gridOrder hnodup' hgrid') fun l => ?_
  rw [mem_gridOrder, mem_gridOrder, h l]

theorem followsGrid_iff : followsGrid ts labels = true ↔
    (∀ l ∈ labels, l.isGrid = true) ∧ ∀ t ∈ ts, t.source.sweptBefore t.target = true := by
  rw [followsGrid, Bool.and_eq_true, List.all_eq_true, List.all_eq_true]

theorem followsGrid_rearranged (hts : SameItems ts ts') (hlabels : SameItems labels labels')
    (h : followsGrid ts labels = true) : followsGrid ts' labels' = true := by
  rw [followsGrid_iff] at h ⊢
  exact ⟨fun l hl => h.1 l ((hlabels l).2 hl), fun t ht => h.2 t ((hts t).2 ht)⟩

/-- `Climbs t`: the transition leads from a point to a later one in the sweep, on a later antidiagonal
or farther along on the same. -/
def Climbs (t : Transition) : Prop :=
  ∃ i j i' j', t.source = .grid i j ∧ t.target = .grid i' j' ∧
    (i + j < i' + j' ∨ i + j = i' + j' ∧ i < i')

theorem followsGrid_of_climbs (hts : ∀ t ∈ ts, t.Climbs)
    (hinitials : ∀ l ∈ initials, l.isGrid = true) (hfinals : ∀ l ∈ finals, l.isGrid = true) :
    followsGrid ts (mentioned ts initials finals) = true := by
  refine followsGrid_iff.2 ⟨fun l hl => ?_, fun t ht => ?_⟩
  · rcases Automaton.mem_mentioned_iff.1 hl with ⟨t, ht, hl⟩ | hl | hl
    · obtain ⟨i, j, i', j', hsource, htarget, -⟩ := hts t ht
      rcases hl with rfl | rfl
      · rw [hsource]
        rfl
      · rw [htarget]
        rfl
    · exact hinitials l hl
    · exact hfinals l hl
  · obtain ⟨i, j, i', j', hsource, htarget, hlt⟩ := hts t ht
    rw [hsource, htarget, Label.sweptBefore_iff]
    exact hlt

end Transition

namespace Automaton

open Transition

variable {ts ts' : List Transition} {initials initials' finals finals' : List Label}

theorem sortedDistinct_le_eq {xs ys : List Nat} (h : SameItems xs ys) :
    sortedDistinct (· ≤ ·) xs = sortedDistinct (· ≤ ·) ys := by
  refine eq_of_ascending (fun _ _ => Nat.lt_asymm) (ascending_sortedDistinct xs)
    (ascending_sortedDistinct ys) fun x => ?_
  rw [mem_sortedDistinct, mem_sortedDistinct, h x]

theorem sortedDistinct_before_eq {es fs : List Edge} (h : SameItems es fs) :
    sortedDistinct Edge.before es = sortedDistinct Edge.before fs := by
  refine eq_of_ascending (fun e f hef hfe => hef.2 (Edge.before_antisymm hef.1 hfe.1))
    (Edge.ascending_sortedDistinct_before es) (Edge.ascending_sortedDistinct_before fs) fun e => ?_
  rw [mem_sortedDistinct, mem_sortedDistinct, h e]

theorem ofOrder_eq {order order' : List Label} (horder : order = order') (hts : SameItems ts ts')
    (hinitials : SameItems initials initials') (hfinals : SameItems finals finals')
    (hnodup : order.Nodup) (hforward : Forward ts order) (hi : ∀ l ∈ initials, l ∈ order)
    (hf : ∀ l ∈ finals, l ∈ order) (hnodup' : order'.Nodup) (hforward' : Forward ts' order')
    (hi' : ∀ l ∈ initials', l ∈ order') (hf' : ∀ l ∈ finals', l ∈ order') :
    ofOrder order ts initials finals hnodup hforward hi hf =
      ofOrder order' ts' initials' finals' hnodup' hforward' hi' hf' := by
  subst horder
  rw [ofOrder, ofOrder, mk.injEq]
  exact ⟨rfl, sortedDistinct_before_eq (hts.map _), sortedDistinct_le_eq (hinitials.map _),
    sortedDistinct_le_eq (hfinals.map _)⟩

theorem ofGrid_eq (hts : SameItems ts ts') (hinitials : SameItems initials initials')
    (hfinals : SameItems finals finals')
    (h : followsGrid ts (mentioned ts initials finals) = true)
    (h' : followsGrid ts' (mentioned ts' initials' finals') = true) :
    ofGrid ts initials finals h = ofGrid ts' initials' finals' h' := by
  have horder := gridOrder_eq (sameItems_mentioned hts hinitials hfinals) (nodup_distinct _)
    (nodup_distinct _) (followsGrid_iff.1 h).1
  exact congrArg (·.announce .grid) (ofOrder_eq horder hts hinitials hfinals _ _ _ _ _ _ _ _)

theorem ofTransitions_of_followsGrid (hinitials : initials ≠ [])
    (h : followsGrid ts (mentioned ts initials finals) = true) :
    ofTransitions ts initials finals = .ok (ofGrid ts initials finals h) := by
  have hsome : ¬ initials.isEmpty = true := fun hempty => hinitials (List.isEmpty_iff.1 hempty)
  rw [ofTransitions, if_neg hsome]
  exact dif_pos h

theorem ofTransitions_rearranged (hts : SameItems ts ts') (hinitials : SameItems initials initials')
    (hfinals : SameItems finals finals')
    (h : followsGrid ts (mentioned ts initials finals) = true) :
    ofTransitions ts initials finals = ofTransitions ts' initials' finals' := by
  have h' := followsGrid_rearranged hts (sameItems_mentioned hts hinitials hfinals) h
  by_cases hempty : initials = []
  · rw [hinitials.eq_nil_iff.1 hempty, hempty]
    rfl
  · rw [ofTransitions_of_followsGrid hempty h,
      ofTransitions_of_followsGrid (fun hnil => hempty (hinitials.eq_nil_iff.2 hnil)) h',
      ofGrid_eq hts hinitials hfinals h h']

end Automaton

theorem ball_rearranged {alphabet alphabet' : List Nat} (h : SameItems alphabet alphabet')
    (tokens : List Nat) (radius : Nat) : ball tokens radius alphabet = ball tokens radius alphabet' := by
  have hts : SameItems (Ball.transitions tokens radius (distinct alphabet))
      (Ball.transitions tokens radius (distinct alphabet')) := by
    intro t
    simp only [Ball.mem_transitions, Ball.mem_editSteps, mem_distinct, h _]
  exact Automaton.ofGrid_eq hts (fun _ => Iff.rfl) (fun _ => Iff.rfl) _ _

end GrammarRepair
