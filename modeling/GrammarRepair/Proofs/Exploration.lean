import GrammarRepair.Exploration
import Mathlib.Data.List.Perm.Subperm
import Mathlib.Logic.Relation

/-!
An exploration finds what its starting points lead to. Items are met once, so those explored and
those still to be explored never outnumber the items that there are. Main statement: an item is
explored exactly when a chain of successors leads to it from a starting point.
-/

namespace GrammarRepair

namespace Exploration

variable {α : Type} [BEq α] [Hashable α] {next : α → List α} {f : Frontier α}
  {explored : List α} {x y : α}

theorem mem_todo_meetAll {xs : List α} (h : y ∈ (f.meetAll xs).todo) : y ∈ f.todo ∨ y ∈ xs := by
  unfold Frontier.meetAll at h
  induction xs generalizing f with
  | nil => exact .inl h
  | cons x xs ih =>
    rcases ih h with hy | hy
    · unfold Frontier.meet at hy
      split at hy
      · exact .inl hy
      · rcases List.mem_cons.1 hy with rfl | hy
        · exact .inr (by simp)
        · exact .inl hy
    · exact .inr (by simp [hy])

theorem mem_run_of_closed {P : α → Prop} (hP : ∀ x, P x → ∀ y ∈ next x, P y) {steps : Nat}
    (htodo : ∀ x ∈ f.todo, P x) : ∀ x ∈ run next steps f, P x := by
  induction steps generalizing f with
  | zero => simp [run]
  | succ steps ih =>
    unfold run
    split
    · simp
    · next x rest heq =>
      have hx : P x := htodo x (by simp [heq])
      intro y hy
      rcases List.mem_cons.1 hy with rfl | hy
      · exact hx
      · refine ih (fun z hz => ?_) y hy
        rcases mem_todo_meetAll hz with hz | hz
        · exact htodo z (by rw [heq]; exact List.mem_cons_of_mem x hz)
        · exact hP x hx z hz

/-- Every item met is explored or still to be explored, and is so once. -/
structure Keeps (f : Frontier α) (explored : List α) : Prop where
  nodup : (explored ++ f.todo).Nodup
  mem_met_iff : ∀ x, x ∈ f.met ↔ x ∈ explored ∨ x ∈ f.todo

theorem Keeps.length_le {items : List α} (h : Keeps f explored) (hf : ∀ x ∈ f.met, x ∈ items) :
    explored.length + f.todo.length ≤ items.length := by
  rw [← List.length_append]
  refine (h.nodup.subperm fun x hx => hf x ?_).length_le
  exact (h.mem_met_iff x).2 (List.mem_append.1 hx)

/-- With nothing left to be explored, all items met are explored, and so are their successors. -/
theorem Keeps.closed (h : Keeps f explored) (hnil : f.todo = [])
    (hclosed : ∀ x ∈ explored, ∀ y ∈ next x, y ∈ f.met) :
    (∀ x ∈ f.met, x ∈ explored) ∧ ∀ x ∈ explored, ∀ y ∈ next x, y ∈ explored := by
  have hmet : ∀ x ∈ f.met, x ∈ explored := by
    intro x hx
    simpa [hnil] using (h.mem_met_iff x).1 hx
  exact ⟨hmet, fun x hx y hy => hmet y (hclosed x hx y hy)⟩

variable [LawfulBEq α]

theorem mem_met_meet : y ∈ (f.meet x).met ↔ y ∈ f.met ∨ y = x := by
  unfold Frontier.meet
  split
  · next hx =>
    have hmem : x ∈ f.met := hx
    constructor
    · exact Or.inl
    · rintro (hy | rfl)
      · exact hy
      · exact hmem
  · have hcomm : x = y ↔ y = x := eq_comm
    simp [or_comm, hcomm]

theorem mem_met_meetAll (xs : List α) : y ∈ (f.meetAll xs).met ↔ y ∈ f.met ∨ y ∈ xs := by
  unfold Frontier.meetAll
  induction xs generalizing f with
  | nil => simp
  | cons x xs ih => rw [List.foldl_cons, ih, mem_met_meet, List.mem_cons, or_assoc]

theorem Keeps.meet (h : Keeps f explored) (x : α) : Keeps (f.meet x) explored := by
  by_cases hx : x ∈ f.met
  · have heq : f.meet x = f := if_pos hx
    rwa [heq]
  · have heq : f.meet x = ⟨x :: f.todo, f.met.insert x⟩ := if_neg hx
    have hnew := (not_congr (h.mem_met_iff x)).1 hx
    rw [heq]
    constructor
    · refine (List.perm_middle.nodup_iff).2 (List.nodup_cons.2 ⟨?_, h.nodup⟩)
      simpa using hnew
    · intro y
      have hcomm : x = y ↔ y = x := eq_comm
      simp [h.mem_met_iff, hcomm, or_left_comm]

theorem Keeps.meetAll (h : Keeps f explored) (xs : List α) : Keeps (f.meetAll xs) explored := by
  unfold Frontier.meetAll
  induction xs generalizing f with
  | nil => exact h
  | cons x xs ih => exact ih (h.meet x)

theorem Keeps.step {rest : List α} (h : Keeps f explored) (htodo : f.todo = x :: rest) :
    Keeps (Frontier.meetAll ⟨rest, f.met⟩ (next x)) (explored ++ [x]) := by
  refine Keeps.meetAll ⟨?_, ?_⟩ (next x)
  · simpa [htodo] using h.nodup
  · intro y
    simp [h.mem_met_iff, htodo, or_assoc]

theorem mem_met_starts {starts : List α} :
    y ∈ (Frontier.meetAll ⟨[], ∅⟩ starts).met ↔ y ∈ starts := by
  rw [mem_met_meetAll]
  simp

theorem keeps_starts (starts : List α) : Keeps (Frontier.meetAll ⟨[], ∅⟩ starts) [] := by
  have hempty : Keeps (⟨[], ∅⟩ : Frontier α) [] := ⟨by simp, by simp⟩
  exact hempty.meetAll starts

/-- With as many steps as there are items, nothing is left to be explored at the end, and what was
explored is closed under successors. -/
theorem run_closed {items : List α} (hitems : ∀ x ∈ items, ∀ y ∈ next x, y ∈ items) {steps : Nat}
    (h : Keeps f explored) (hf : ∀ x ∈ f.met, x ∈ items)
    (hclosed : ∀ x ∈ explored, ∀ y ∈ next x, y ∈ f.met)
    (hsteps : items.length ≤ steps + explored.length) :
    (∀ x ∈ f.met, x ∈ explored ++ run next steps f) ∧
      ∀ x ∈ explored ++ run next steps f, ∀ y ∈ next x, y ∈ explored ++ run next steps f := by
  induction steps generalizing f explored with
  | zero =>
    have hlength := h.length_le hf
    have hnil : f.todo = [] := List.length_eq_zero_iff.1 (by omega)
    rw [run, List.append_nil]
    exact h.closed hnil hclosed
  | succ steps ih =>
    unfold run
    split
    · next hnil =>
      rw [List.append_nil]
      exact h.closed hnil hclosed
    · next x rest htodo =>
      have hx : x ∈ f.met := (h.mem_met_iff x).2 (by simp [htodo])
      rw [List.append_cons]
      obtain ⟨hmet, hrun⟩ := ih (h.step htodo)
        (by
          intro y hy
          rcases (mem_met_meetAll _).1 hy with hy | hy
          · exact hf y hy
          · exact hitems x (hf x hx) y hy)
        (by
          intro z hz y hy
          rw [mem_met_meetAll]
          rcases List.mem_append.1 hz with hz | hz
          · exact .inl (hclosed z hz y hy)
          · obtain rfl := List.mem_singleton.1 hz
            exact .inr hy)
        (by
          rw [List.length_append, List.length_singleton]
          omega)
      exact ⟨fun y hy => hmet y ((mem_met_meetAll _).2 (.inl hy)), hrun⟩

end Exploration

open Exploration in
/-- An item is explored exactly when a chain leads to it from a starting point, whatever relation it
is that the successors stand for. -/
theorem mem_explore_iff {α : Type} [BEq α] [Hashable α] [LawfulBEq α] {next : α → List α}
    {R : α → α → Prop} {items starts : List α} {steps : Nat} {x : α}
    (hstarts : ∀ s ∈ starts, s ∈ items) (hnext : ∀ x ∈ items, ∀ y, y ∈ next x ↔ R x y)
    (hitems : ∀ x ∈ items, ∀ y, R x y → y ∈ items) (hsteps : items.length ≤ steps) :
    x ∈ explore next steps starts ↔ ∃ s ∈ starts, Relation.ReflTransGen R s x := by
  have hclosed : ∀ x ∈ items, ∀ y ∈ next x, y ∈ items :=
    fun x hx y hy => hitems x hx y ((hnext x hx y).1 hy)
  constructor
  · intro hx
    have hstep : ∀ x, (x ∈ items ∧ ∃ s ∈ starts, Relation.ReflTransGen R s x) →
        ∀ y ∈ next x, y ∈ items ∧ ∃ s ∈ starts, Relation.ReflTransGen R s y := by
      rintro x ⟨hx, s, hs, hchain⟩ y hy
      exact ⟨hclosed x hx y hy, s, hs, hchain.tail ((hnext x hx y).1 hy)⟩
    refine (mem_run_of_closed hstep (fun y hy => ?_) x hx).2
    rcases mem_todo_meetAll hy with hy | hy
    · cases hy
    · exact ⟨hstarts y hy, y, hy, .refl⟩
  · rintro ⟨s, hs, hchain⟩
    have hmem : ∀ y ∈ (Frontier.meetAll ⟨[], ∅⟩ starts).met, y ∈ items :=
      fun y hy => hstarts y (mem_met_starts.1 hy)
    have hlength : items.length ≤ steps + ([] : List α).length := by simpa using hsteps
    obtain ⟨hmet, hrun⟩ := run_closed hclosed (keeps_starts starts) hmem (by simp) hlength
    suffices x ∈ items ∧ x ∈ explore next steps starts from this.2
    induction hchain with
    | refl => exact ⟨hstarts s hs, hmet s (mem_met_starts.2 hs)⟩
    | @tail x y _ hy ih => exact ⟨hitems x ih.1 y hy, hrun x ih.2 y ((hnext x ih.1 y).2 hy)⟩

theorem explore_of_no_next {α : Type} [BEq α] [Hashable α] {next : α → List α} {x : α}
    (h : next x = []) {steps : Nat} (hsteps : 0 < steps) : explore next steps [x] = [x] := by
  cases steps with
  | zero => cases hsteps
  | succ steps =>
    have hmeet : Exploration.Frontier.meetAll ⟨[], ∅⟩ [x] = ⟨[x], (∅ : Std.HashSet α).insert x⟩ := by
      simp [Exploration.Frontier.meetAll, Exploration.Frontier.meet]
    rw [explore, hmeet]
    show x :: Exploration.run next steps (Exploration.Frontier.meetAll ⟨[], _⟩ (next x)) = [x]
    rw [h]
    cases steps with
    | zero => rfl
    | succ steps => rfl

end GrammarRepair
