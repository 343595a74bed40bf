import GrammarRepair.Checked
import GrammarRepair.Proofs.Exploration

/-!
Checked steps that find nothing wrong. A run of them does what the run without checks does. Main
statement: a checked exploration is done in time if the items that it can meet are all known, and
then it explores what an unchecked one explores.
-/

namespace GrammarRepair

namespace Checked

variable {α β : Type}

@[simp] theorem ok_bind (x : α) (f : α → Checked β) : (Except.ok x >>= f) = f x := rfl

@[simp] theorem pure_eq_ok (x : α) : (pure x : Checked α) = .ok x := rfl

theorem mapM_ok {f : α → Checked β} {g : α → β} {xs : List α}
    (h : ∀ x ∈ xs, f x = .ok (g x)) : xs.mapM f = .ok (xs.map g) := by
  induction xs with
  | nil => rfl
  | cons x xs ih =>
    have hhead := h x (by simp)
    have htail := ih fun y hy => h y (List.mem_cons_of_mem _ hy)
    rw [List.mapM_cons, hhead, ok_bind, htail]
    rfl

theorem foldlM_ok {f : β → α → Checked β} {g : β → α → β} {xs : List α}
    (h : ∀ y, ∀ x ∈ xs, f y x = .ok (g y x)) (y : β) : xs.foldlM f y = .ok (xs.foldl g y) := by
  induction xs generalizing y with
  | nil => rfl
  | cons x xs ih =>
    rw [List.foldlM_cons, h y x (by simp), ok_bind, List.foldl_cons]
    exact ih (fun y z hz => h y z (List.mem_cons_of_mem _ hz)) _

theorem entry_ok {xs : Array α} {i : Nat} {x : α} (h : xs[i]? = some x) : entry xs i = .ok x := by
  rw [entry, h]

theorem entry_getD {xs : Array α} {i : Nat} (h : i < xs.size) (x : α) :
    entry xs i = .ok (xs.getD i x) :=
  entry_ok (by simp [h])

theorem put_ok {xs : Array α} {i : Nat} (h : i < xs.size) (x : α) :
    put xs i x = .ok (xs.setIfInBounds i x) :=
  if_pos h

theorem minus_ok {m n : Nat} (h : n ≤ m) : minus m n = .ok (m - n) := if_pos h

theorem place_ok {names : List String} {name : String} (h : name ∈ names) :
    place names name = .ok (names.idxOf name) := by
  rw [place, List.idxOf_eq_getD_idxOf?]
  cases hi : names.idxOf? name with
  | some i => rfl
  | none => exact absurd h (List.idxOf?_eq_none_iff.1 hi)

section

open Exploration

variable [BEq α] [Hashable α] [LawfulBEq α] {next : α → List α} {next' : α → Checked (List α)}
  {items starts explored : List α} {f : Frontier α} {steps : Nat}
  (hnext : ∀ x ∈ items, next' x = .ok (next x)) (hitems : ∀ x ∈ items, ∀ y ∈ next x, y ∈ items)

include hnext hitems

/-- Items that were met are never met again, so each step that is left explores a new one. -/
theorem run_ok (h : Keeps f explored) (hf : ∀ x ∈ f.met, x ∈ items)
    (hsteps : items.length ≤ steps + explored.length) :
    Checked.run next' steps f = .ok (Exploration.run next steps f) := by
  induction steps generalizing f explored with
  | zero =>
    have hlength := h.length_le hf
    have hnil : f.todo = [] := List.length_eq_zero_iff.1 (by omega)
    rw [Checked.run, hnil]
    rfl
  | succ steps ih =>
    rw [Checked.run, Exploration.run]
    cases htodo : f.todo with
    | nil => rfl
    | cons x rest =>
      have hx := hf x ((h.mem_met_iff x).2 (by simp [htodo]))
      have hrest := ih (h.step htodo)
        (by
          intro y hy
          rcases (mem_met_meetAll _).1 hy with hy | hy
          · exact hf y hy
          · exact hitems x hx y hy)
        (by
          rw [List.length_append, List.length_singleton]
          omega)
      simp only [hnext x hx, ok_bind, hrest]
      rfl

theorem explore_ok (hstarts : ∀ x ∈ starts, x ∈ items) (hsteps : items.length ≤ steps) :
    Checked.explore next' steps starts = .ok (GrammarRepair.explore next steps starts) :=
  run_ok hnext hitems (keeps_starts starts) (fun x hx => hstarts x (mem_met_starts.1 hx)) hsteps

end

end Checked

end GrammarRepair
