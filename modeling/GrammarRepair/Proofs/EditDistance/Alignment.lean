import GrammarRepair.EditDistance.Distance
import Mathlib.Order.Bounds.Basic
import Mathlib.Order.MinMax

/-!
Alignments and the table of edit distances. The table is filled from the front of both sequences
while alignments are taken apart from the front, so alignments are read backwards here. Main
statement: the table ends with the least cost of an alignment.
-/

namespace GrammarRepair

namespace Alignment

variable {α : Type} {mayAdd : α → Prop} {v v' w w' : List α} {m n : Nat}

theorem append (h : Alignment mayAdd v w m) (h' : Alignment mayAdd v' w' n) :
    Alignment mayAdd (v ++ v') (w ++ w') (m + n) := by
  induction h with
  | nil => simpa using h'
  | keep x h ih => exact .keep x ih
  | replace x y hy h ih =>
    rw [Nat.add_right_comm]
    exact .replace x y hy ih
  | insert y hy h ih =>
    rw [Nat.add_right_comm]
    exact .insert y hy ih
  | delete x h ih =>
    rw [Nat.add_right_comm]
    exact .delete x ih

theorem reverse (h : Alignment mayAdd v w n) : Alignment mayAdd v.reverse w.reverse n := by
  induction h with
  | nil => exact .nil
  | keep x h ih => simpa using ih.append (.keep x .nil)
  | replace x y hy h ih => simpa using ih.append (.replace x y hy .nil)
  | insert y hy h ih => simpa using ih.append (.insert y hy .nil)
  | delete x h ih => simpa using ih.append (.delete x .nil)

theorem reverse_iff : Alignment mayAdd v.reverse w.reverse n ↔ Alignment mayAdd v w n := by
  constructor
  · intro h
    simpa using h.reverse
  · exact reverse

theorem insert_all (hw : ∀ y ∈ w, mayAdd y) : Alignment mayAdd [] w w.length := by
  induction w with
  | nil => exact .nil
  | cons y w ih =>
    have hy : mayAdd y := hw y (by simp)
    exact .insert y hy (ih fun z hz => hw z (by simp [hz]))

theorem delete_all (v : List α) : Alignment mayAdd v [] v.length := by
  induction v with
  | nil => exact .nil
  | cons x v ih => exact .delete x ih

theorem length_le (h : Alignment mayAdd v w n) :
    w.length ≤ v.length + n ∧ v.length ≤ w.length + n := by
  induction h with
  | nil => simp
  | keep x h ih => simp only [List.length_cons]; omega
  | replace x y hy h ih => simp only [List.length_cons]; omega
  | insert y hy h ih => simp only [List.length_cons]; omega
  | delete x h ih => simp only [List.length_cons]; omega

theorem zero_iff : Alignment mayAdd v w 0 ↔ v = w := by
  constructor
  · intro h
    generalize hn : 0 = n at h
    induction h with
    | nil => rfl
    | keep x h ih => rw [ih hn]
    | replace => omega
    | insert => omega
    | delete => omega
  · rintro rfl
    induction v with
    | nil => exact .nil
    | cons x v ih => exact .keep x ih

/-- Only what ends up in the second sequence can have been added. -/
theorem restrict {mayAdd' : α → Prop} (h : Alignment mayAdd v w n) (hw : ∀ y ∈ w, mayAdd' y) :
    Alignment mayAdd' v w n := by
  induction h with
  | nil => exact .nil
  | keep x h ih => exact .keep x (ih fun y hy => hw y (by simp [hy]))
  | replace x y hy h ih => exact .replace x y (hw y (by simp)) (ih fun z hz => hw z (by simp [hz]))
  | insert y hy h ih => exact .insert y (hw y (by simp)) (ih fun z hz => hw z (by simp [hz]))
  | delete x h ih => exact .delete x (ih hw)

theorem unrestricted (h : Alignment mayAdd v w n) : Alignment (fun _ => True) v w n :=
  h.restrict fun _ _ => trivial

end Alignment

namespace EditDistance

variable {α : Type} {v w : List α} {x y : α} {a b c : Nat}

/-- The least number of edits that turn `v` into `w`. -/
def IsDistance (v w : List α) (n : Nat) : Prop :=
  IsLeast {m | Alignment (fun _ => True) v w m} n

theorem isDistance_reverse_iff : IsDistance v.reverse w.reverse a ↔ IsDistance v w a := by
  simp [IsDistance, Alignment.reverse_iff]

theorem isDistance_nil_left (w : List α) : IsDistance [] w w.length := by
  refine ⟨Alignment.insert_all fun _ _ => trivial, ?_⟩
  intro m hm
  simpa using (Alignment.length_le hm).1

theorem isDistance_nil_right (v : List α) : IsDistance v [] v.length := by
  refine ⟨Alignment.delete_all v, ?_⟩
  intro m hm
  simpa using (Alignment.length_le hm).2

/-- A piece of the row of `v`: behind the beginning `u` of the other sequence, the distances to
`u` with one item more, with two, and so on. -/
def IsRow (v : List α) : (u ys : List α) → List Nat → Prop
  | _, [], row => row = []
  | u, y :: ys, n :: row => IsDistance v (u ++ [y]) n ∧ IsRow v (u ++ [y]) ys row
  | _, _ :: _, [] => False

def IsFullRow (v w : List α) : List Nat → Prop
  | [] => False
  | first :: rest => first = v.length ∧ IsRow v [] w rest

theorem isRow_range' (u ys : List α) :
    IsRow [] u ys (List.range' (u.length + 1) ys.length) := by
  induction ys generalizing u with
  | nil => simp [IsRow]
  | cons y ys ih =>
    rw [List.length_cons, List.range'_succ]
    refine ⟨by simpa using isDistance_nil_left (u ++ [y]), ?_⟩
    simpa using ih (u ++ [y])

theorem isFullRow_range (w : List α) : IsFullRow [] w (List.range (w.length + 1)) := by
  rw [List.range_eq_range', List.range'_succ]
  exact ⟨rfl, by simpa using isRow_range' [] w⟩

theorem IsRow.getLastD {u ys : List α} {row : List Nat} {n : Nat} (hn : IsDistance v u n)
    (h : IsRow v u ys row) : IsDistance v (u ++ ys) (row.getLastD n) := by
  induction ys generalizing u row n with
  | nil =>
    cases h
    simpa using hn
  | cons y ys ih =>
    cases row with
    | nil => exact h.elim
    | cons m row =>
      rw [List.getLastD_cons, List.append_cons]
      exact ih h.1 h.2

variable [DecidableEq α]

/-- The three ways in which an alignment of two sequences can begin. -/
theorem IsDistance.cons (ha : IsDistance v w a) (hb : IsDistance v (y :: w) b)
    (hc : IsDistance (x :: v) w c) :
    IsDistance (x :: v) (y :: w) (min (min (a + if x = y then 0 else 1) (b + 1)) (c + 1)) := by
  have hkeep : Alignment (fun _ => True) (x :: v) (y :: w) (a + if x = y then 0 else 1) := by
    by_cases hxy : x = y
    · subst hxy
      simpa using Alignment.keep x ha.1
    · simpa [hxy] using Alignment.replace x y trivial ha.1
  constructor
  · refine min_rec' (fun n => n ∈ {m | Alignment (fun _ => True) (x :: v) (y :: w) m}) ?_ ?_
    · exact min_rec' _ hkeep (.delete x hb.1)
    · exact .insert y trivial hc.1
  · intro m (hm : Alignment (fun _ => True) (x :: v) (y :: w) m)
    cases hm with
    | keep x h =>
      have := ha.2 h
      simp only [if_pos]
      omega
    | replace x y hy h =>
      have := ha.2 h
      split <;> omega
    | insert y hy h =>
      have := hc.2 h
      omega
    | delete x h =>
      have := hb.2 h
      omega

theorem IsDistance.snoc (ha : IsDistance v w a) (hb : IsDistance v (w ++ [y]) b)
    (hc : IsDistance (v ++ [x]) w c) :
    IsDistance (v ++ [x]) (w ++ [y])
      (min (min (a + if x = y then 0 else 1) (b + 1)) (c + 1)) := by
  rw [← isDistance_reverse_iff] at ha hb hc ⊢
  simp only [List.reverse_append, List.reverse_cons, List.reverse_nil, List.nil_append,
    List.singleton_append] at hb hc ⊢
  exact ha.cons hb hc

theorem isRow_fillRow {u ys : List α} {diagonal left : Nat} {above : List Nat}
    (hdiagonal : IsDistance v u diagonal) (hleft : IsDistance (v ++ [x]) u left)
    (habove : IsRow v u ys above) : IsRow (v ++ [x]) u ys (fillRow x ys diagonal left above) := by
  induction ys generalizing u diagonal left above with
  | nil => simp [IsRow, fillRow]
  | cons y ys ih =>
    cases above with
    | nil => exact habove.elim
    | cons n above =>
      have hentry := hdiagonal.snoc habove.1 hleft
      exact ⟨hentry, ih habove.1 hentry habove.2⟩

theorem isFullRow_nextRow {row : List Nat} (h : IsFullRow v w row) :
    IsFullRow (v ++ [x]) w (nextRow w row x) := by
  cases row with
  | nil => exact h.elim
  | cons first rest =>
    obtain ⟨rfl, hrest⟩ := h
    refine ⟨by simp, isRow_fillRow (isDistance_nil_right v) ?_ hrest⟩
    simpa using isDistance_nil_right (v ++ [x])

theorem isFullRow_foldl {row : List Nat} (xs : List α) (h : IsFullRow v w row) :
    IsFullRow (v ++ xs) w (xs.foldl (nextRow w) row) := by
  induction xs generalizing v row with
  | nil => simpa using h
  | cons x xs ih => simpa using ih (isFullRow_nextRow (x := x) h)

theorem isFullRow_lastRow (v w : List α) : IsFullRow v w (lastRow v w) := by
  simpa [lastRow] using isFullRow_foldl v (isFullRow_range w)

end EditDistance

variable {α : Type} [DecidableEq α]

open EditDistance in
theorem isDistance_editDistance (v w : List α) : IsDistance v w (editDistance v w) := by
  have h := isFullRow_lastRow v w
  unfold editDistance
  cases hrow : lastRow v w with
  | nil =>
    rw [hrow] at h
    exact h.elim
  | cons first rest =>
    rw [hrow] at h
    obtain ⟨rfl, hrest⟩ := h
    rw [List.getLastD_cons]
    exact hrest.getLastD (isDistance_nil_right v)

theorem editDistance_le_iff {v w : List α} {n : Nat} :
    editDistance v w ≤ n ↔ ∃ m ≤ n, Alignment (fun _ => True) v w m := by
  constructor
  · intro h
    exact ⟨_, h, (isDistance_editDistance v w).1⟩
  · rintro ⟨m, hm, h⟩
    exact Nat.le_trans ((isDistance_editDistance v w).2 h) hm

end GrammarRepair
