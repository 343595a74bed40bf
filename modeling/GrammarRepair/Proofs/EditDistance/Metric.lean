import GrammarRepair.Proofs.EditDistance.Alignment
import GrammarRepair.Proofs.EditDistance.TwoRows

/-!
Edit distance as a metric. An alignment edits every item at most once, from the front to the back; a
script edits anywhere and may come back to what it has edited before. A script is taken into an
alignment edit by edit: the alignment is split where the edit is made, and only the piece for the one
item that is edited is made anew. Main statement: the distance is the least number of edits of an
alignment and of a script alike, and it is a metric.
-/

namespace GrammarRepair

variable {α : Type} {mayAdd : α → Prop} {u v w p q : List α} {m n : Nat}

namespace Alignment

theorem uncons {y : α} (h : Alignment mayAdd u (y :: w) n) :
    ∃ u₁ u₂ n₁ n₂, u = u₁ ++ u₂ ∧ n = n₁ + n₂ ∧ Alignment mayAdd u₁ [y] n₁ ∧
      Alignment mayAdd u₂ w n₂ := by
  generalize hw : y :: w = w' at h
  induction h with
  | nil => cases hw
  | keep x h ih =>
    cases hw
    exact ⟨[y], _, 0, _, rfl, (Nat.zero_add _).symm, .keep y .nil, h⟩
  | replace x z hz h ih =>
    cases hw
    exact ⟨[x], _, 1, _, rfl, Nat.add_comm _ 1, .replace x y hz .nil, h⟩
  | insert z hz h ih =>
    cases hw
    exact ⟨[], _, 1, _, rfl, Nat.add_comm _ 1, .insert y hz .nil, h⟩
  | delete x h ih =>
    obtain ⟨u₁, u₂, n₁, n₂, rfl, rfl, h₁, h₂⟩ := ih hw
    exact ⟨x :: u₁, u₂, n₁ + 1, n₂, rfl, Nat.add_right_comm n₁ n₂ 1, .delete x h₁, h₂⟩

theorem split (h : Alignment mayAdd u (p ++ q) n) :
    ∃ u₁ u₂ n₁ n₂, u = u₁ ++ u₂ ∧ n = n₁ + n₂ ∧ Alignment mayAdd u₁ p n₁ ∧
      Alignment mayAdd u₂ q n₂ := by
  induction p generalizing u n with
  | nil => exact ⟨[], u, 0, n, rfl, (Nat.zero_add n).symm, .nil, h⟩
  | cons y p ih =>
    obtain ⟨u₁, u', n₁, n', rfl, rfl, h₁, h'⟩ := h.uncons
    obtain ⟨u₂, u₃, n₂, n₃, rfl, rfl, h₂, h₃⟩ := ih h'
    exact ⟨u₁ ++ u₂, u₃, n₁ + n₂, n₃, (List.append_assoc ..).symm, (Nat.add_assoc ..).symm,
      h₁.append h₂, h₃⟩

/-- What becomes one item becomes any other by one edit more at most. -/
theorem retarget {x : α} (y : α) (h : Alignment (fun _ => True) u [x] n) :
    ∃ m ≤ n + 1, Alignment (fun _ => True) u [y] m := by
  have hlength := h.length_le.2
  cases u with
  | nil => exact ⟨1, by omega, .insert y trivial .nil⟩
  | cons z u =>
    rw [List.length_cons, List.length_singleton] at hlength
    exact ⟨u.length + 1, by omega, .replace z y trivial (delete_all u)⟩

theorem edit (h : Alignment (fun _ => True) u v n) (he : Edit v w) :
    ∃ m ≤ n + 1, Alignment (fun _ => True) u w m := by
  cases he with
  | insert p q y =>
    obtain ⟨u₁, u₂, n₁, n₂, rfl, rfl, h₁, h₂⟩ := h.split
    exact ⟨n₁ + (n₂ + 1), by omega, h₁.append (.insert y trivial h₂)⟩
  | delete p q x =>
    obtain ⟨u₁, u', n₁, n', rfl, rfl, h₁, h'⟩ := h.split
    obtain ⟨u₂, u₃, n₂, n₃, rfl, rfl, h₂, h₃⟩ := h'.uncons
    have hlength : u₂.length ≤ n₂ + 1 := by
      have hle := h₂.length_le.2
      rw [List.length_singleton] at hle
      omega
    exact ⟨n₁ + (u₂.length + n₃), by omega, h₁.append ((delete_all u₂).append h₃)⟩
  | replace p q x y =>
    obtain ⟨u₁, u', n₁, n', rfl, rfl, h₁, h'⟩ := h.split
    obtain ⟨u₂, u₃, n₂, n₃, rfl, rfl, h₂, h₃⟩ := h'.uncons
    obtain ⟨m, hm, hy⟩ := h₂.retarget y
    exact ⟨n₁ + (m + n₃), by omega, h₁.append (hy.append h₃)⟩

theorem extend (h : Alignment (fun _ => True) u v m) (hs : Script v w n) :
    ∃ k ≤ m + n, Alignment (fun _ => True) u w k := by
  induction hs generalizing m with
  | done v => exact ⟨m, Nat.le_refl m, h⟩
  | step he hs ih =>
    obtain ⟨m', hm', h'⟩ := h.edit he
    obtain ⟨k, hk, h''⟩ := ih h'
    exact ⟨k, by omega, h''⟩

theorem symm (h : Alignment (fun _ => True) v w n) : Alignment (fun _ => True) w v n := by
  induction h with
  | nil => exact .nil
  | keep x h ih => exact .keep x ih
  | replace x y hy h ih => exact .replace y x trivial ih
  | insert y hy h ih => exact .delete y ih
  | delete x h ih => exact .insert x trivial ih

end Alignment

theorem Edit.cons (x : α) (h : Edit v w) : Edit (x :: v) (x :: w) := by
  cases h with
  | insert p q y => exact .insert (x :: p) q y
  | delete p q y => exact .delete (x :: p) q y
  | replace p q y z => exact .replace (x :: p) q y z

theorem Script.cons (x : α) (h : Script v w n) : Script (x :: v) (x :: w) n := by
  induction h with
  | done v => exact .done (x :: v)
  | step he h ih => exact .step (he.cons x) ih

/-- The edits of an alignment, one after another. -/
theorem Alignment.script (h : Alignment mayAdd v w n) : Script v w n := by
  induction h with
  | nil => exact .done []
  | keep x h ih => exact ih.cons x
  | replace x y hy h ih => exact .step (.replace [] _ x y) (ih.cons y)
  | insert y hy h ih => exact .step (.insert [] _ y) (ih.cons y)
  | delete x h ih => exact .step (.delete [] _ x) ih

/-- The edits of a script, each item once at most. -/
theorem Script.exists_alignment (h : Script v w n) :
    ∃ m ≤ n, Alignment (fun _ => True) v w m := by
  obtain ⟨m, hm, halign⟩ := (Alignment.zero_iff.2 rfl).extend h
  exact ⟨m, by omega, halign⟩

theorem Alignment.trans (h : Alignment (fun _ => True) u v m)
    (h' : Alignment (fun _ => True) v w n) : ∃ k ≤ m + n, Alignment (fun _ => True) u w k :=
  h.extend h'.script

namespace EditDistance

/-- Scripts need no fewer edits than alignments. -/
theorem isDistance_iff_isLeast_script : IsDistance v w n ↔ IsLeast {m | Script v w m} n := by
  constructor
  · intro h
    refine ⟨h.1.script, fun m hm => ?_⟩
    obtain ⟨k, hk, halign⟩ := Script.exists_alignment hm
    exact Nat.le_trans (h.2 halign) hk
  · intro h
    obtain ⟨m, hm, halign⟩ := Script.exists_alignment h.1
    obtain rfl : m = n := Nat.le_antisymm hm (h.2 halign.script)
    exact ⟨halign, fun k hk => h.2 (Alignment.script hk)⟩

end EditDistance

variable [DecidableEq α]

theorem editDistance_eq_zero_iff : editDistance v w = 0 ↔ v = w := by
  rw [← Nat.le_zero, editDistance_le_iff]
  simp [Alignment.zero_iff]

theorem editDistance_comm (v w : List α) : editDistance v w = editDistance w v := by
  refine Nat.le_antisymm ?_ ?_
  · exact (isDistance_editDistance v w).2 (isDistance_editDistance w v).1.symm
  · exact (isDistance_editDistance w v).2 (isDistance_editDistance v w).1.symm

theorem editDistance_triangle (u v w : List α) :
    editDistance u w ≤ editDistance u v + editDistance v w :=
  editDistance_le_iff.2 ((isDistance_editDistance u v).1.trans (isDistance_editDistance v w).1)

/-- The distance is the least number of edits in an alignment, and in any script; filling the table
in two rows that are used over and over finds it, without a look outside the rows. It is a metric. -/
theorem editDistance_is_least_script (u v w : List α) :
    EditDistance.TwoRows.distance v w = .ok (editDistance v w) ∧
      IsLeast {n | Alignment (fun _ => True) v w n} (editDistance v w) ∧
      IsLeast {n | Script v w n} (editDistance v w) ∧
      (editDistance v w = 0 ↔ v = w) ∧
      editDistance v w = editDistance w v ∧
      editDistance u w ≤ editDistance u v + editDistance v w := by
  have hleast := isDistance_editDistance v w
  have hscript := EditDistance.isDistance_iff_isLeast_script.1 hleast
  exact ⟨EditDistance.TwoRows.distance_ok v w, hleast, hscript, editDistance_eq_zero_iff,
    editDistance_comm v w, editDistance_triangle u v w⟩

end GrammarRepair
