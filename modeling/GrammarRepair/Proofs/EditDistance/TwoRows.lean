import GrammarRepair.EditDistance.TwoRows
import GrammarRepair.Proofs.Checked

/-!
The table in two rows of memory. What older rows left behind is overwritten before it is looked at:
when an entry is written, everything up to its left neighbour belongs to the new row. Main statement:
no look and no write is outside the rows, and the last entry is the edit distance.
-/

namespace GrammarRepair

namespace EditDistance

namespace TwoRows

variable {α : Type} [DecidableEq α] {w : List α}

theorem entry_append {row : Array Nat} {before after : List Nat} {n i : Nat}
    (hrow : row.toList = before ++ n :: after) (hi : before.length = i) :
    Checked.entry row i = .ok n := by
  refine Checked.entry_ok ?_
  rw [← Array.getElem?_toList, hrow, ← hi, List.getElem?_append_right (Nat.le_refl _),
    Nat.sub_self, List.getElem?_cons_zero]

theorem put_append {row : Array Nat} {before after : List Nat} {stale i : Nat} (n : Nat)
    (hrow : row.toList = before ++ stale :: after) (hi : before.length = i) :
    ∃ row', Checked.put row i n = .ok row' ∧ row'.toList = before ++ n :: after := by
  have hlt : i < row.size := by
    rw [← Array.length_toList, hrow, List.length_append, List.length_cons, hi]
    omega
  refine ⟨row.setIfInBounds i n, Checked.put_ok hlt n, ?_⟩
  rw [Array.toList_setIfInBounds, hrow, ← hi, List.set_append_right _ _ (Nat.le_refl _), Nat.sub_self,
    List.set_cons_zero]

/-- The inner loop, from the middle of a row on. In front of `left` the row is done; behind it there
are entries of an older row, as many as are to come. -/
theorem foldlM_fillEntry {x : α} {ys : List α} {t : TwoRows} {before done above stale : List Nat}
    {diagonal left j : Nat} (hprevious : t.previous.toList = before ++ diagonal :: above)
    (hcurrent : t.current.toList = done ++ left :: stale) (hbefore : before.length = j)
    (hdone : done.length = j) (habove : above.length = ys.length)
    (hstale : stale.length = ys.length) :
    ∃ row, (ys.zipIdx j).foldlM (fillEntry x) t = .ok ⟨t.previous, row⟩ ∧
      row.toList = done ++ left :: EditDistance.fillRow x ys diagonal left above := by
  induction ys generalizing t before done above stale diagonal left j with
  | nil =>
    obtain rfl := List.length_eq_zero_iff.1 hstale
    exact ⟨t.current, rfl, hcurrent⟩
  | cons y ys ih =>
    obtain ⟨n, above, rfl⟩ := List.exists_cons_of_length_eq_add_one habove
    obtain ⟨old, stale, rfl⟩ := List.exists_cons_of_length_eq_add_one hstale
    have hbefore' : (before ++ [diagonal]).length = j + 1 := by simp [hbefore]
    have hdone' : (done ++ [left]).length = j + 1 := by simp [hdone]
    have hdiagonal := entry_append hprevious hbefore
    have hleft := entry_append hcurrent hdone
    rw [List.append_cons] at hprevious hcurrent
    have hn := entry_append hprevious hbefore'
    obtain ⟨row, hput, hrow⟩ := put_append
      (min (min (diagonal + if x = y then 0 else 1) (n + 1)) (left + 1)) hcurrent hdone'
    have hstep : fillEntry x t (y, j) = .ok ⟨t.previous, row⟩ := by
      simp only [fillEntry, hdiagonal, hn, hleft, hput, Checked.ok_bind, Checked.pure_eq_ok]
    rw [List.zipIdx_cons, List.foldlM_cons, hstep, Checked.ok_bind]
    obtain ⟨row', hfill, hrow'⟩ := ih (t := ⟨t.previous, row⟩) hprevious hrow hbefore' hdone'
      (Nat.succ.inj habove) (Nat.succ.inj hstale)
    exact ⟨row', hfill, by rw [hrow', ← List.append_cons]; rfl⟩

theorem length_fillRow (x : α) {ys : List α} {diagonal left : Nat} {above : List Nat}
    (habove : above.length = ys.length) :
    (EditDistance.fillRow x ys diagonal left above).length = ys.length := by
  induction ys generalizing diagonal left above with
  | nil => rfl
  | cons y ys ih =>
    obtain ⟨n, above, rfl⟩ := List.exists_cons_of_length_eq_add_one habove
    exact congrArg (· + 1) (ih (Nat.succ.inj habove))

/-- The rows are those of the table around `i` items, whatever stands in the second one. -/
structure Holds (w : List α) (i : Nat) (rest : List Nat) (t : TwoRows) : Prop where
  previous : t.previous.toList = i :: rest
  length : rest.length = w.length
  size : t.current.size = w.length + 1

omit [DecidableEq α] in
theorem holds_start (w : List α) : (start w).Holds w 0 (List.range' 1 w.length) := by
  refine ⟨?_, List.length_range', Array.size_replicate⟩
  rw [start, Array.toList_range, List.range_eq_range', List.range'_succ]

theorem Holds.fillRow {i : Nat} {rest : List Nat} {t : TwoRows} (h : t.Holds w i rest) (x : α) :
    ∃ t', fillRow w t (x, i) = .ok t' ∧
      t'.Holds w (i + 1) (EditDistance.fillRow x w i (i + 1) rest) := by
  have hsize : t.current.toList.length = w.length + 1 := by rw [Array.length_toList, h.size]
  obtain ⟨old, stale, hcurrent⟩ := List.exists_cons_of_length_eq_add_one hsize
  have hstale : stale.length = w.length := by
    rw [hcurrent, List.length_cons] at hsize
    exact Nat.succ.inj hsize
  rw [← List.nil_append (old :: stale)] at hcurrent
  obtain ⟨row, hput, hrow⟩ := put_append (i := 0) (i + 1) hcurrent rfl
  have hprevious : t.previous.toList = [] ++ i :: rest := h.previous
  obtain ⟨row', hfill, hrow'⟩ := foldlM_fillEntry (x := x) (t := ⟨t.previous, row⟩) (j := 0)
    hprevious hrow rfl rfl h.length hstale
  refine ⟨⟨row', t.previous⟩, ?_, hrow', length_fillRow x h.length, ?_⟩
  · simp only [TwoRows.fillRow, hput, hfill, Checked.ok_bind, Checked.pure_eq_ok]
  · rw [← Array.length_toList, h.previous, List.length_cons, h.length]

theorem Holds.foldlM {v : List α} {i : Nat} {rest : List Nat} {t : TwoRows}
    (h : t.Holds w i rest) :
    ∃ t' rest', (v.zipIdx i).foldlM (TwoRows.fillRow w) t = .ok t' ∧
      v.foldl (nextRow w) (i :: rest) = (i + v.length) :: rest' ∧
      t'.Holds w (i + v.length) rest' := by
  induction v generalizing i rest t with
  | nil => exact ⟨t, rest, rfl, rfl, h⟩
  | cons x v ih =>
    obtain ⟨t', hfill, h'⟩ := h.fillRow x
    obtain ⟨t'', rest', hloop, hrows, h''⟩ := ih h'
    rw [Nat.add_right_comm, Nat.add_assoc] at hrows h''
    refine ⟨t'', rest', ?_, hrows, h''⟩
    rw [List.zipIdx_cons, List.foldlM_cons, hfill, Checked.ok_bind, hloop]

theorem distance_ok (v w : List α) : distance v w = .ok (editDistance v w) := by
  obtain ⟨t, rest, hloop, hrows, h⟩ := (holds_start w).foldlM (v := v)
  have hlast : lastRow v w = (0 + v.length) :: rest := by
    rw [lastRow, List.range_eq_range', List.range'_succ]
    exact hrows
  have hentry : t.previous[w.length]? = some ((lastRow v w).getLastD 0) := by
    rw [hlast, ← Array.getElem?_toList, h.previous, ← h.length]
    simp [List.getLastD_eq_getLast?, List.getLast?_eq_getElem?]
  rw [distance, hloop, Checked.ok_bind, Checked.entry_ok hentry, editDistance]

end TwoRows

end EditDistance

end GrammarRepair
