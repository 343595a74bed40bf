import GrammarRepair.Proofs.Source.Bytes
import GrammarRepair.Source.Position
import Mathlib.Data.Prod.Basic

/-!
Lines and columns as names for offsets. One more character moves on to the next line or to the next
column, so whatever lies behind a character has a greater position. Main statement: positions at
character boundaries are in the order of the offsets, and scanning the text before an offset finds
them without a slip.
-/

namespace GrammarRepair

variable {text : String} {before more : List Char} {s : Span} {p : Nat × Nat}

theorem positionAfter_concat (before : List Char) (c : Char) :
    positionAfter (before ++ [c]) =
      if c = '\n' then ((positionAfter before).1 + 1, 1)
      else ((positionAfter before).1, (positionAfter before).2 + 1) := by
  by_cases hc : c = '\n'
  · simp [positionAfter, hc]
  · simp [positionAfter, hc, List.count_append]

theorem positionAfter_lt_concat (before : List Char) (c : Char) :
    Prod.Lex (· < ·) (· < ·) (positionAfter before) (positionAfter (before ++ [c])) := by
  rw [positionAfter_concat]
  split
  · exact .left _ _ (Nat.lt_succ_self _)
  · exact .right _ (Nat.lt_succ_self _)

theorem positionAfter_lt_append (before : List Char) (h : more ≠ []) :
    Prod.Lex (· < ·) (· < ·) (positionAfter before) (positionAfter (before ++ more)) := by
  induction more generalizing before with
  | nil => exact absurd rfl h
  | cons c more ih =>
    have hstep := positionAfter_lt_concat before c
    rw [List.append_cons]
    by_cases hmore : more = []
    · rwa [hmore, List.append_nil]
    · exact IsTrans.trans _ _ _ hstep (ih (before ++ [c]) hmore)

theorem lineColumn?_eq_some_iff : s.lineColumn? text = some p ↔
    ∃ before after, text.toList = before ++ after ∧ s.start = byteLength before ∧
      p = positionAfter before := by
  rw [Span.lineColumn?, Option.map_eq_some_iff]
  constructor
  · rintro ⟨before, hbefore, rfl⟩
    obtain ⟨hlength, after, hafter⟩ := charsBefore?_eq_some hbefore
    exact ⟨before, after, hafter.symm, hlength.symm, rfl⟩
  · rintro ⟨before, after, htext, hstart, rfl⟩
    exact ⟨before, by rw [htext, hstart, charsBefore?_append], rfl⟩

theorem exists_append_of_byteLength_lt {before before' after after' : List Char}
    (htext : before ++ after = before' ++ after') (hlt : byteLength before < byteLength before') :
    ∃ more, more ≠ [] ∧ before' = before ++ more := by
  rcases List.append_eq_append_iff.1 htext with ⟨more, rfl, -⟩ | ⟨more, rfl, -⟩
  · refine ⟨more, ?_, rfl⟩
    rintro rfl
    simp at hlt
  · rw [byteLength_append] at hlt
    omega

theorem lineColumn?_lt {o₁ o₂ : Nat} {p₁ p₂ : Nat × Nat}
    (h₁ : (Span.point o₁).lineColumn? text = some p₁)
    (h₂ : (Span.point o₂).lineColumn? text = some p₂) (hlt : o₁ < o₂) :
    Prod.Lex (· < ·) (· < ·) p₁ p₂ := by
  obtain ⟨before, after, htext, rfl, rfl⟩ := lineColumn?_eq_some_iff.1 h₁
  obtain ⟨before', after', htext', rfl, rfl⟩ := lineColumn?_eq_some_iff.1 h₂
  obtain ⟨more, hmore, rfl⟩ := exists_append_of_byteLength_lt (htext.symm.trans htext') hlt
  exact positionAfter_lt_append before hmore

theorem exists_last_lineBreak {cs : List Char} (h : '\n' ∈ cs) :
    ∃ head tail, cs = head ++ '\n' :: tail ∧ '\n' ∉ tail := by
  obtain ⟨tail, head, hsplit, hnot⟩ := List.eq_append_cons_of_mem (List.mem_reverse.2 h)
  refine ⟨head.reverse, tail.reverse, ?_, by simpa using hnot⟩
  rw [← List.reverse_reverse cs, hsplit]
  simp

theorem takeWhile_line {cs : List Char} (h : '\n' ∉ cs) (rest : List Char) :
    (cs ++ rest).takeWhile (· != '\n') = cs ++ rest.takeWhile (· != '\n') := by
  refine List.takeWhile_append_of_pos fun c hc => ?_
  rw [bne_iff_ne]
  rintro rfl
  exact h hc

namespace Bytes

theorem lastLineBreak?_of_not_mem {cs : List Char} (h : '\n' ∉ cs) : lastLineBreak? cs = none := by
  induction cs with
  | nil => rfl
  | cons c cs ih =>
    obtain ⟨hc, hcs⟩ := not_or.1 (mt List.mem_cons.2 h)
    rw [lastLineBreak?, ih hcs]
    exact if_neg fun heq => hc heq.symm

theorem lastLineBreak?_append {tail : List Char} (h : '\n' ∉ tail) (head : List Char) :
    lastLineBreak? (head ++ '\n' :: tail) = some (byteLength head) := by
  induction head with
  | nil => simp [lastLineBreak?, lastLineBreak?_of_not_mem h]
  | cons c head ih => simp [lastLineBreak?, ih]

theorem slice_before {after : List Char} (htext : text.toList = before ++ after) :
    slice text 0 (byteLength before) = .ok before := by
  have hslice := slice_offset (Cursor.on_start text) before.length
  have htake : text.toList.take before.length = before := by rw [htext, List.take_left]
  simpa [Cursor.start, Cursor.skip, htake] using hslice

/-- Nothing but the text before a character boundary is cut off. -/
theorem exists_of_slice_zero {offset : Nat} (h : slice text 0 offset = .ok before) :
    ∃ after, text.toList = before ++ after ∧ offset = byteLength before := by
  rw [slice, sliceFrom, charsBefore?_zero, Checked.ok_bind, Nat.sub_zero, List.length_nil,
    List.drop_zero] at h
  cases hcut : charsBefore? offset text.toList with
  | none =>
    rw [hcut] at h
    cases h
  | some cs =>
    simp only [hcut, Nat.zero_le, if_true, Checked.pure_eq_ok, Except.ok.injEq] at h
    subst h
    obtain ⟨hlength, after, hafter⟩ := charsBefore?_eq_some hcut
    exact ⟨after, hafter.symm, hlength.symm⟩

theorem sliceFrom_behind_lineBreak (head tail : List Char) :
    sliceFrom (String.ofList (head ++ '\n' :: tail)) (byteLength head + 1) = .ok tail := by
  have hbefore := charsBefore?_append (head ++ ['\n']) tail
  have hbytes : byteLength (head ++ ['\n']) = byteLength head + 1 := by
    rw [byteLength_append]
    rfl
  rw [hbytes, List.append_assoc, List.singleton_append] at hbefore
  rw [sliceFrom, String.toList_ofList, hbefore]
  simp

/-- The scans find what is counted from the last line break on. -/
theorem position_before {after : List Char} (htext : text.toList = before ++ after)
    (hstart : s.start = byteLength before) : position text s = .ok (positionAfter before) := by
  rw [position, hstart, slice_before htext, Checked.ok_bind]
  by_cases hmem : '\n' ∈ before
  · obtain ⟨head, tail, rfl, hnot⟩ := exists_last_lineBreak hmem
    have hcolumn : (head ++ '\n' :: tail).reverse.takeWhile (· != '\n') = tail.reverse := by
      rw [List.reverse_append, List.reverse_cons, List.append_assoc, takeWhile_line (by simpa)]
      simp
    simp only [lastLineBreak?_append hnot, sliceFrom_behind_lineBreak, Checked.ok_bind,
      positionAfter, hcolumn, List.length_reverse, Checked.pure_eq_ok]
  · have hcolumn : before.reverse.takeWhile (· != '\n') = before.reverse := by
      have hreverse : '\n' ∉ before.reverse := mt List.mem_reverse.1 hmem
      simpa using takeWhile_line hreverse []
    simp only [lastLineBreak?_of_not_mem hmem, positionAfter, hcolumn, List.length_reverse,
      Checked.pure_eq_ok]

theorem position_eq_ok_iff : position text s = .ok p ↔ s.lineColumn? text = some p := by
  rw [lineColumn?_eq_some_iff]
  constructor
  · intro h
    cases hslice : slice text 0 s.start with
    | error slip =>
      rw [position, hslice] at h
      cases h
    | ok before =>
      obtain ⟨after, htext, hstart⟩ := exists_of_slice_zero hslice
      rw [position_before htext hstart] at h
      cases h
      exact ⟨before, after, htext, hstart, rfl⟩
  · rintro ⟨before, after, htext, hstart, rfl⟩
    exact position_before htext hstart

end Bytes

/-- Every character boundary has a line and a column and nothing else has, and scanning the text finds
them. Greater offsets have greater positions, line before column, so no two have the same. Behind one
more character the line is the next one if that is a line break, with the column starting over, and
the column is the next one if it is not. -/
theorem positions_follow_offsets (text : String) :
    (∀ s : Span, ((s.lineColumn? text).isSome = true ↔ IsBoundary text s.start) ∧
      ∀ p, Bytes.position text s = .ok p ↔ s.lineColumn? text = some p) ∧
    (∀ o₁ o₂ p₁ p₂, (Span.point o₁).lineColumn? text = some p₁ →
      (Span.point o₂).lineColumn? text = some p₂ →
        (o₁ < o₂ → Prod.Lex (· < ·) (· < ·) p₁ p₂) ∧ (p₁ = p₂ → o₁ = o₂)) ∧
    ∀ before c after, text.toList = before ++ c :: after → ∃ line column,
      (Span.point (byteLength before)).lineColumn? text = some (line, column) ∧
      (Span.point (byteLength before + c.utf8Size)).lineColumn? text =
        some (if c = '\n' then (line + 1, 1) else (line, column + 1)) := by
  refine ⟨fun s => ⟨lineColumn?_isSome_iff, fun p => Bytes.position_eq_ok_iff⟩, ?_, ?_⟩
  · intro o₁ o₂ p₁ p₂ h₁ h₂
    refine ⟨lineColumn?_lt h₁ h₂, ?_⟩
    rintro rfl
    rcases Nat.lt_trichotomy o₁ o₂ with hlt | heq | hlt
    · exact absurd (lineColumn?_lt h₁ h₂ hlt) (irrefl _)
    · exact heq
    · exact absurd (lineColumn?_lt h₂ h₁ hlt) (irrefl _)
  · intro before c after htext
    have hbefore : (Span.point (byteLength before)).lineColumn? text =
        some (positionAfter before) := lineColumn?_eq_some_iff.2 ⟨before, _, htext, rfl, rfl⟩
    have hbehind : (Span.point (byteLength before + c.utf8Size)).lineColumn? text =
        some (positionAfter (before ++ [c])) :=
      lineColumn?_eq_some_iff.2 ⟨before ++ [c], after, by simp [htext], by simp, rfl⟩
    exact ⟨(positionAfter before).1, (positionAfter before).2, hbefore,
      by rw [hbehind, positionAfter_concat]⟩

/-- A line break behind a character of two bytes. -/
theorem positions_follow_offsets_wide :
    (Span.point 2).lineColumn? "é\nb" = some (1, 2) ∧
      (Span.point 3).lineColumn? "é\nb" = some (2, 1) ∧
      Prod.Lex (· < ·) (· < ·) ((1, 2) : Nat × Nat) (2, 1) := by
  have hbreak : (Span.point 2).lineColumn? "é\nb" = some (1, 2) := by decide +kernel
  have hnext : (Span.point 3).lineColumn? "é\nb" = some (2, 1) := by decide +kernel
  have hpositions := (positions_follow_offsets "é\nb").2.1 2 3 _ _ hbreak hnext
  exact ⟨hbreak, hnext, hpositions.1 (by decide)⟩

end GrammarRepair
