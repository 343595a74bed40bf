import GrammarRepair.Source.Cursor

/-!
Byte offsets and characters. An offset is a character boundary if the characters of some part of the
text, from its beginning on, fill exactly that many bytes. Main statements: a cursor that is moved
stays on its text, line and column exist at boundaries and nowhere else, and one byte before the end
there is a boundary unless the last character takes more bytes.
-/

namespace GrammarRepair

variable {text : String} {c : Cursor} {n offset : Nat} {s : Span}

theorem byteLength_eq_utf8ByteSize (cs : List Char) :
    byteLength cs = (String.ofList cs).utf8ByteSize := by
  induction cs with
  | nil => rfl
  | cons c cs ih =>
    have hsplit : String.ofList (c :: cs) = String.singleton c ++ String.ofList cs := by
      rw [String.singleton_eq_ofList, ← String.ofList_append, List.singleton_append]
    rw [byteLength_cons, ih, hsplit, String.utf8ByteSize_append, String.utf8ByteSize_singleton]

@[simp] theorem byteLength_toList (text : String) : byteLength text.toList = text.utf8ByteSize := by
  rw [byteLength_eq_utf8ByteSize, String.ofList_toList]

/-- The offset does not lie inside a character of the text, nor behind its end. -/
def IsBoundary (text : String) (offset : Nat) : Prop :=
  ∃ before after, text.toList = before ++ after ∧ offset = byteLength before

theorem isBoundary_iff : IsBoundary text offset ↔ (charsBefore? offset text.toList).isSome := by
  constructor
  · rintro ⟨before, after, htext, rfl⟩
    rw [htext, charsBefore?_append]
    rfl
  · intro h
    obtain ⟨before, hbefore⟩ := Option.isSome_iff_exists.1 h
    obtain ⟨hlength, after, hafter⟩ := charsBefore?_eq_some hbefore
    exact ⟨before, after, hafter.symm, hlength.symm⟩

instance (text : String) (offset : Nat) : Decidable (IsBoundary text offset) :=
  decidable_of_iff _ isBoundary_iff.symm

theorem IsBoundary.le (h : IsBoundary text offset) : offset ≤ text.utf8ByteSize := by
  obtain ⟨before, after, htext, rfl⟩ := h
  rw [← byteLength_toList, htext, byteLength_append]
  exact Nat.le_add_right _ _

theorem isBoundary_zero (text : String) : IsBoundary text 0 := ⟨[], text.toList, rfl, rfl⟩

/-- The last character of the text takes more than one byte. -/
def EndsWide (text : String) : Prop :=
  ∃ before c, text.toList = before ++ [c] ∧ 1 < c.utf8Size

/-- One byte before the end. -/
theorem isBoundary_pred_iff :
    IsBoundary text (text.utf8ByteSize - 1) ↔ ¬ EndsWide text := by
  rcases List.eq_nil_or_concat text.toList with hnil | ⟨before, c, hc⟩
  · have hsize : text.utf8ByteSize = 0 := by rw [← byteLength_toList, hnil, byteLength_nil]
    rw [hsize]
    refine iff_of_true (isBoundary_zero text) ?_
    rintro ⟨before, c, hc, -⟩
    simp [hnil] at hc
  · rw [List.concat_eq_append] at hc
    have hsize : text.utf8ByteSize = byteLength before + c.utf8Size := by
      rw [← byteLength_toList, hc]
      simp
    have hpos := c.utf8Size_pos
    constructor
    · rintro ⟨before', after, htext, hoffset⟩ ⟨before'', c', hc', hwide⟩
      obtain ⟨-, hlast⟩ := List.append_inj' (hc.symm.trans hc') rfl
      obtain rfl : c = c' := by simpa using hlast
      have hprefix : before' <+: before ++ [c] := ⟨after, by rw [← htext, hc]⟩
      rcases List.prefix_concat_iff.1 hprefix with rfl | ⟨rest, rfl⟩
      · rw [byteLength_append, byteLength_cons, byteLength_nil] at hoffset
        omega
      · rw [byteLength_append] at hsize
        omega
    · intro hnarrow
      have hone : ¬ 1 < c.utf8Size := fun hwide => hnarrow ⟨before, c, hc, hwide⟩
      exact ⟨before, [c], hc, by omega⟩

theorem lineColumn?_isSome_iff : (s.lineColumn? text).isSome = true ↔ IsBoundary text s.start := by
  rw [Span.lineColumn?, Option.isSome_map, isBoundary_iff]

namespace Span

structure Fits (text : String) (s : Span) : Prop where
  start : IsBoundary text s.start
  stop : IsBoundary text s.stop

theorem fits_point_iff : (point offset).Fits text ↔ IsBoundary text offset :=
  ⟨fun h => h.start, fun h => ⟨h, h⟩⟩

end Span

namespace Cursor

/-- What the cursor has behind and ahead of it is the text. -/
def On (text : String) (c : Cursor) : Prop :=
  ∃ before, text.toList = before ++ c.ahead ∧ c.offset = byteLength before

theorem on_start (text : String) : (start text).On text := ⟨[], rfl, rfl⟩

theorem On.skip (h : c.On text) (n : Nat) : (c.skip n).On text := by
  obtain ⟨before, htext, hoffset⟩ := h
  refine ⟨before ++ c.ahead.take n, ?_, ?_⟩
  · rw [htext, ahead_skip, List.append_assoc, List.take_append_drop]
  · rw [Cursor.skip, hoffset, byteLength_append]

theorem On.isBoundary (h : c.On text) : IsBoundary text c.offset := by
  obtain ⟨before, htext, hoffset⟩ := h
  exact ⟨before, c.ahead, htext, hoffset⟩

theorem On.fits_spanOf (h : c.On text) (n : Nat) : (c.spanOf n).Fits text :=
  ⟨h.isBoundary, (h.skip n).isBoundary⟩

theorem On.size_eq (h : c.On text) : text.utf8ByteSize = c.offset + byteLength c.ahead := by
  obtain ⟨before, htext, hoffset⟩ := h
  rw [← byteLength_toList, htext, byteLength_append, hoffset]

end Cursor

end GrammarRepair
