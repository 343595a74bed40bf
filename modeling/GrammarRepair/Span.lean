import GrammarRepair.Fault

/-!
Stretches of a source text, counted in bytes of its UTF-8 form, and the line and column of a byte.
-/

namespace GrammarRepair

/-- A stretch of text: the bytes from `start` up to, not including, `stop`. -/
structure Span where
  start : Nat
  stop : Nat
  start_le_stop : start ≤ stop
  deriving DecidableEq, Repr

namespace Span

def point (offset : Nat) : Span := ⟨offset, offset, Nat.le_refl _⟩

def ofBounds (start stop : Nat) : Except Fault Span :=
  if h : start ≤ stop then .ok ⟨start, stop, h⟩ else .error (.backwardSpan start stop)

def length (s : Span) : Nat := s.stop - s.start

def isEmpty (s : Span) : Bool := s.length == 0

@[simp] theorem point_start (o : Nat) : (point o).start = o := rfl
@[simp] theorem point_stop (o : Nat) : (point o).stop = o := rfl
@[simp] theorem length_point (o : Nat) : (point o).length = 0 := by simp [length]

theorem start_add_length (s : Span) : s.start + s.length = s.stop := by
  have := s.start_le_stop
  unfold length
  omega

end Span

/-- How many bytes the characters take in UTF-8. -/
def byteLength : List Char → Nat
  | [] => 0
  | c :: cs => c.utf8Size + byteLength cs

@[simp] theorem byteLength_nil : byteLength [] = 0 := rfl

@[simp] theorem byteLength_cons (c : Char) (cs : List Char) :
    byteLength (c :: cs) = c.utf8Size + byteLength cs := rfl

@[simp] theorem byteLength_append (as bs : List Char) :
    byteLength (as ++ bs) = byteLength as + byteLength bs := by
  induction as with
  | nil => simp
  | cons a as ih => simp [ih, Nat.add_assoc]

/-- The characters that fill exactly the first `n` bytes of a text; none if the text is shorter or
the `n`-th byte is inside a character. -/
def charsBefore? : Nat → List Char → Option (List Char)
  | 0, _ => some []
  | _ + 1, [] => none
  | n + 1, c :: cs =>
    if c.utf8Size ≤ n + 1 then (charsBefore? (n + 1 - c.utf8Size) cs).map (c :: ·) else none

@[simp] theorem charsBefore?_zero (cs : List Char) : charsBefore? 0 cs = some [] := by
  cases cs <;> rfl

theorem charsBefore?_append (as bs : List Char) :
    charsBefore? (byteLength as) (as ++ bs) = some as := by
  induction as with
  | nil => simp
  | cons a as ih =>
    have hpos := a.utf8Size_pos
    obtain ⟨n, hn⟩ : ∃ n, byteLength (a :: as) = n + 1 := ⟨a.utf8Size + byteLength as - 1, by
      simp only [byteLength_cons]; omega⟩
    have hrest : n + 1 - a.utf8Size = byteLength as := by
      simp only [byteLength_cons] at hn; omega
    have hle : a.utf8Size ≤ n + 1 := by simp only [byteLength_cons] at hn; omega
    rw [hn, List.cons_append, charsBefore?, if_pos hle, hrest, ih]
    rfl

theorem charsBefore?_eq_some {n : Nat} {cs as : List Char} (h : charsBefore? n cs = some as) :
    byteLength as = n ∧ as <+: cs := by
  induction cs generalizing n as with
  | nil =>
    cases n with
    | zero => simp_all
    | succ n => simp [charsBefore?] at h
  | cons c cs ih =>
    cases n with
    | zero => simp_all
    | succ n =>
      simp only [charsBefore?] at h
      split at h
      · obtain ⟨bs, hbs, rfl⟩ := Option.map_eq_some_iff.1 h
        obtain ⟨hlen, hpre⟩ := ih hbs
        exact ⟨by simp only [byteLength_cons, hlen]; omega, by simpa using hpre⟩
      · simp at h

/-- Line and column, both counted from one, of the character that follows `before`. Columns count
characters. -/
def positionAfter (before : List Char) : Nat × Nat :=
  (before.count '\n' + 1, (before.reverse.takeWhile (· != '\n')).length + 1)

/-- Line and column of a span's start; none if the text is too short or the start is inside a
character. -/
def Span.lineColumn? (s : Span) (text : String) : Option (Nat × Nat) :=
  (charsBefore? s.start text.toList).map positionAfter

end GrammarRepair
