import GrammarRepair.Source.Outline
import GrammarRepair.Source.Sheet

/-!
Reading the pieces of a rendered outline. A gap is skipped as a whole, since no piece begins like a
blank, and a word ends where it should, since no gap and no other piece continues it. Main statement:
at a rendered piece, the cursor sees its marks and no others, reads its word, and behind it comes to
the piece that follows.
-/

namespace GrammarRepair

namespace Source

open Outline

variable {breaks : Bool} {c : Cursor} {d : Char} {cs gap rest more : List Char}

theorem takeWhile_append_stop {p : Char → Bool} (hcs : ∀ d ∈ cs, p d = true)
    (hmore : ∀ d ∈ more.head?, p d = false) : (cs ++ more).takeWhile p = cs := by
  rw [List.takeWhile_append_of_pos hcs]
  cases more with
  | nil => simp
  | cons d more => simp [hmore d rfl]

theorem commentLength?_append (h : ¬ ['*', '/'] <:+: cs) :
    commentLength? (cs ++ '*' :: '/' :: rest) = some cs.length := by
  induction cs with
  | nil => rfl
  | cons d cs ih =>
    have hcs := ih fun hmark => h (hmark.trans (List.suffix_cons d cs).isInfix)
    rw [List.cons_append, commentLength?, hcs]
    · rfl
    -- the mark cannot begin with the last character of the body either
    · rintro tail rfl htail
      cases cs with
      | nil => cases htail
      | cons e cs =>
        obtain ⟨rfl, -⟩ := List.cons.inj htail
        exact h (List.prefix_append ['*', '/'] cs).isInfix

theorem blankLength_block {n : Nat} (h : commentLength? cs = some n)
    (hallowed : (!breaks && (cs.take n).any isBreak) = false) :
    blankLength breaks ('/' :: '*' :: cs) = .ok (2 + n + 2) := by
  have hslash : isBreak '/' = false := rfl
  simp [blankLength, hslash, h, hallowed]

theorem blankLength_append {blank : List Char} (h : Blank breaks blank) :
    blankLength breaks (blank ++ rest) = .ok blank.length := by
  cases h with
  | space => rfl
  | tab => rfl
  | @lineBreak c hc hbreaks =>
    have hspace : (c == ' ' || c == '\t') = false := by
      rcases Bool.or_eq_true_iff.1 hc with hc | hc <;> rw [eq_of_beq hc] <;> rfl
    simp [blankLength, hspace, hc, hbreaks]
  | @line body c hbody hc =>
    have hline : ((body ++ [c]) ++ rest).takeWhile (!isBreak ·) = body := by
      rw [List.append_assoc]
      have hline := List.any_eq_false.1 hbody
      exact takeWhile_append_stop (fun d hd => by simp [hline d hd]) (by simp [hc])
    have hslash : blankLength breaks ('/' :: '/' :: ((body ++ [c]) ++ rest)) =
      .ok (2 + (((body ++ [c]) ++ rest).takeWhile (!isBreak ·)).length + 1) := rfl
    rw [List.cons_append, List.cons_append, hslash, hline]
    simp only [List.length_cons, List.length_append, List.length_nil]
    congr 1
    omega
  | @block body hbody hbreaks =>
    have hstar : (body ++ ['*', '/']) ++ rest = body ++ '*' :: '/' :: rest := by simp
    have hallowed : (!breaks && body.any isBreak) = false := by
      rcases hbreaks with rfl | hbreaks
      · rfl
      · rw [hbreaks, Bool.and_false]
    rw [List.cons_append, List.cons_append, hstar,
      blankLength_block (commentLength?_append hbody) (by rw [List.take_left, hallowed])]
    simp only [List.length_cons, List.length_append, List.length_nil]
    congr 1
    omega

theorem length_pos_of_blank {blank : List Char} (h : Blank breaks blank) : 0 < blank.length := by
  cases h <;> simp

def Solid (cs : List Char) : Prop := ∀ breaks, blankLength breaks cs = .ok 0

theorem solid_nil : Solid [] := blankLength_nil

theorem skipBlanks_solid (h : Solid c.ahead) : skipBlanks breaks c = .ok c := by
  rw [skipBlanks]
  split
  · next kind hk => rw [h breaks] at hk; cases hk
  · rfl
  · next n hk => rw [h breaks] at hk; cases hk

theorem skipBlanks_blank {n : Nat} (h : blankLength breaks c.ahead = .ok n) (hn : 0 < n) :
    skipBlanks breaks c = skipBlanks breaks (c.skip n) := by
  obtain ⟨n, rfl⟩ := Nat.exists_eq_succ_of_ne_zero (Nat.ne_of_gt hn)
  rw [skipBlanks]
  split
  · next kind hk => rw [h] at hk; cases hk
  · next hk => rw [h] at hk; cases hk
  · next m hk =>
    rw [h] at hk
    cases hk
    rfl

theorem skipBlanks_gap (hgap : Gap breaks gap) (hrest : Solid rest) :
    ∀ c : Cursor, c.ahead = gap ++ rest →
      ∃ d, skipBlanks breaks c = .ok d ∧ d.ahead = rest := by
  induction hgap with
  | nil =>
    intro c hc
    rw [List.nil_append] at hc
    exact ⟨c, skipBlanks_solid (hc ▸ hrest), hc⟩
  | @cons blank gap hblank hgap ih =>
    intro c hc
    rw [List.append_assoc] at hc
    have hlength : blankLength breaks c.ahead = .ok blank.length := by
      rw [hc, blankLength_append hblank]
    rw [skipBlanks_blank hlength (length_pos_of_blank hblank)]
    exact ih (c.skip blank.length) (by rw [Cursor.ahead_skip, hc, List.drop_left])

theorem ne_of_isNameChar {e : Char} (hd : isNameChar d = true) (he : isNameChar e = false) :
    d ≠ e := by
  rintro rfl
  rw [hd] at he
  cases he

theorem eq_of_isQuote (h : isQuote d = true) : d = '\'' ∨ d = '"' :=
  (Bool.or_eq_true_iff.1 h).imp eq_of_beq eq_of_beq

theorem isNameChar_of_isTokenChar (h : isTokenChar d = true) : isNameChar d = true := by
  rw [isNameChar, h, Bool.true_or]

theorem isTokenChar_of_isTokenStart (h : isTokenStart d = true) : isTokenChar d = true := by
  rw [isTokenChar, h, Bool.true_or]

/-- The characters that pieces begin with. -/
def Opens (d : Char) : Prop := isTokenStart d = true ∨ isQuote d = true ∨ d ∈ ['%', ':', '|', ';']

theorem solid_of_opens (h : Opens d) : Solid (d :: cs) := by
  have hblank : d ≠ ' ' ∧ d ≠ '\t' ∧ d ≠ '\n' ∧ d ≠ '\r' ∧ d ≠ '/' := by
    rcases h with hstart | hquote | hmark
    · have hname := isNameChar_of_isTokenChar (isTokenChar_of_isTokenStart hstart)
      refine ⟨?_, ?_, ?_, ?_, ?_⟩ <;> exact ne_of_isNameChar hname rfl
    · rcases eq_of_isQuote hquote with rfl | rfl <;> decide
    · simp only [List.mem_cons, List.not_mem_nil, or_false] at hmark
      rcases hmark with rfl | rfl | rfl | rfl <;> decide
  obtain ⟨hspace, htab, hfeed, hreturn, hslash⟩ := hblank
  intro breaks
  simp [blankLength, isBreak, hspace, htab, hfeed, hreturn, hslash]

/-- A blank does not continue a word. -/
theorem head_of_blank {blank : List Char} (h : Blank breaks blank) :
    ∃ d tail, blank = d :: tail ∧ isNameChar d = false := by
  cases h with
  | space => exact ⟨_, _, rfl, by decide⟩
  | tab => exact ⟨_, _, rfl, by decide⟩
  | lineBreak hc =>
    refine ⟨_, _, rfl, ?_⟩
    rcases Bool.or_eq_true_iff.1 hc with hc | hc <;> rw [eq_of_beq hc] <;> decide
  | line => exact ⟨_, _, rfl, by decide⟩
  | block => exact ⟨_, _, rfl, by decide⟩

end Source

namespace Outline

open Source

variable {p : Piece} {ps : List Piece} {cs gap rest : List Char} {breaks : Bool}

theorem exists_of_isBareName {name : String} (h : isBareName name = true) :
    ∃ c cs, name.toList = c :: cs ∧ isTokenStart c = true ∧ ∀ d ∈ cs, isTokenChar d = true := by
  unfold isBareName at h
  split at h
  · cases h
  · next c cs hname =>
    rw [Bool.and_eq_true, List.all_eq_true] at h
    exact ⟨c, cs, hname, h.1, h.2⟩

theorem exists_of_isWritable_quoted {q : Char} {text : String}
    (h : (Spelling.quoted q text).isWritable = true) : isQuote q = true ∧
      ∃ c cs, text.toList = c :: cs ∧ c ≠ '\n' ∧ ∀ d ∈ cs, (d != q && d != '\n') = true := by
  simp only [Spelling.isWritable, Bool.and_eq_true] at h
  obtain ⟨⟨hquote, hne⟩, hall⟩ := h
  cases htext : text.toList with
  | nil => simp [htext] at hne
  | cons c cs =>
    rw [htext, List.all_cons, Bool.and_eq_true, List.all_eq_true] at hall
    refine ⟨hquote, c, cs, rfl, ?_, hall.2⟩
    have hc := hall.1
    simp only [Bool.and_eq_true, bne_iff_ne] at hc
    exact hc.2

theorem exists_head_of_spelling {s : Spelling} (h : s.isWritable = true) :
    ∃ d tail, s.chars = d :: tail ∧ (isTokenStart d = true ∨ isQuote d = true) := by
  cases s with
  | bare name =>
    obtain ⟨c, cs, hname, hstart, -⟩ := exists_of_isBareName h
    exact ⟨c, cs, hname, .inl hstart⟩
  | quoted q text => exact ⟨q, _, rfl, .inr (exists_of_isWritable_quoted h).1⟩

theorem exists_head_of_piece (h : p.isWritable = true) :
    ∃ d tail, p.chars = d :: tail ∧ Opens d ∧ (p.isBare = false → isNameChar d = false) := by
  cases p with
  | word s =>
    obtain ⟨d, tail, hchars, hopens⟩ := exists_head_of_spelling h
    refine ⟨d, tail, hchars, hopens.imp_right .inl, fun hbare => ?_⟩
    cases s with
    | bare name => cases hbare
    | quoted q text =>
      obtain ⟨rfl, -⟩ := List.cons.inj hchars
      rcases eq_of_isQuote (exists_of_isWritable_quoted h).1 with rfl | rfl <;> decide
  | tokens => exact ⟨_, _, rfl, .inr (.inr (by decide)), fun _ => by decide⟩
  | start => exact ⟨_, _, rfl, .inr (.inr (by decide)), fun _ => by decide⟩
  | rules => exact ⟨_, _, rfl, .inr (.inr (by decide)), fun _ => by decide⟩
  | colon => exact ⟨_, _, rfl, .inr (.inr (by decide)), fun _ => by decide⟩
  | bar => exact ⟨_, _, rfl, .inr (.inr (by decide)), fun _ => by decide⟩
  | semicolon => exact ⟨_, _, rfl, .inr (.inr (by decide)), fun _ => by decide⟩

theorem solid_of_rendered (h : Rendered ps cs) (hwritable : ∀ p ∈ ps, p.isWritable = true) :
    Solid cs := by
  cases h with
  | nil => exact solid_nil
  | @cons p ps gap rest hgap hapart hrest =>
    obtain ⟨d, tail, hchars, hopens, -⟩ := exists_head_of_piece (hwritable p (by simp))
    rw [hchars]
    exact solid_of_opens hopens

/-- What follows a bare word does not continue it. -/
theorem head_of_rendered (hgap : Gap breaks gap) (h : Rendered ps rest)
    (hwritable : ∀ p ∈ ps, p.isWritable = true)
    (hapart : ps.head?.any Piece.isBare = true → gap ≠ []) :
    ∀ d ∈ (gap ++ rest).head?, isNameChar d = false := by
  cases hgap with
  | cons hblank =>
    obtain ⟨e, tail, rfl, he⟩ := head_of_blank hblank
    rintro d hd
    obtain rfl := Option.some.inj hd
    exact he
  | nil =>
    cases h with
    | nil => simp
    | @cons p ps gap rest hgap' hapart' hrest =>
      obtain ⟨e, tail, hchars, -, he⟩ := exists_head_of_piece (hwritable p (by simp))
      have hbare : p.isBare = false :=
        Bool.eq_false_iff.2 fun hbare => hapart (by simpa using hbare) rfl
      rw [hchars]
      rintro d hd
      obtain rfl := Option.some.inj hd
      exact he hbare

end Outline

/-- The word was written like this. -/
structure Word.Spells (w : Word) (s : Spelling) : Prop where
  text : w.lexeme.text = s.text
  quoted : w.quoted = s.isQuoted

structure Cursor.Shows (c : Cursor) (ps : List Outline.Piece) : Prop where
  rendered : Outline.Rendered ps c.ahead
  writable : ∀ p ∈ ps, p.isWritable = true

namespace Cursor

open Source Outline

variable {c : Cursor} {p : Piece} {ps : List Piece} {word : String}

theorem Shows.exists_ahead (h : c.Shows (p :: ps)) : ∃ gap rest,
    c.ahead = p.chars ++ (gap ++ rest) ∧ Gap p.allowsBreak gap ∧
      (p.isBare = true → ps.head?.any Piece.isBare = true → gap ≠ []) ∧ Rendered ps rest ∧
        ∀ q ∈ ps, q.isWritable = true := by
  obtain ⟨hrendered, hwritable⟩ := h
  generalize hahead : c.ahead = cs at hrendered
  cases hrendered with
  | @cons _ _ gap rest hgap hapart hrest =>
    exact ⟨gap, rest, rfl, hgap, hapart, hrest, fun q hq => hwritable q (by simp [hq])⟩

theorem Shows.exists_ahead_word {s : Spelling} (h : c.Shows (.word s :: ps)) : ∃ gap rest,
    c.ahead = s.chars ++ (gap ++ rest) ∧ Gap true gap ∧
      (s.isQuoted = false → ps.head?.any Piece.isBare = true → gap ≠ []) ∧ Rendered ps rest ∧
        ∀ q ∈ ps, q.isWritable = true := by
  obtain ⟨gap, rest, hahead, hgap, hapart, hrest, hwritable⟩ := h.exists_ahead
  refine ⟨gap, rest, hahead, hgap, fun hbare => hapart ?_, hrest, hwritable⟩
  cases s with
  | bare name => rfl
  | quoted q text => cases hbare

theorem Shows.atEnd_nil (h : c.Shows []) : c.atEnd = true := by
  have hrendered := h.rendered
  generalize hahead : c.ahead = cs at hrendered
  cases hrendered
  rw [atEnd, hahead, List.isEmpty_nil]

theorem Shows.atEnd_cons (h : c.Shows (p :: ps)) : c.atEnd = false := by
  obtain ⟨gap, rest, hahead, -⟩ := h.exists_ahead
  obtain ⟨d, tail, hchars, -⟩ := exists_head_of_piece (h.writable p (by simp))
  rw [atEnd, hahead, hchars]
  rfl

theorem isPrefixOf_append {l m r : List Char} (h : l.length ≤ m.length) :
    l.isPrefixOf (m ++ r) = l.isPrefixOf m := by
  induction l generalizing m with
  | nil => rfl
  | cons d l ih =>
    cases m with
    | nil => cases h
    | cons e m =>
      rw [List.cons_append, List.isPrefixOf, List.isPrefixOf, ih (Nat.le_of_succ_le_succ h)]

/-- Of what is no longer than a piece, the cursor sees what begins that piece. -/
theorem Shows.sees (h : c.Shows (p :: ps)) (hlength : word.toList.length ≤ p.chars.length) :
    c.sees word = word.toList.isPrefixOf p.chars := by
  obtain ⟨gap, rest, hahead, -⟩ := h.exists_ahead
  rw [Cursor.sees, hahead, isPrefixOf_append hlength]

/-- Before a word the cursor sees no mark. -/
theorem Shows.not_sees {s : Spelling} (h : c.Shows (.word s :: ps))
    (hmark : word.toList.head?.any (fun d => !isTokenStart d && !isQuote d) = true) :
    c.sees word = false := by
  obtain ⟨gap, rest, hahead, -⟩ := h.exists_ahead_word
  obtain ⟨d, tail, hchars, hopens⟩ := exists_head_of_spelling (h.writable (.word s) (by simp))
  rw [Cursor.sees, hahead, hchars]
  cases hword : word.toList with
  | nil => simp [hword] at hmark
  | cons e es =>
    have hne : e ≠ d := by
      rintro rfl
      rcases hopens with hopens | hopens <;> simp [hword, hopens] at hmark
    rw [List.cons_append, List.isPrefixOf, beq_eq_false_iff_ne.2 hne, Bool.false_and]

/-- Behind a piece and its gap the cursor comes to the next piece. -/
theorem Shows.skipBlanks (h : c.Shows (p :: ps)) :
    ∃ d, skipBlanks p.allowsBreak (c.skip p.chars.length) = .ok d ∧ d.Shows ps := by
  obtain ⟨gap, rest, hahead, hgap, -, hrest, hwritable⟩ := h.exists_ahead
  obtain ⟨d, hskip, hd⟩ := skipBlanks_gap hgap (solid_of_rendered hrest hwritable)
    (c.skip p.chars.length) (by rw [ahead_skip, hahead, List.drop_left])
  exact ⟨d, hskip, hd ▸ hrest, hwritable⟩

theorem text_lexeme_append {cs more : List Char} (h : c.ahead = cs ++ more) :
    (c.lexeme cs.length).text = String.ofList cs := by
  rw [lexeme, text, h, List.take_left]

theorem readName_of_length {n : Nat} (h : nameLength c.ahead = n) (hn : 0 < n) :
    readName c = .ok (c.lexeme n, c.skip n) := by
  obtain ⟨n, rfl⟩ := Nat.exists_eq_succ_of_ne_zero (Nat.ne_of_gt hn)
  simp only [readName, h]

theorem readWord_of_bareLength {n : Nat} (hquote : c.ahead.head?.any isQuote = false)
    (h : bareLength c.ahead = n) (hn : 0 < n) :
    readWord c = .ok (⟨c.lexeme n, false⟩, c.skip n) := by
  obtain ⟨n, rfl⟩ := Nat.exists_eq_succ_of_ne_zero (Nat.ne_of_gt hn)
  unfold readWord
  split
  · next hnil => rw [hnil] at h; cases h
  · next q cs hahead =>
    rw [hahead] at h hquote
    rw [if_neg (by simpa using hquote)]
    simp only [h]

theorem readWord_of_quotedLength {q : Char} {cs : List Char} {n : Nat} (hahead : c.ahead = q :: cs)
    (hquote : isQuote q = true) (h : quotedLength? q cs = some n) :
    readWord c = .ok (⟨(c.skip 1).lexeme n, true⟩, c.skip (n + 2)) := by
  unfold readWord
  split
  · next hnil => rw [hnil] at hahead; cases hahead
  · next q' cs' hahead' =>
    obtain ⟨rfl, rfl⟩ := List.cons.inj (hahead.symm.trans hahead')
    simp only [hquote, h, if_pos]

/-- A bare word and what follows it have the length of the word, as a rule name and as a token. -/
theorem lengths_append {name : String} {more : List Char} (hname : isBareName name = true)
    (hmore : ∀ d ∈ more.head?, isNameChar d = false) :
    nameLength (name.toList ++ more) = name.toList.length ∧
      bareLength (name.toList ++ more) = name.toList.length := by
  obtain ⟨d, cs, hchars, hstart, hcs⟩ := exists_of_isBareName hname
  have hmore' : ∀ e ∈ more.head?, isTokenChar e = false := fun e he =>
    Bool.eq_false_iff.2 fun htoken =>
      Bool.eq_false_iff.1 (hmore e he) (isNameChar_of_isTokenChar htoken)
  rw [hchars, List.cons_append, List.length_cons, Nat.add_comm]
  constructor
  · rw [nameLength, isNameStart, hstart, Bool.true_or, if_pos rfl,
      takeWhile_append_stop (fun e he => isNameChar_of_isTokenChar (hcs e he)) hmore]
  · rw [bareLength, hstart, if_pos rfl, takeWhile_append_stop hcs hmore']

theorem quotedLength?_append {q : Char} {text : String} {more : List Char}
    (h : (Spelling.quoted q text).isWritable = true) :
    quotedLength? q (text.toList ++ q :: more) = some text.toList.length := by
  obtain ⟨-, d, cs, htext, hd, hcs⟩ := exists_of_isWritable_quoted h
  have hinside : (cs ++ q :: more).takeWhile (fun d => d != q && d != '\n') = cs :=
    takeWhile_append_stop hcs (by simp)
  rw [htext, List.cons_append, quotedLength?]
  simp only [hinside, List.drop_left, List.length_cons]
  simp [hd, Nat.add_comm]

theorem Shows.readName {name : String} (h : c.Shows (.word (.bare name) :: ps)) :
    ∃ l, readName c = .ok (l, c.skip name.toList.length) ∧ l.text = name := by
  have hname : isBareName name = true := h.writable (.word (.bare name)) (by simp)
  obtain ⟨gap, rest, hahead, hgap, hapart, hrest, hwritable⟩ := h.exists_ahead_word
  have hlength := (lengths_append hname (head_of_rendered hgap hrest hwritable (hapart rfl))).1
  have htext : (c.lexeme name.toList.length).text = name :=
    (text_lexeme_append hahead).trans String.ofList_toList
  obtain ⟨d, cs, hchars, -⟩ := exists_of_isBareName hname
  exact ⟨_, readName_of_length (hahead ▸ hlength) (by simp [hchars]), htext⟩

theorem Shows.readWord {s : Spelling} (h : c.Shows (.word s :: ps)) :
    ∃ w, readWord c = .ok (w, c.skip s.chars.length) ∧ w.Spells s := by
  have hs : s.isWritable = true := h.writable (.word s) (by simp)
  obtain ⟨gap, rest, hahead, hgap, hapart, hrest, hwritable⟩ := h.exists_ahead_word
  cases s with
  | bare name =>
    have hlength := (lengths_append hs (head_of_rendered hgap hrest hwritable (hapart rfl))).2
    have htext : (c.lexeme name.toList.length).text = name :=
      (text_lexeme_append hahead).trans String.ofList_toList
    obtain ⟨d, cs, hchars, hstart, -⟩ := exists_of_isBareName hs
    have hquote : c.ahead.head?.any isQuote = false := by
      have hhead : c.ahead.head? = some d := by
        rw [hahead, Spelling.chars, hchars]
        rfl
      rw [hhead]
      refine Bool.eq_false_iff.2 fun hquote => ?_
      rcases eq_of_isQuote hquote with rfl | rfl <;> cases hstart
    have hpos : 0 < name.toList.length := by simp [hchars]
    exact ⟨_, readWord_of_bareLength hquote (hahead ▸ hlength) hpos, htext, rfl⟩
  | quoted q text =>
    have hahead' : c.ahead = q :: (text.toList ++ q :: (gap ++ rest)) := by
      rw [hahead]
      simp [Spelling.chars]
    have hread := readWord_of_quotedLength hahead' (exists_of_isWritable_quoted hs).1
      (quotedLength?_append hs)
    have hinside : (c.skip 1).ahead = text.toList ++ q :: (gap ++ rest) := by
      rw [ahead_skip, hahead', List.drop_one, List.tail_cons]
    have htext : ((c.skip 1).lexeme text.toList.length).text = text :=
      (text_lexeme_append hinside).trans String.ofList_toList
    have hlength : (Spelling.quoted q text).chars.length = text.toList.length + 2 := by
      simp [Spelling.chars]
    exact ⟨_, hlength ▸ hread, htext, rfl⟩

end Cursor

end GrammarRepair
