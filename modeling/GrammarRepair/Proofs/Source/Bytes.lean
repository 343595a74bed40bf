import GrammarRepair.Proofs.Checked
import GrammarRepair.Proofs.Source.Boundaries
import GrammarRepair.Source.Bytes

/-!
Reading by byte offsets. Wherever a cursor stands, the offset is a character boundary, so the text
can be cut there; and a cursor that leaves fewer characters ahead has a greater offset, so the loops
move on. Main statement: reading by offsets never slips, and reads what cursors read.
-/

namespace GrammarRepair

namespace Cursor

variable {text : String} {c d : Cursor}

theorem On.lt_size_iff (hc : c.On text) : c.offset < text.utf8ByteSize ↔ ¬ c.atEnd = true := by
  rw [hc.size_eq, atEnd]
  cases hahead : c.ahead with
  | nil => simp
  | cons x xs =>
    have hpos := x.utf8Size_pos
    simp only [byteLength_cons, List.isEmpty_cons, Bool.false_eq_true, not_false_eq_true, iff_true]
    omega

theorem ne_nil_of_not_atEnd (h : ¬ c.atEnd = true) : c.ahead ≠ [] := by simpa [atEnd] using h

/-- Where fewer characters lie ahead, more bytes lie behind. -/
theorem On.offset_lt (hc : c.On text) (hd : d.On text) (h : d.ahead.length < c.ahead.length) :
    c.offset < d.offset := by
  obtain ⟨before, htext, hoffset⟩ := hc
  obtain ⟨before', htext', hoffset'⟩ := hd
  have hlength := congrArg List.length (htext.symm.trans htext')
  rw [List.length_append, List.length_append] at hlength
  have hprefix : before <+: before' := by
    refine List.prefix_of_prefix_length_le ⟨c.ahead, htext.symm⟩ ⟨d.ahead, htext'.symm⟩ ?_
    omega
  obtain ⟨more, rfl⟩ := hprefix
  have hmore : more ≠ [] := by
    rintro rfl
    rw [List.append_nil] at hlength
    omega
  have hpos := byteLength_pos hmore
  rw [hoffset, hoffset', byteLength_append]
  omega

end Cursor

namespace Bytes

open Source

variable {text : String} {c d : Cursor}

theorem sliceFrom_offset (hc : c.On text) : sliceFrom text c.offset = .ok c.ahead := by
  obtain ⟨before, htext, hoffset⟩ := hc
  rw [sliceFrom, htext, hoffset, charsBefore?_append]
  simp

theorem slice_offset (hc : c.On text) (n : Nat) :
    slice text c.offset (c.skip n).offset = .ok (c.ahead.take n) := by
  have hlength : (c.skip n).offset - c.offset = byteLength (c.ahead.take n) := by
    rw [Cursor.skip, Nat.add_sub_cancel_left]
  have hbefore := charsBefore?_append (c.ahead.take n) (c.ahead.drop n)
  rw [List.take_append_drop] at hbefore
  rw [slice, sliceFrom_offset hc, Checked.ok_bind, hlength, hbefore]
  simp [c.offset_le_skip n]

theorem lexeme_offset (hc : c.On text) (n : Nat) :
    lexeme text c.offset (c.skip n).offset = .ok (c.lexeme n) := by
  rw [lexeme, dif_pos (c.offset_le_skip n), slice_offset hc, Checked.ok_bind]
  rfl

theorem offset_skip_of_sees {word : String} (h : c.sees word = true) :
    (c.skip word.toList.length).offset = c.offset + word.utf8ByteSize := by
  have hprefix := List.isPrefixOf_iff_prefix.1 h
  rw [Cursor.skip, ← List.prefix_iff_eq_take.1 hprefix, byteLength_toList]

theorem slice_of_sees (hc : c.On text) {word : String} (h : c.sees word = true) :
    slice text c.offset (c.offset + word.utf8ByteSize) = .ok word.toList := by
  rw [← offset_skip_of_sees h, slice_offset hc,
    ← List.prefix_iff_eq_take.1 (List.isPrefixOf_iff_prefix.1 h)]

theorem lookahead_found (hc : c.On text) {word : String} {n : Nat} (h : c.sees word = true)
    (hn : word.toList.length = n) :
    lookahead text word c.offset = .ok (some (c.skip n).offset) := by
  subst hn
  rw [lookahead, sliceFrom_offset hc, Checked.ok_bind, Checked.pure_eq_ok, offset_skip_of_sees h]
  exact congrArg Except.ok (if_pos h)

theorem lookahead_absent (hc : c.On text) {word : String} (h : ¬ c.sees word = true) :
    lookahead text word c.offset = .ok none := by
  rw [lookahead, sliceFrom_offset hc, Checked.ok_bind, Checked.pure_eq_ok]
  exact congrArg Except.ok (if_neg h)

theorem afterLine_eq (i : Nat) (cs : List Char) :
    afterLine i cs = i + byteLength (cs.take ((cs.takeWhile (!isBreak ·)).length + 1)) := by
  induction cs generalizing i with
  | nil => simp [afterLine]
  | cons c cs ih =>
    by_cases hc : isBreak c = true
    · simp [afterLine, hc]
    · simp [afterLine, hc, ih, Nat.add_assoc]

theorem commentBytes?_eq (cs : List Char) :
    commentBytes? cs = (commentLength? cs).map fun n => byteLength (cs.take n) := by
  fun_induction commentLength? cs with
  | case1 => rfl
  | case2 cs => rfl
  | case3 c cs hmark ih =>
    rw [commentBytes?, ih, Option.map_map, Option.map_map]
    · rfl
    · exact hmark

theorem exists_of_commentLength? {cs : List Char} {n : Nat} (h : commentLength? cs = some n) :
    ∃ after, cs = cs.take n ++ '*' :: '/' :: after := by
  fun_induction commentLength? cs generalizing n with
  | case1 => cases h
  | case2 after =>
    cases h
    exact ⟨after, rfl⟩
  | case3 c cs hmark ih =>
    obtain ⟨m, hm, rfl⟩ := Option.map_eq_some_iff.1 h
    obtain ⟨after, hafter⟩ := ih hm
    exact ⟨after, by rw [List.take_succ_cons, List.cons_append, ← hafter]⟩

theorem afterComment_offset (hc : c.On text) {body : List Char} (breaks : Bool)
    (hahead : c.ahead = '/' :: '*' :: body) : afterComment text breaks c.offset =
      .ok (match commentLength? body with
        | none => .error (.point .incompleteComment c.offset)
        | some n =>
          if !breaks && (body.take n).any isBreak then .error (.point .reachedEndOfLine c.offset)
          else .ok (some (c.skip (2 + n + 2)).offset)) := by
  have htwo : (c.skip 2).offset = c.offset + 2 := by
    rw [Cursor.skip, hahead]
    rfl
  have hbody : (c.skip 2).ahead = body := by
    rw [Cursor.ahead_skip, hahead]
    rfl
  have hslice := sliceFrom_offset (hc.skip 2)
  rw [htwo, hbody] at hslice
  rw [afterComment, hslice, Checked.ok_bind, commentBytes?_eq]
  cases hlength : commentLength? body with
  | none => rfl
  | some n =>
    obtain ⟨after, hafter⟩ := exists_of_commentLength? hlength
    have hstop : ((c.skip 2).skip n).offset = c.offset + 2 + byteLength (body.take n) := by
      rw [Cursor.skip, htwo, hbody]
    have hinside := slice_offset (hc.skip 2) n
    rw [hstop, htwo, hbody] at hinside
    have hclosed : (c.skip (2 + n + 2)).offset =
        c.offset + (2 + byteLength (body.take n) + 2) := by
      have hmark : ((c.skip 2).skip n).ahead = '*' :: '/' :: after := by
        rw [Cursor.ahead_skip, hbody]
        have hsplit := (List.take_append_drop n body).trans hafter
        exact List.append_cancel_left hsplit
      have hlast : (((c.skip 2).skip n).skip 2).offset = ((c.skip 2).skip n).offset + 2 := by
        rw [Cursor.skip, hmark]
        rfl
      rw [← Cursor.skip_skip, ← Cursor.skip_skip, hlast, hstop]
      omega
    simp only [Option.map_some, hinside, Checked.ok_bind, hclosed, Checked.pure_eq_ok]
    split <;> rfl

def blankOutcome (breaks : Bool) (c : Cursor) : Except SourceError (Option Nat) :=
  match blankLength breaks c.ahead with
  | .error kind => .error (.point kind c.offset)
  | .ok 0 => .ok none
  | .ok (n + 1) => .ok (some (c.skip (n + 1)).offset)

theorem afterBlank_slash (hc : c.On text) (breaks : Bool) {xs : List Char}
    (hahead : c.ahead = '/' :: xs) : afterBlank text breaks c.offset = (do
      match ← lookahead text "//" c.offset with
      | some _ =>
        pure (.ok (some (afterLine (c.offset + 2) (← sliceFrom text (c.offset + 2)))))
      | none =>
        match ← lookahead text "/*" c.offset with
        | some _ => afterComment text breaks c.offset
        | none => pure (.ok none)) := by
  rw [afterBlank, sliceFrom_offset hc, Checked.ok_bind, hahead]
  rfl

theorem afterBlank_line (hc : c.On text) (breaks : Bool) {line : List Char}
    (hahead : c.ahead = '/' :: '/' :: line) : afterBlank text breaks c.offset =
      .ok (blankOutcome breaks c) := by
  have hsees : c.sees "//" = true := by
    rw [Cursor.sees, hahead]
    rfl
  have hlength : blankLength breaks c.ahead =
      .ok (2 + (line.takeWhile (!isBreak ·)).length + 1) := by
    rw [hahead]
    rfl
  have htwo : (c.skip 2).offset = c.offset + 2 := by
    rw [Cursor.skip, hahead]
    rfl
  have hslice := sliceFrom_offset (hc.skip 2)
  rw [htwo, Cursor.ahead_skip, hahead] at hslice
  have hskip : (c.skip (2 + (line.takeWhile (!isBreak ·)).length + 1)).offset =
      afterLine (c.offset + 2) line := by
    rw [afterLine_eq, Nat.add_assoc, ← Cursor.skip_skip, Cursor.skip, htwo, Cursor.ahead_skip,
      hahead]
    rfl
  rw [afterBlank_slash hc breaks hahead, lookahead_found hc hsees (n := 2) rfl, Checked.ok_bind,
    hslice, Checked.ok_bind, blankOutcome, hlength]
  simp only [hskip]
  rfl

theorem afterBlank_block (hc : c.On text) (breaks : Bool) {body : List Char}
    (hahead : c.ahead = '/' :: '*' :: body) : afterBlank text breaks c.offset =
      .ok (blankOutcome breaks c) := by
  have hline : c.sees "//" = false := by
    rw [Cursor.sees, hahead]
    rfl
  have hblock : c.sees "/*" = true := by
    rw [Cursor.sees, hahead]
    rfl
  have hlength : blankLength breaks c.ahead =
      match commentLength? body with
      | none => .error .incompleteComment
      | some n =>
        if !breaks && (body.take n).any isBreak then .error .reachedEndOfLine
        else .ok (2 + n + 2) := by
    rw [hahead]
    rfl
  rw [afterBlank_slash hc breaks hahead, lookahead_absent hc (by simp [hline]), Checked.ok_bind,
    lookahead_found hc hblock (n := 2) rfl, Checked.ok_bind]
  simp only
  rw [afterComment_offset hc breaks hahead, blankOutcome, hlength]
  cases commentLength? body with
  | none => rfl
  | some n =>
    simp only
    split <;> rfl

theorem afterBlank_no_comment (hc : c.On text) (breaks : Bool) {xs : List Char}
    (hahead : c.ahead = '/' :: xs) (hline : xs.head? ≠ some '/') (hblock : xs.head? ≠ some '*') :
    afterBlank text breaks c.offset = .ok (blankOutcome breaks c) := by
  have hsees : c.sees "//" = false ∧ c.sees "/*" = false := by
    rw [Cursor.sees, Cursor.sees, hahead]
    cases xs with
    | nil => exact ⟨rfl, rfl⟩
    | cons y ys =>
      have hslash : ('/' == y) = false :=
        beq_eq_false_iff_ne.2 fun heq => hline (congrArg some heq.symm)
      have hstar : ('*' == y) = false :=
        beq_eq_false_iff_ne.2 fun heq => hblock (congrArg some heq.symm)
      change ('/' == '/' && ('/' == y && true)) = false ∧ ('/' == '/' && ('*' == y && true)) = false
      simp [hslash, hstar]
  have hlength : blankLength breaks c.ahead = .ok 0 := by
    have hblank : ¬ ('/' == ' ' || '/' == '\t') = true := by decide
    have hbreak : ¬ isBreak '/' = true := by decide
    rw [hahead, blankLength, if_neg hblank, if_neg hbreak, if_pos (beq_self_eq_true '/')]
    · rintro line rfl
      exact hline rfl
    · rintro body rfl
      exact hblock rfl
  rw [afterBlank_slash hc breaks hahead, lookahead_absent hc (by simp [hsees.1]), Checked.ok_bind,
    lookahead_absent hc (by simp [hsees.2]), Checked.ok_bind, blankOutcome, hlength]
  rfl

theorem afterBlank_offset (hc : c.On text) (breaks : Bool) (hne : c.ahead ≠ []) :
    afterBlank text breaks c.offset = .ok (blankOutcome breaks c) := by
  obtain ⟨x, xs, hahead⟩ := List.exists_cons_of_ne_nil hne
  by_cases hslash : x = '/'
  · subst hslash
    by_cases hline : xs.head? = some '/'
    · obtain ⟨line, rfl⟩ := List.head?_eq_some_iff.1 hline
      exact afterBlank_line hc breaks hahead
    · by_cases hblock : xs.head? = some '*'
      · obtain ⟨body, rfl⟩ := List.head?_eq_some_iff.1 hblock
        exact afterBlank_block hc breaks hahead
      · exact afterBlank_no_comment hc breaks hahead hline hblock
  · have hone : (c.skip 1).offset = c.offset + x.utf8Size := by
      rw [Cursor.skip, hahead]
      simp
    rw [afterBlank, sliceFrom_offset hc, Checked.ok_bind, hahead]
    simp only [blankOutcome, hahead, blankLength, beq_iff_eq, hslash, if_false]
    split
    · rw [Checked.pure_eq_ok, ← hone]
    · split
      · split
        · rw [Checked.pure_eq_ok, ← hone]
        · rfl
      · rfl

theorem skipBlanks_offset (hc : c.On text) (breaks : Bool) : skipBlanks text breaks c.offset =
    .ok ((Source.skipBlanks breaks c).map Cursor.offset) := by
  have hahead : ∀ {c : Cursor} {n : Except SourceError.Kind Nat}, n ≠ .ok 0 →
      blankLength breaks c.ahead = n → c.ahead ≠ [] := by
    rintro c n hn h hnil
    rw [hnil, blankLength_nil] at h
    exact hn h.symm
  fun_induction Source.skipBlanks breaks c with
  | case1 c kind hk =>
    have hne := hahead (by simp) hk
    have hlt := hc.lt_size_iff.2 (by simpa [Cursor.atEnd] using hne)
    rw [skipBlanks, dif_pos hlt, afterBlank_offset hc breaks hne, Checked.ok_bind, blankOutcome, hk]
    rfl
  | case2 c hk =>
    rw [skipBlanks]
    split
    · next hlt =>
      have hne := Cursor.ne_nil_of_not_atEnd (hc.lt_size_iff.1 hlt)
      rw [afterBlank_offset hc breaks hne, Checked.ok_bind, blankOutcome, hk]
      rfl
    · rfl
  | case3 c n hk ih =>
    have hne := hahead (by simp) hk
    have hlt := hc.lt_size_iff.2 (by simpa [Cursor.atEnd] using hne)
    have hmoved := Cursor.offset_lt_skip (Nat.succ_pos n) hne
    rw [skipBlanks, dif_pos hlt, afterBlank_offset hc breaks hne, Checked.ok_bind, blankOutcome, hk]
    simp only [Nat.succ_eq_add_one] at hmoved
    simp only [hmoved, dif_pos]
    exact ih (hc.skip _)

theorem readName_offset (hc : c.On text) : readName text c.offset =
    .ok ((Source.readName c).map fun (name, d) => (name, d.offset)) := by
  rw [readName, sliceFrom_offset hc, Checked.ok_bind, Source.readName]
  cases hlength : nameLength c.ahead with
  | zero => rfl
  | succ n =>
    have hlexeme := lexeme_offset hc (n + 1)
    rw [Cursor.skip] at hlexeme
    simp only [hlexeme, Checked.ok_bind]
    rfl

theorem exists_of_quotedLength? {q : Char} {cs : List Char} {n : Nat}
    (h : quotedLength? q cs = some n) : ∃ after, cs.drop n = q :: after := by
  cases cs with
  | nil => cases h
  | cons x xs =>
    simp only [quotedLength?] at h
    split at h
    · next hcond =>
      cases h
      rw [Bool.and_eq_true, beq_iff_eq] at hcond
      obtain ⟨after, hafter⟩ := List.head?_eq_some_iff.1 hcond.2
      exact ⟨after, by rw [Nat.add_comm, List.drop_succ_cons, hafter]⟩
    · cases h

theorem isQuote_size {q : Char} (h : isQuote q = true) : q.utf8Size = 1 := by
  rw [isQuote, Bool.or_eq_true, beq_iff_eq, beq_iff_eq] at h
  rcases h with rfl | rfl <;> rfl

theorem offset_skip_quote {q : Char} {cs : List Char} (hahead : c.ahead = q :: cs)
    (hq : isQuote q = true) : (c.skip 1).offset = c.offset + 1 := by
  rw [Cursor.skip, hahead, List.take_succ_cons, List.take_zero, byteLength_cons, byteLength_nil,
    isQuote_size hq]

/-- A word in quotes ends one byte before the whole. -/
theorem offset_skip_quoted {q : Char} {cs : List Char} {n : Nat} (hahead : c.ahead = q :: cs)
    (hq : isQuote q = true) (hn : quotedLength? q cs = some n) :
    ((c.skip 1).skip n).offset + 1 = (c.skip (n + 2)).offset := by
  obtain ⟨after, hafter⟩ := exists_of_quotedLength? hn
  have hmark : ((c.skip 1).skip n).ahead = q :: after := by
    rw [Cursor.ahead_skip, Cursor.ahead_skip, hahead]
    exact hafter
  have hcount : 1 + (n + 1) = n + 2 := by omega
  rw [← offset_skip_quote hmark hq, Cursor.skip_skip, Cursor.skip_skip, hcount]

/-- What a word in quotes leaves between its first quote and its last. -/
theorem lexeme_inside (hc : c.On text) {q : Char} {cs : List Char} {n : Nat}
    (hahead : c.ahead = q :: cs) (hq : isQuote q = true) (hn : quotedLength? q cs = some n) :
    lexeme text (c.offset + 1) ((c.skip (n + 2)).offset - 1) = .ok ((c.skip 1).lexeme n) := by
  rw [← offset_skip_quote hahead hq, ← offset_skip_quoted hahead hq hn, Nat.add_sub_cancel]
  exact lexeme_offset (hc.skip 1) n

theorem readWord_offset (hc : c.On text) : readWord text c.offset =
    .ok ((Source.readWord c).map fun (w, d) => (w, d.offset)) := by
  rw [readWord, sliceFrom_offset hc, Checked.ok_bind, Source.readWord]
  cases hahead : c.ahead with
  | nil => rfl
  | cons q cs =>
    have hstop : ∀ n, c.offset + byteLength ((q :: cs).take n) = (c.skip n).offset := by
      intro n
      rw [Cursor.skip, hahead]
    simp only [wordLength?, hstop]
    by_cases hq : isQuote q = true
    · rw [if_pos hq, if_pos hq]
      cases hn : quotedLength? q cs with
      | none => rfl
      | some n =>
        simp only [Option.map_some, List.head?_cons, Option.any_some, hq, if_true,
          lexeme_inside hc hahead hq hn, Checked.ok_bind]
        rfl
    · rw [if_neg hq, if_neg hq]
      cases hn : bareLength (q :: cs) with
      | zero => rfl
      | succ n =>
        simp only [Nat.succ_ne_zero, if_false, List.head?_cons, Option.any_some, hq,
          lexeme_offset hc (n + 1), Checked.ok_bind]
        rfl

theorem readTokens_offset (hc : c.On text) : readTokens text c.offset =
    .ok ((Source.readTokens c).1, (Source.readTokens c).2.map Cursor.offset) := by
  fun_induction Source.readTokens c with
  | case1 c hstop =>
    rw [readTokens]
    split
    · next hlt =>
      have hsees : c.sees "%" = true := by
        exact (Bool.or_eq_true_iff.1 hstop).resolve_left (hc.lt_size_iff.1 hlt)
      rw [lookahead_found hc hsees rfl]
      rfl
    · rfl
  | case2 c hstop e hw =>
    obtain ⟨hend, hsees⟩ := not_or.1 (mt Bool.or_eq_true_iff.2 hstop)
    rw [readTokens, dif_pos (hc.lt_size_iff.2 hend), lookahead_absent hc hsees, Checked.ok_bind,
      readWord_offset hc, hw]
    rfl
  | case3 c hstop w d hw e hb =>
    obtain ⟨hend, hsees⟩ := not_or.1 (mt Bool.or_eq_true_iff.2 hstop)
    rw [readTokens, dif_pos (hc.lt_size_iff.2 hend), lookahead_absent hc hsees, Checked.ok_bind,
      readWord_offset hc, hw]
    simp only [Except.map, Checked.ok_bind, skipBlanks_offset (on_of_readWord hc hw).2, hb]
    rfl
  | case4 c hstop w d hw d' hb names outcome hrest ih =>
    obtain ⟨hend, hsees⟩ := not_or.1 (mt Bool.or_eq_true_iff.2 hstop)
    have hd := (on_of_readWord hc hw).2
    have hd' := on_of_skipBlanks hd hb
    have hmoved := hc.offset_lt hd'
      (Nat.lt_of_le_of_lt (length_skipBlanks_le hb) (length_readWord_lt hw))
    rw [readTokens, dif_pos (hc.lt_size_iff.2 hend), lookahead_absent hc hsees, Checked.ok_bind,
      readWord_offset hc, hw]
    simp only [Except.map, Checked.ok_bind, skipBlanks_offset hd, hb, hmoved, dif_pos, ih hd',
      hrest]
    rfl

theorem on_of_readTokens {names : List Lexeme} (hc : c.On text)
    (h : Source.readTokens c = (names, .ok d)) : d.On text := by
  have hlands := (fits_readTokens hc).2
  rwa [h] at hlands

theorem readDeclarations_offset (hc : c.On text) : readDeclarations text c.offset =
    .ok ((Source.readDeclarations c).1, (Source.readDeclarations c).2.map Cursor.offset) := by
  fun_induction Source.readDeclarations c with
  | case1 c hend =>
    rw [readDeclarations, dif_neg fun hlt => hc.lt_size_iff.1 hlt hend]
    rfl
  | case2 c hend hrules =>
    rw [readDeclarations, dif_pos (hc.lt_size_iff.2 hend), lookahead_found hc hrules rfl]
    rfl
  | case3 c hend hrules htoken e hb =>
    rw [readDeclarations, dif_pos (hc.lt_size_iff.2 hend)]
    simp only [lookahead_absent hc hrules, lookahead_found hc htoken (n := 6) rfl, Checked.ok_bind,
      skipBlanks_offset (hc.skip 6), hb, Except.map]
    rfl
  | case4 c hend hrules htoken d hb names e ht =>
    have hd := on_of_skipBlanks (hc.skip 6) hb
    rw [readDeclarations, dif_pos (hc.lt_size_iff.2 hend)]
    simp only [lookahead_absent hc hrules, lookahead_found hc htoken (n := 6) rfl, Checked.ok_bind,
      skipBlanks_offset (hc.skip 6), hb, Except.map, readTokens_offset hd, ht]
    rfl
  | case5 c hend hrules htoken d hb names d' ht rest outcome hrest ih =>
    have hd := on_of_skipBlanks (hc.skip 6) hb
    have hd' := on_of_readTokens hd ht
    have hmoved := hc.offset_lt hd' (Nat.lt_of_le_of_lt
      (Nat.le_trans (length_readTokens_le ht) (length_skipBlanks_le hb))
      (Cursor.length_skip_lt (by omega) (Cursor.ne_nil_of_not_atEnd hend)))
    rw [readDeclarations, dif_pos (hc.lt_size_iff.2 hend)]
    simp only [lookahead_absent hc hrules, lookahead_found hc htoken (n := 6) rfl, Checked.ok_bind,
      skipBlanks_offset (hc.skip 6), hb, Except.map, readTokens_offset hd, ht, hmoved, dif_pos,
      ih hd', hrest]
    rfl
  | case6 c hend hrules htoken hstart e hb =>
    rw [readDeclarations, dif_pos (hc.lt_size_iff.2 hend)]
    simp only [lookahead_absent hc hrules, lookahead_absent hc htoken,
      lookahead_found hc hstart (n := 6) rfl, Checked.ok_bind, skipBlanks_offset (hc.skip 6), hb,
      Except.map]
    rfl
  | case7 c hend hrules htoken hstart d hb e hn =>
    have hd := on_of_skipBlanks (hc.skip 6) hb
    rw [readDeclarations, dif_pos (hc.lt_size_iff.2 hend)]
    simp only [lookahead_absent hc hrules, lookahead_absent hc htoken,
      lookahead_found hc hstart (n := 6) rfl, Checked.ok_bind, skipBlanks_offset (hc.skip 6), hb,
      Except.map, readName_offset hd, hn]
    rfl
  | case8 c hend hrules htoken hstart d hb name d' hn e hb' =>
    have hd := on_of_skipBlanks (hc.skip 6) hb
    have hd' := (on_of_readName hd hn).2
    rw [readDeclarations, dif_pos (hc.lt_size_iff.2 hend)]
    simp only [lookahead_absent hc hrules, lookahead_absent hc htoken,
      lookahead_found hc hstart (n := 6) rfl, Checked.ok_bind, skipBlanks_offset (hc.skip 6), hb,
      Except.map, readName_offset hd, hn, skipBlanks_offset hd', hb']
    rfl
  | case9 c hend hrules htoken hstart d hb name d' hn d'' hb' rest outcome hrest ih =>
    have hd := on_of_skipBlanks (hc.skip 6) hb
    have hd' := (on_of_readName hd hn).2
    have hd'' := on_of_skipBlanks hd' hb'
    have hmoved := hc.offset_lt hd'' (Nat.lt_of_le_of_lt
      (Nat.le_trans (length_skipBlanks_le hb')
        (Nat.le_trans (Nat.le_of_lt (length_readName_lt hn)) (length_skipBlanks_le hb)))
      (Cursor.length_skip_lt (by omega) (Cursor.ne_nil_of_not_atEnd hend)))
    rw [readDeclarations, dif_pos (hc.lt_size_iff.2 hend)]
    simp only [lookahead_absent hc hrules, lookahead_absent hc htoken,
      lookahead_found hc hstart (n := 6) rfl, Checked.ok_bind, skipBlanks_offset (hc.skip 6), hb,
      Except.map, readName_offset hd, hn, skipBlanks_offset hd', hb', hmoved, dif_pos, ih hd'',
      hrest]
    rfl
  | case10 c hend hrules htoken hstart =>
    rw [readDeclarations, dif_pos (hc.lt_size_iff.2 hend)]
    simp only [lookahead_absent hc hrules, lookahead_absent hc htoken, lookahead_absent hc hstart,
      Checked.ok_bind]
    rfl

theorem on_of_readDeclarations {declarations : List Declaration} (hc : c.On text)
    (h : Source.readDeclarations c = (declarations, .ok d)) : d.On text := by
  have hlands := (fits_readDeclarations hc).2
  rwa [h] at hlands

/-- The declarations end where the rules begin. -/
theorem sees_of_readDeclarations {declarations : List Declaration}
    (h : Source.readDeclarations c = (declarations, .ok d)) : d.sees "%%" = true := by
  fun_induction Source.readDeclarations c generalizing declarations with
  | case2 c hend hrules =>
    cases h
    exact hrules
  | case5 c hend hrules htoken _ hb names _ ht rest outcome hrest ih =>
    cases h
    exact ih hrest
  | case9 c hend hrules htoken hstart _ hb name _ hn _ hb' rest outcome hrest ih =>
    cases h
    exact ih hrest
  | _ => cases h

theorem readAlternatives_offset {soFar : List Word} (hc : c.On text) :
    readAlternatives text soFar c.offset =
      .ok ((Source.readAlternatives soFar c).1,
        (Source.readAlternatives soFar c).2.map Cursor.offset) := by
  fun_induction Source.readAlternatives soFar c with
  | case1 soFar c hend =>
    rw [readAlternatives, dif_neg fun hlt => hc.lt_size_iff.1 hlt hend]
    rfl
  | case2 soFar c hend hbar e hb =>
    rw [readAlternatives, dif_pos (hc.lt_size_iff.2 hend)]
    simp only [lookahead_found hc hbar (n := 1) rfl, Checked.ok_bind, skipBlanks_offset (hc.skip 1),
      hb, Except.map]
    rfl
  | case3 soFar c hend hbar d hb rest outcome hrest ih =>
    have hd := on_of_skipBlanks (hc.skip 1) hb
    have hmoved := hc.offset_lt hd (Nat.lt_of_le_of_lt (length_skipBlanks_le hb)
      (Cursor.length_skip_lt (by omega) (Cursor.ne_nil_of_not_atEnd hend)))
    rw [readAlternatives, dif_pos (hc.lt_size_iff.2 hend)]
    simp only [lookahead_found hc hbar (n := 1) rfl, Checked.ok_bind, skipBlanks_offset (hc.skip 1),
      hb, Except.map, hmoved, dif_pos, ih hd, hrest]
    rfl
  | case4 soFar c hend hbar hsemicolon =>
    rw [readAlternatives, dif_pos (hc.lt_size_iff.2 hend)]
    simp only [lookahead_absent hc hbar, lookahead_found hc hsemicolon (n := 1) rfl,
      Checked.ok_bind]
    rfl
  | case5 soFar c hend hbar hsemicolon e hw =>
    rw [readAlternatives, dif_pos (hc.lt_size_iff.2 hend)]
    simp only [lookahead_absent hc hbar, lookahead_absent hc hsemicolon, Checked.ok_bind,
      readWord_offset hc, hw, Except.map]
    rfl
  | case6 soFar c hend hbar hsemicolon w d hw e hb =>
    have hd := (on_of_readWord hc hw).2
    rw [readAlternatives, dif_pos (hc.lt_size_iff.2 hend)]
    simp only [lookahead_absent hc hbar, lookahead_absent hc hsemicolon, Checked.ok_bind,
      readWord_offset hc, hw, Except.map, skipBlanks_offset hd, hb]
    rfl
  | case7 soFar c hend hbar hsemicolon w d hw d' hb ih =>
    have hd := (on_of_readWord hc hw).2
    have hd' := on_of_skipBlanks hd hb
    have hmoved := hc.offset_lt hd'
      (Nat.lt_of_le_of_lt (length_skipBlanks_le hb) (length_readWord_lt hw))
    rw [readAlternatives, dif_pos (hc.lt_size_iff.2 hend)]
    simp only [lookahead_absent hc hbar, lookahead_absent hc hsemicolon, Checked.ok_bind,
      readWord_offset hc, hw, Except.map, skipBlanks_offset hd, hb, hmoved, dif_pos, ih hd']

theorem readDefinition_offset (hc : c.On text) : readDefinition text c.offset =
    .ok ((Source.readDefinition c).1, (Source.readDefinition c).2.map Cursor.offset) := by
  rw [readDefinition, Source.readDefinition, readName_offset hc]
  cases hn : Source.readName c with
  | error e => rfl
  | ok named =>
    obtain ⟨name, d⟩ := named
    have hd := (on_of_readName hc hn).2
    simp only [Except.map, Checked.ok_bind, skipBlanks_offset hd]
    cases hb : Source.skipBlanks true d with
    | error e => rfl
    | ok d' =>
      have hd' := on_of_skipBlanks hd hb
      simp only
      by_cases hcolon : d'.sees ":" = true
      · simp only [lookahead_found hd' hcolon (n := 1) rfl, Checked.ok_bind, hcolon, if_true,
          skipBlanks_offset (hd'.skip 1)]
        cases hb' : Source.skipBlanks true (d'.skip 1) with
        | error e => rfl
        | ok d'' =>
          have hd'' := on_of_skipBlanks (hd'.skip 1) hb'
          simp only [Except.map, readAlternatives_offset hd'', Checked.ok_bind]
          rfl
      · simp only [lookahead_absent hd' hcolon, Checked.ok_bind, if_neg hcolon]
        rfl

theorem on_of_readDefinition {defs : List Definition} (hc : c.On text)
    (h : Source.readDefinition c = (defs, .ok d)) : d.On text := by
  have hlands := (fits_readDefinition hc).2
  rwa [h] at hlands

theorem readDefinitions_offset (hc : c.On text) : readDefinitions text c.offset =
    .ok ((Source.readDefinitions c).1, (Source.readDefinitions c).2.map Cursor.offset) := by
  fun_induction Source.readDefinitions c with
  | case1 c hstop =>
    rw [readDefinitions]
    split
    · next hlt =>
      have hsees : c.sees "%%" = true :=
        (Bool.or_eq_true_iff.1 hstop).resolve_left (hc.lt_size_iff.1 hlt)
      rw [lookahead_found hc hsees rfl]
      rfl
    · rfl
  | case2 c hstop defs e hd =>
    obtain ⟨hend, hsees⟩ := not_or.1 (mt Bool.or_eq_true_iff.2 hstop)
    rw [readDefinitions, dif_pos (hc.lt_size_iff.2 hend)]
    simp only [lookahead_absent hc hsees, readDefinition_offset hc, hd, Checked.ok_bind, Except.map]
    rfl
  | case3 c hstop defs d hd e hb =>
    obtain ⟨hend, hsees⟩ := not_or.1 (mt Bool.or_eq_true_iff.2 hstop)
    rw [readDefinitions, dif_pos (hc.lt_size_iff.2 hend)]
    simp only [lookahead_absent hc hsees, readDefinition_offset hc, hd, Checked.ok_bind, Except.map,
      skipBlanks_offset (on_of_readDefinition hc hd), hb]
    rfl
  | case4 c hstop defs d hd d' hb rest outcome hrest ih =>
    obtain ⟨hend, hsees⟩ := not_or.1 (mt Bool.or_eq_true_iff.2 hstop)
    have hd' := on_of_readDefinition hc hd
    have hd'' := on_of_skipBlanks hd' hb
    have hmoved := hc.offset_lt hd''
      (Nat.lt_of_le_of_lt (length_skipBlanks_le hb) (length_readDefinition_lt hd))
    rw [readDefinitions, dif_pos (hc.lt_size_iff.2 hend)]
    simp only [lookahead_absent hc hsees, readDefinition_offset hc, hd, Checked.ok_bind, Except.map,
      skipBlanks_offset hd', hb, hmoved, dif_pos, ih hd'', hrest]
    rfl

theorem on_of_readDefinitions {defs : List Definition} (hc : c.On text)
    (h : Source.readDefinitions c = (defs, .ok d)) : d.On text := by
  have hlands := (fits_readDefinitions hc).2
  rwa [h] at hlands

theorem readEnd_offset (hc : c.On text) :
    readEnd text c.offset = .ok ((Source.readEnd c).map Cursor.offset) := by
  rw [readEnd, Source.readEnd]
  by_cases hsees : c.sees "%%" = true
  · simp only [lookahead_found hc hsees (n := 2) rfl, Checked.ok_bind, hsees, if_true,
      skipBlanks_offset (hc.skip 2)]
    cases hb : Source.skipBlanks true (c.skip 2) with
    | error e => rfl
    | ok d =>
      have hd := on_of_skipBlanks (hc.skip 2) hb
      simp only [Except.map, Checked.pure_eq_ok, hd.lt_size_iff]
      by_cases hend : d.atEnd = true
      · simp only [hend, not_true_eq_false, if_false, if_true]
      · rw [if_pos hend, if_neg hend]
  · simp only [lookahead_absent hc hsees, Checked.ok_bind, if_neg hsees]
    rfl

theorem readRules_offset (hc : c.On text) (hsees : c.sees "%%" = true)
    (declarations : List Declaration) :
    readRules text declarations c.offset = .ok (Sheet.readRules declarations c) := by
  rw [readRules, Sheet.readRules]
  simp only [lookahead_found hc hsees (n := 2) rfl, Checked.ok_bind, skipBlanks_offset (hc.skip 2)]
  cases hb : Source.skipBlanks true (c.skip 2) with
  | error e => rfl
  | ok d =>
    have hd := on_of_skipBlanks (hc.skip 2) hb
    simp only [Except.map, readDefinitions_offset hd, Checked.ok_bind]
    rcases hdefs : Source.readDefinitions d with ⟨defs, e | d'⟩
    · rfl
    · have hd' := on_of_readDefinitions hd hdefs
      simp only [readEnd_offset hd', Checked.ok_bind]
      cases Source.readEnd d' <;> rfl

theorem readSheet_eq (text : String) : readSheet text = .ok (Sheet.read text) := by
  have hstart := Cursor.on_start text
  have hblanks : skipBlanks text true 0 =
      .ok ((Source.skipBlanks true (Cursor.start text)).map Cursor.offset) :=
    skipBlanks_offset hstart true
  rw [readSheet, Sheet.read, hblanks]
  cases hb : Source.skipBlanks true (Cursor.start text) with
  | error e => rfl
  | ok c =>
    have hc := on_of_skipBlanks hstart hb
    simp only [Except.map, readDeclarations_offset hc, Checked.ok_bind]
    rcases hdeclarations : Source.readDeclarations c with ⟨declarations, e | d⟩
    · rfl
    · exact readRules_offset (on_of_readDeclarations hc hdeclarations)
        (sees_of_readDeclarations hdeclarations) declarations

/-- Every cut is at character boundaries and every loop moves on, whatever the text is. -/
theorem read_eq (text : String) : read text = .ok (Written.read text) := by
  rw [read, readSheet_eq, Checked.ok_bind, Written.read]
  split <;> rfl

end Bytes

end GrammarRepair
