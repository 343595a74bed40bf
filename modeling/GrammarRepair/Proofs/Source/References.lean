import GrammarRepair.Proofs.Source.Boundaries
import GrammarRepair.Proofs.Source.Classification
import GrammarRepair.Proofs.Source.Rendering
import Mathlib.Data.List.TakeWhile

/-!
References to rules. The name of a rule may have dots, a bare word has none: where a name stands, the
bare word is what comes before its first dot. Main statement: in a production, a name without dots is
read as one reference to its rule, up to where the name ends; in any other name the first dot stops
the reading, so no production of a source that is read refers to a rule with a dot in its name.
-/

namespace GrammarRepair

namespace Source

variable {c d : Cursor} {l : Lexeme} {w : Word} {cs more : List Char} {soFar : List Word}

def undotted (cs : List Char) : List Char := cs.takeWhile (· != '.')

theorem undotted_of_dotless (h : '.' ∉ cs) : undotted cs = cs := by
  refine List.takeWhile_eq_self_iff.2 fun e he => bne_iff_ne.2 ?_
  rintro rfl
  exact h he

theorem dotless_undotted (cs : List Char) : '.' ∉ undotted cs := fun hmem =>
  absurd (List.mem_takeWhile_imp hmem) (by decide)

theorem exists_eq_undotted (h : '.' ∈ cs) : ∃ more, cs = undotted cs ++ '.' :: more := by
  induction cs with
  | nil => cases h
  | cons e cs ih =>
    by_cases hdot : e = '.'
    · subst hdot
      exact ⟨cs, rfl⟩
    · obtain ⟨more, hmore⟩ := ih ((List.mem_cons.1 h).resolve_left (Ne.symm hdot))
      have hundotted : undotted (e :: cs) = e :: undotted cs :=
        List.takeWhile_cons_of_pos (bne_iff_ne.2 hdot)
      exact ⟨more, by rw [hundotted, List.cons_append, ← hmore]⟩

theorem eq_apart_from_dot {p : Char → Bool} (h : p '.' = false) (e : Char) :
    p e = (e != '.' && (p e || e == '.')) := by
  by_cases hdot : e = '.'
  · subst hdot
    exact h
  · rw [beq_eq_false_iff_ne.2 hdot, bne_iff_ne.2 hdot, Bool.or_false, Bool.true_and]

theorem isTokenStart_eq (e : Char) : isTokenStart e = (e != '.' && isNameStart e) :=
  eq_apart_from_dot rfl e

theorem isTokenChar_eq (e : Char) : isTokenChar e = (e != '.' && isNameChar e) :=
  eq_apart_from_dot rfl e

theorem takeWhile_isTokenChar (cs : List Char) :
    cs.takeWhile isTokenChar = undotted (cs.takeWhile isNameChar) := by
  rw [undotted, List.takeWhile_takeWhile]
  congr 1
  funext e
  rw [isTokenChar_eq, Bool.decide_and, Bool.decide_eq_true, Bool.decide_eq_true]

/-- A bare word ends before the first dot of a name. -/
theorem bareLength_eq (cs : List Char) :
    bareLength cs = (undotted (cs.take (nameLength cs))).length := by
  cases cs with
  | nil => rfl
  | cons e cs =>
    rw [bareLength, nameLength, isTokenStart_eq]
    by_cases hstart : isNameStart e = true
    · have hname : (e :: cs).take (1 + (cs.takeWhile isNameChar).length) =
          e :: cs.takeWhile isNameChar := by
        rw [Nat.add_comm, List.take_succ_cons,
          ← List.prefix_iff_eq_take.1 (List.takeWhile_prefix isNameChar)]
      rw [if_pos hstart, hstart, Bool.and_true, hname, takeWhile_isTokenChar, undotted, undotted,
        List.takeWhile_cons]
      split
      · rw [List.length_cons, Nat.add_comm]
      · rfl
    · rw [if_neg hstart, Bool.eq_false_iff.2 hstart, Bool.and_false]
      rfl

theorem take_bareLength (cs : List Char) :
    cs.take (bareLength cs) = undotted (cs.take (nameLength cs)) := by
  have hword : undotted (cs.take (nameLength cs)) <+: cs :=
    (List.takeWhile_prefix _).trans (List.take_prefix _ _)
  rw [bareLength_eq, ← List.prefix_iff_eq_take.1 hword]

theorem nameLength_le (cs : List Char) : nameLength cs ≤ cs.length := by
  cases cs with
  | nil => exact Nat.le_refl 0
  | cons e cs =>
    have hle := (List.takeWhile_prefix isNameChar (l := cs)).length_le
    rw [nameLength, List.length_cons]
    split
    · omega
    · exact Nat.zero_le _

def AtName (c : Cursor) : Prop := ∃ e more, c.ahead = e :: more ∧ isNameStart e = true

theorem AtName.not_quote (h : AtName c) : c.ahead.head?.any isQuote = false := by
  obtain ⟨e, more, hahead, hstart⟩ := h
  rw [hahead]
  refine Bool.eq_false_iff.2 fun hquote => ?_
  rcases eq_of_isQuote hquote with rfl | rfl <;> cases hstart

/-- A name is none of the marks of a production. -/
theorem AtName.no_mark (h : AtName c) :
    c.atEnd = false ∧ c.sees "|" = false ∧ c.sees ";" = false := by
  obtain ⟨e, more, hahead, hstart⟩ := h
  have hmark : ∀ mark, isNameStart mark = false → [mark].isPrefixOf (e :: more) = false := by
    intro mark hmark
    have hne : mark ≠ e := by
      rintro rfl
      rw [hmark] at hstart
      cases hstart
    rw [List.isPrefixOf, beq_eq_false_iff_ne.2 hne, Bool.false_and]
  rw [Cursor.atEnd, Cursor.sees, Cursor.sees, hahead]
  exact ⟨rfl, hmark '|' rfl, hmark ';' rfl⟩

theorem atName_of_dot (h : c.ahead = '.' :: more) : AtName c := ⟨_, _, h, rfl⟩

theorem atName_of_nameLength (h : 0 < nameLength c.ahead) : AtName c := by
  cases hahead : c.ahead with
  | nil => simp [hahead, nameLength] at h
  | cons e more =>
    refine ⟨e, more, hahead, ?_⟩
    by_contra hstart
    rw [hahead, nameLength, if_neg hstart] at h
    exact Nat.lt_irrefl 0 h

theorem nameLength_of_readName (h : readName c = .ok (l, d)) : 0 < nameLength c.ahead ∧
    l = c.lexeme (nameLength c.ahead) ∧ d = c.skip (nameLength c.ahead) := by
  unfold readName at h
  split at h
  · cases h
  · next n hn =>
    cases h
    rw [hn]
    exact ⟨Nat.succ_pos n, rfl, rfl⟩

theorem readWord_of_dot (h : c.ahead = '.' :: more) :
    readWord c = .error (.point .illegalString c.offset) := by
  unfold readWord
  rw [h]
  rfl

theorem readAlternatives_of_dot (h : c.ahead = '.' :: more) :
    readAlternatives soFar c = ([], .error (.point .illegalString c.offset)) := by
  obtain ⟨hend, hbar, hsemicolon⟩ := (atName_of_dot h).no_mark
  rw [readAlternatives, if_neg (Bool.eq_false_iff.1 hend), dif_neg (Bool.eq_false_iff.1 hbar),
    if_neg (Bool.eq_false_iff.1 hsemicolon)]
  have hword := readWord_of_dot h
  split
  · next e hw =>
    rw [hword] at hw
    cases hw
    rfl
  · next w d hw =>
    rw [hword] at hw
    cases hw

theorem solid_of_dot (more : List Char) : Solid ('.' :: more) := fun _ => rfl

/-- The bare word before the first dot is read, if there is one, and then the dot. -/
theorem readAlternatives_of_dotted (hname : readName c = .ok (l, d)) (hdot : '.' ∈ l.text.toList)
    (soFar : List Word) : readAlternatives soFar c =
      ([], .error (.point .illegalString (c.offset + byteLength (undotted l.text.toList)))) := by
  obtain ⟨hpos, rfl, -⟩ := nameLength_of_readName hname
  have hat := atName_of_nameLength hpos
  have htext : (c.lexeme (nameLength c.ahead)).text.toList = c.ahead.take (nameLength c.ahead) :=
    String.toList_ofList
  rw [htext] at hdot ⊢
  obtain ⟨more, hmore⟩ := exists_eq_undotted hdot
  have hahead : c.ahead = undotted (c.ahead.take (nameLength c.ahead)) ++
      '.' :: (more ++ c.ahead.drop (nameLength c.ahead)) := by
    conv_lhs => rw [← List.take_append_drop (nameLength c.ahead) c.ahead, hmore]
    rw [List.append_assoc, List.cons_append]
  have hlength := bareLength_eq c.ahead
  generalize undotted (c.ahead.take (nameLength c.ahead)) = word at hahead hlength
  -- A name that begins with its dot has no word in front of it.
  cases word with
  | nil => exact readAlternatives_of_dot hahead
  | cons e word =>
    obtain ⟨hend, hbar, hsemicolon⟩ := hat.no_mark
    have hword := Cursor.readWord_of_bareLength hat.not_quote hlength (Nat.succ_pos _)
    have hdotted : (c.skip (e :: word).length).ahead =
        '.' :: (more ++ c.ahead.drop (nameLength c.ahead)) := by
      rw [Cursor.ahead_skip]
      conv_lhs => rw [hahead, List.drop_left]
    have hblank : skipBlanks true (c.skip (e :: word).length) = .ok (c.skip (e :: word).length) :=
      skipBlanks_solid (hdotted ▸ solid_of_dot _)
    rw [readAlternatives_word hend hbar hsemicolon hword hblank, readAlternatives_of_dot hdotted]
    rw [Cursor.skip, hahead, List.take_left]

end Source

/-- Reading a production goes on behind the name, with one more word, which refers to the rule unless
its text is that of a token. -/
structure Cursor.ReadsReference (c : Cursor) (name : Lexeme) (d : Cursor) : Prop where
  readWord_eq : Source.readWord c = .ok (⟨name, false⟩, d)
  readAlternatives_eq : ∀ soFar e, Source.skipBlanks true d = .ok e →
    Source.readAlternatives soFar c = Source.readAlternatives (soFar ++ [⟨name, false⟩]) e
  symbolOf_eq : ∀ tokens : List Lexeme, name.text ∉ tokens.map (·.text) →
    Written.symbolOf ⟨name, false⟩ tokens = (.rule name, tokens)

open Source

variable {c d : Cursor} {l : Lexeme} {w : Word} {text : String} {g : Written}

theorem readsReference_of_dotless (hname : readName c = .ok (l, d)) (hdot : '.' ∉ l.text.toList) :
    c.ReadsReference l d := by
  obtain ⟨hpos, rfl, rfl⟩ := nameLength_of_readName hname
  have hat := atName_of_nameLength hpos
  have hlength : bareLength c.ahead = nameLength c.ahead := by
    have htext : (c.lexeme (nameLength c.ahead)).text.toList = c.ahead.take (nameLength c.ahead) :=
      String.toList_ofList
    rw [bareLength_eq, ← htext, undotted_of_dotless hdot, htext, List.length_take]
    exact Nat.min_eq_left (nameLength_le c.ahead)
  have hword := Cursor.readWord_of_bareLength hat.not_quote hlength hpos
  refine ⟨hword, fun soFar e hblank => ?_, fun tokens hnew => ?_⟩
  · obtain ⟨hend, hbar, hsemicolon⟩ := hat.no_mark
    exact readAlternatives_word hend hbar hsemicolon hword hblank
  · rw [Written.symbolOf, if_neg Bool.false_ne_true, if_neg (mt Written.any_text_iff.1 hnew)]

theorem dotless_of_readWord (h : readWord c = .ok (w, d)) (hbare : w.quoted = false) :
    '.' ∉ w.lexeme.text.toList := by
  unfold readWord at h
  split at h
  · cases h
  · next q cs hahead =>
    split at h
    · split at h
      · cases h
      · cases h
        cases hbare
    · split at h
      · cases h
      · next n hn =>
        cases h
        have htext : (c.lexeme (n + 1)).text.toList = c.ahead.take (bareLength c.ahead) := by
          rw [hahead, hn, ← hahead]
          exact String.toList_ofList
        rw [htext, take_bareLength]
        exact dotless_undotted _

namespace Written

/-- In a source that is read, the bare words that are no tokens are references. -/
theorem rule_mem_symbols (h : read text = .ok g) (hw : w ∈ (Sheet.read text).words)
    (hbare : w.quoted = false) (hnew : w.lexeme.text ∉ g.tokens.map (·.text)) :
    .rule w.lexeme ∈ g.symbols := by
  have hascending := ascending_words_of_read h
  obtain ⟨rfl, -, -⟩ := ofSheet_of_read h
  obtain ⟨i, hi⟩ := List.mem_iff_getElem?.1 hw
  obtain ⟨htoken, hrule⟩ := mem_symbols_of_bare hascending hi hbare
  exact hrule.2 fun hknown => hnew (mem_texts_ofSheet (htoken.2 hknown))

theorem dotless_of_mem_symbols {name : Lexeme} (h : read text = .ok g)
    (hname : .rule name ∈ g.symbols) : '.' ∉ name.text.toList := by
  obtain ⟨rfl, -, -⟩ := ofSheet_of_read h
  obtain ⟨i, w, hw, ⟨heq, -⟩ | ⟨heq, hbare, -⟩⟩ := exists_word_of_mem_symbols hname
  · cases heq
  · obtain rfl := Symbol.rule.inj heq
    obtain ⟨c, d, -, hread⟩ := (Sheet.fits_read text).words w (List.mem_of_getElem? hw)
    exact dotless_of_readWord hread hbare

/-- In a production, a name is read as one reference to its rule exactly if it has no dot, and a word
that is no token refers to the rule of its name. The first dot of a name stops the reading, so a
source with a reference to that name is not read. -/
theorem reference_iff_dotless (hname : readName c = .ok (l, d)) :
    (c.ReadsReference l d ↔ '.' ∉ l.text.toList) ∧
    ('.' ∈ l.text.toList → ∀ soFar, readAlternatives soFar c =
      ([], .error (.point .illegalString (c.offset + byteLength (undotted l.text.toList))))) ∧
    ∀ text g, read text = .ok g →
      (⟨l, false⟩ ∈ (Sheet.read text).words → l.text ∉ g.tokens.map (·.text) →
        .rule l ∈ g.symbols) ∧
      ('.' ∈ l.text.toList → ∀ name, .rule name ∈ g.symbols → name.text ≠ l.text) := by
  refine ⟨⟨fun h => dotless_of_readWord h.readWord_eq rfl, readsReference_of_dotless hname⟩,
    readAlternatives_of_dotted hname, fun text g hread => ⟨?_, fun hdot name hmem heq => ?_⟩⟩
  · intro hword hnew
    exact rule_mem_symbols hread hword rfl hnew
  · exact dotless_of_mem_symbols hread hmem (heq ▸ hdot)

def plainReference : String := "%%\nS: r;\nr: 'x';"

def dottedReference : String := "%%\nS: a.b a.b;\na.b: 'x';"

def firstWord (text : String) : Cursor := (Cursor.start text).skip 6

theorem readName_plainReference : readName (firstWord plainReference) =
    .ok (letterAt "r" 6, (firstWord plainReference).skip 1) := by
  decide +kernel

theorem readName_dottedReference : readName (firstWord dottedReference) =
    .ok (⟨"a.b", 6, 9, by decide⟩, (firstWord dottedReference).skip 3) := by
  decide +kernel

theorem read_plainReference : read plainReference = .ok
    { start := some (letterAt "S" 3)
      tokens := [letterAt "x" 13]
      rules := [⟨letterAt "S" 3, [[.rule (letterAt "r" 6)]]⟩,
        ⟨letterAt "r" 9, [[.token (letterAt "x" 13)]]⟩] } := by
  simp only [read, ofSheet, merge, distinct_eq_foldl]
  decide +kernel

theorem word_mem_plainReference :
    ⟨letterAt "r" 6, false⟩ ∈ (Sheet.read plainReference).words := by
  decide +kernel

/-- One name is read as a reference, the other one is stopped at its dot. -/
theorem reference_iff_dotless_first :
    (firstWord plainReference).ReadsReference (letterAt "r" 6) ((firstWord plainReference).skip 1) ∧
    readAlternatives [] (firstWord dottedReference) = ([], .error (.point .illegalString 7)) ∧
    ∃ g, read plainReference = .ok g ∧ .rule (letterAt "r" 6) ∈ g.symbols ∧
      ∀ name, .rule name ∈ g.symbols → name.text ≠ "a.b" := by
  obtain ⟨hplain, -, hrefers⟩ := reference_iff_dotless readName_plainReference
  obtain ⟨-, hstopped, hrefused⟩ := reference_iff_dotless readName_dottedReference
  refine ⟨hplain.2 (by decide), (hstopped (by decide) []).trans (by decide +kernel),
    _, read_plainReference, ?_, ?_⟩
  · exact (hrefers _ _ read_plainReference).1 word_mem_plainReference (by decide)
  · exact (hrefused _ _ read_plainReference).2 (by decide)

def dottedRule : String := "%%\nS: 'y';\na.b: 'x';"

theorem read_dottedRule : read dottedRule = .ok
    { start := some (letterAt "S" 3)
      tokens := [letterAt "y" 7, letterAt "x" 17]
      rules := [⟨letterAt "S" 3, [[.token (letterAt "y" 7)]]⟩,
        ⟨⟨"a.b", 11, 14, by decide⟩, [[.token (letterAt "x" 17)]]⟩] } := by
  simp only [read, ofSheet, merge, distinct_eq_foldl]
  decide +kernel

/-- The name is one of a rule and no token, but a production with it is refused at the dot. -/
theorem dotted_rule_has_no_reference :
    (∃ g, read dottedRule = .ok g ∧ g.hasRule "a.b" = true ∧ "a.b" ∉ g.tokens.map (·.text)) ∧
      read dottedReference = .error [.point .illegalString 7] := by
  refine ⟨⟨_, read_dottedRule, by decide, by decide⟩, ?_⟩
  simp only [read, ofSheet, merge, distinct_eq_foldl]
  decide +kernel

end Written

end GrammarRepair
