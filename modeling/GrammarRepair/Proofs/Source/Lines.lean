import GrammarRepair.Proofs.Grammar.OfSource
import GrammarRepair.Proofs.Source.Bytes
import GrammarRepair.Proofs.Source.Lexing
import Mathlib.Data.List.TakeWhile

/-!
What may stand between a keyword and the word it declares. Where line breaks are refused, blanks are
spaces, tabs, block comments in one line, and line comments; but a line comment takes the break that
ends it along. Main statement: the line breaks between a keyword and its first word are those that end
line comments there, and no others.
-/

namespace GrammarRepair

open Outline

namespace Source

variable {breaks : Bool} {c d : Cursor} {cs : List Char} {n : Nat}

/-- The end mark of a comment is the first one. -/
theorem not_infix_of_commentLength? (h : commentLength? cs = some n) :
    ¬ ['*', '/'] <:+: cs.take n := by
  fun_induction commentLength? cs generalizing n with
  | case1 => cases h
  | case2 after =>
    cases h
    simp
  | case3 c cs hmark ih =>
    obtain ⟨m, hm, rfl⟩ := Option.map_eq_some_iff.1 h
    rw [List.take_succ_cons, List.infix_cons_iff, not_or]
    refine ⟨?_, ih hm⟩
    rintro ⟨after, hafter⟩
    obtain ⟨rfl, hrest⟩ := List.cons.inj hafter
    have hslash : cs = '/' :: (after ++ cs.drop m) := by
      conv_lhs => rw [← List.take_append_drop m cs, ← hrest]
      rfl
    exact hmark _ rfl hslash

/-- A line comment without the line break that would end it. -/
def IsRemark (cs : List Char) : Prop := ['/', '/'] <+: cs ∧ cs.any isBreak = false

/-- A line comment goes up to its line break, or up to the end of the text. -/
theorem blank_or_remark_of_line (breaks : Bool) (line : List Char) :
    Blank breaks (('/' :: '/' :: line).take (2 + (line.takeWhile (!isBreak ·)).length + 1)) ∨
      IsRemark ('/' :: '/' :: line) ∧ (line.takeWhile (!isBreak ·)).length = line.length := by
  cases hfind : line.find? isBreak with
  | none =>
    have hnone : ∀ d ∈ line, (!isBreak d) = true := by simpa using List.find?_eq_none.1 hfind
    refine .inr ⟨⟨⟨line, rfl⟩, ?_⟩, ?_⟩
    · have hany : line.any isBreak = false :=
        List.any_eq_false.2 fun d hd => by simpa using hnone d hd
      exact hany
    · rw [List.takeWhile_eq_self_iff.2 hnone]
  | some d =>
    obtain ⟨hd, body, rest, rfl, hbody⟩ := List.find?_eq_some_iff_append.1 hfind
    have hline : (body ++ d :: rest).takeWhile (!isBreak ·) = body :=
      takeWhile_append_stop hbody (by simp [hd])
    have htake : ('/' :: '/' :: (body ++ d :: rest)).take (2 + body.length + 1) =
        '/' :: '/' :: (body ++ [d]) := by
      have hcount : 2 + body.length + 1 = body.length + 1 + 1 + 1 := by omega
      rw [hcount, List.take_succ_cons, List.take_succ_cons, List.take_length_add_append]
      rfl
    rw [hline, htake]
    exact .inl (.line (List.any_eq_false.2 fun e he => by simpa using hbody e he) hd)

theorem blank_of_block {body : List Char} (h : commentLength? body = some n)
    (hallowed : ¬ (!breaks && (body.take n).any isBreak) = true) :
    Blank breaks (('/' :: '*' :: body).take (2 + n + 2)) := by
  obtain ⟨after, hafter⟩ := Bytes.exists_of_commentLength? h
  have hmark : body.drop n = '*' :: '/' :: after :=
    List.append_cancel_left ((List.take_append_drop n body).trans hafter)
  have htake : ('/' :: '*' :: body).take (2 + n + 2) = '/' :: '*' :: (body.take n ++ ['*', '/']) := by
    have hcount : 2 + n + 2 = n + 2 + 1 + 1 := by omega
    rw [hcount, List.take_succ_cons, List.take_succ_cons, List.take_add, hmark]
    rfl
  have hbreaks : breaks = true ∨ (body.take n).any isBreak = false := by
    cases breaks with
    | true => exact .inl rfl
    | false => exact .inr (by simpa using hallowed)
  rw [htake]
  exact .block (not_infix_of_commentLength? h) hbreaks

/-- What is skipped as one blank is one, or the remark at the end of the text. -/
theorem blank_or_remark (h : blankLength breaks cs = .ok (n + 1)) :
    Blank breaks (cs.take (n + 1)) ∨ IsRemark cs ∧ cs.drop (n + 1) = [] := by
  unfold blankLength at h
  split at h
  · cases h
  · next e cs =>
    split at h
    · next hspace =>
      cases h
      rcases Bool.or_eq_true_iff.1 hspace with he | he
      · obtain rfl := eq_of_beq he
        exact .inl .space
      · obtain rfl := eq_of_beq he
        exact .inl .tab
    · split at h
      · next he =>
        split at h
        · next hbreaks =>
          cases h
          exact .inl (.lineBreak he hbreaks)
        · cases h
      · split at h
        · next hslash =>
          obtain rfl := eq_of_beq hslash
          split at h
          · next line =>
            rw [← Except.ok.inj h]
            rcases blank_or_remark_of_line breaks line with hblank | ⟨hremark, hall⟩
            · exact .inl hblank
            · refine .inr ⟨hremark, List.drop_eq_nil_of_le ?_⟩
              rw [List.length_cons, List.length_cons]
              omega
          · next body =>
            split at h
            · cases h
            · next m hm =>
              split at h
              · cases h
              · next hallowed =>
                rw [← Except.ok.inj h]
                exact .inl (blank_of_block hm hallowed)
          · cases h
        · cases h

def isLineComment (blank : List Char) : Bool := ['/', '/'].isPrefixOf blank

/-- A row of blanks, and at the end of the text a remark, if there is one. -/
structure Row (breaks : Bool) (blanks : List (List Char)) (remark after : List Char) : Prop where
  blank : ∀ b ∈ blanks, Blank breaks b
  remark : remark = [] ∨ IsRemark remark ∧ after = []

theorem Row.cons {blanks : List (List Char)} {blank remark after : List Char}
    (hblank : Blank breaks blank) (h : Row breaks blanks remark after) :
    Row breaks (blank :: blanks) remark after :=
  ⟨List.forall_mem_cons.2 ⟨hblank, h.blank⟩, h.remark⟩

/-- What is skipped is a row of blanks. -/
theorem exists_row_of_skipBlanks (h : skipBlanks breaks c = .ok d) : ∃ n blanks remark,
    d = c.skip n ∧ c.ahead.take n = blanks.flatten ++ remark ∧ Row breaks blanks remark d.ahead := by
  fun_induction skipBlanks breaks c with
  | case1 c kind hk => cases h
  | case2 c hk =>
    obtain rfl := Except.ok.inj h
    exact ⟨0, [], [], c.skip_zero.symm, rfl, by simp, .inl rfl⟩
  | case3 c n hk ih =>
    obtain ⟨m, blanks, remark, hd, htake, hrow⟩ := ih h
    rw [Cursor.skip_skip] at hd
    refine ⟨n + 1 + m, ?_⟩
    rcases blank_or_remark hk with hblank | ⟨hremark, hend⟩
    · refine ⟨c.ahead.take (n + 1) :: blanks, remark, hd, ?_, hrow.cons hblank⟩
      rw [List.take_add, ← Cursor.ahead_skip, htake, List.flatten_cons, List.append_assoc]
    · have hall : c.ahead.drop (n + 1 + m) = [] := by
        rw [← List.drop_drop, hend, List.drop_nil]
      refine ⟨[], c.ahead, hd, ?_, by simp, .inr ⟨hremark, ?_⟩⟩
      · exact List.take_of_length_le (List.drop_eq_nil_iff.1 hall)
      · rw [hd, Cursor.ahead_skip, hall]

/-- Where line breaks are refused, a blank has one if it is a line comment, and none otherwise. -/
theorem countP_isBreak_of_blank {blank : List Char} (h : Blank false blank) :
    blank.countP isBreak = [blank].countP isLineComment := by
  cases h with
  | space => decide
  | tab => decide
  | lineBreak hc hbreaks => cases hbreaks
  | @line body c hbody hc =>
    have hnone : body.countP isBreak = 0 := by
      rw [List.countP_eq_zero]
      simpa using hbody
    have hslash : isBreak '/' = false := rfl
    have hline : isLineComment ('/' :: '/' :: (body ++ [c])) = true := rfl
    simp [List.countP_append, hnone, hc, hslash, hline]
  | @block body hbody hbreaks =>
    have hnone : body.countP isBreak = 0 := by
      rw [List.countP_eq_zero]
      simpa using hbreaks
    have hmarks : isBreak '/' = false ∧ isBreak '*' = false := ⟨rfl, rfl⟩
    have hline : isLineComment ('/' :: '*' :: (body ++ ['*', '/'])) = false := rfl
    simp [List.countP_append, hnone, hmarks, hline]

theorem Row.countP_isBreak {blanks : List (List Char)} {remark after : List Char}
    (h : Row false blanks remark after) :
    (blanks.flatten ++ remark).countP isBreak = blanks.countP isLineComment := by
  have hremark : remark.countP isBreak = 0 := by
    rcases h.remark with rfl | ⟨⟨-, hnone⟩, -⟩
    · rfl
    · rw [List.countP_eq_zero]
      simpa using hnone
  rw [List.countP_append, hremark, Nat.add_zero]
  have hblanks := h.blank
  clear h hremark
  induction blanks with
  | nil => rfl
  | cons blank blanks ih =>
    obtain ⟨hblank, hblanks⟩ := List.forall_mem_cons.1 hblanks
    rw [List.flatten_cons, List.countP_append, ih hblanks, countP_isBreak_of_blank hblank,
      ← List.countP_append, List.singleton_append]

end Source

open Source

/-- The piece begins at the cursor, or right behind a quote that stands there. -/
inductive Lexeme.BeginsAt (c : Cursor) : Lexeme → Prop
  | bare (n : Nat) : BeginsAt c (c.lexeme n)
  | quoted {q : Char} (n : Nat) (hahead : c.ahead.head? = some q) (hquote : isQuote q = true) :
      BeginsAt c ((c.skip 1).lexeme n)

namespace Declaration

def keyword : Declaration → String
  | .tokens _ => "%token"
  | .start _ => "%start"

theorem length_keyword (declaration : Declaration) : declaration.keyword.toList.length = 6 := by
  have htokens : "%token".toList.length = 6 := by decide
  have hstart : "%start".toList.length = 6 := by decide
  cases declaration with
  | tokens names => exact htokens
  | start name => exact hstart

/-- The keyword stands at the first cursor, and the first word at the second. -/
structure Joins (declaration : Declaration) (c d : Cursor) : Prop where
  keyword : c.sees declaration.keyword = true
  skipped : skipBlanks false (c.skip 6) = .ok d
  word : ∀ name ∈ declaration.names.head?, d.ahead ≠ [] ∧ name.BeginsAt d

end Declaration

namespace Source

theorem beginsAt_of_readWord {w : Word} (h : readWord c = .ok (w, d)) : w.lexeme.BeginsAt c := by
  unfold readWord at h
  split at h
  · cases h
  · next q cs hahead =>
    have hhead : c.ahead.head? = some q := by rw [hahead, List.head?_cons]
    split at h
    · next hquote =>
      split at h
      · cases h
      · next n hn =>
        cases h
        exact .quoted n hhead hquote
    · split at h
      · cases h
      · next n hn =>
        cases h
        exact .bare (n + 1)

theorem beginsAt_of_readTokens {name : Lexeme} (h : name ∈ (readTokens c).1.head?) :
    c.ahead ≠ [] ∧ name.BeginsAt c := by
  fun_induction readTokens c with
  | case1 c hstop => cases h
  | case2 c hstop e hw => cases h
  | case3 c hstop w d hw e hb =>
    obtain rfl := Option.some.inj h
    obtain ⟨n, -, hne, -⟩ := readWord_eq_skip hw
    exact ⟨hne, beginsAt_of_readWord hw⟩
  | case4 c hstop w d hw d' hb names outcome hrest ih =>
    obtain rfl := Option.some.inj h
    obtain ⟨n, -, hne, -⟩ := readWord_eq_skip hw
    exact ⟨hne, beginsAt_of_readWord hw⟩

theorem joins_tokens {names : List Lexeme} {outcome : Except SourceError Cursor}
    (hsees : c.sees "%token" = true) (hb : skipBlanks false (c.skip 6) = .ok d)
    (ht : readTokens d = (names, outcome)) : (Declaration.tokens names).Joins c d := by
  refine ⟨hsees, hb, fun name hname => beginsAt_of_readTokens ?_⟩
  rw [ht]
  exact hname

theorem joins_start {name : Lexeme} {e : Cursor} (hsees : c.sees "%start" = true)
    (hb : skipBlanks false (c.skip 6) = .ok d) (hn : readName d = .ok (name, e)) :
    (Declaration.start name).Joins c d := by
  refine ⟨hsees, hb, fun name' hname => ?_⟩
  obtain rfl := Option.some.inj hname
  obtain ⟨n, -, hne, rfl, -⟩ := readName_eq_skip hn
  exact ⟨hne, .bare n⟩

/-- Every declaration that is read joins its keyword and its first word. -/
theorem exists_joins {text : String} (hc : c.On text) :
    ∀ declaration ∈ (readDeclarations c).1, ∃ k d, k.On text ∧ declaration.Joins k d := by
  fun_induction readDeclarations c with
  | case1 c hend => simp
  | case2 c hend hrules => simp
  | case3 c hend hrules hsees e hb => simp
  | case4 c hend hrules hsees d hb names e ht =>
    exact List.forall_mem_singleton.2 ⟨c, d, hc, joins_tokens hsees hb ht⟩
  | case5 c hend hrules hsees d hb names d' ht rest outcome hrest ih =>
    have hd' := Bytes.on_of_readTokens (on_of_skipBlanks (hc.skip 6) hb) ht
    rw [hrest] at ih
    exact List.forall_mem_cons.2 ⟨⟨c, d, hc, joins_tokens hsees hb ht⟩, ih hd'⟩
  | case6 c hend hrules htoken hsees e hb => simp
  | case7 c hend hrules htoken hsees d hb e hn => simp
  | case8 c hend hrules htoken hsees d hb name d' hn e hb' =>
    exact List.forall_mem_singleton.2 ⟨c, d, hc, joins_start hsees hb hn⟩
  | case9 c hend hrules htoken hsees d hb name d' hn d'' hb' rest outcome hrest ih =>
    have hd' := (on_of_readName (on_of_skipBlanks (hc.skip 6) hb) hn).2
    rw [hrest] at ih
    exact List.forall_mem_cons.2
      ⟨⟨c, d, hc, joins_start hsees hb hn⟩, ih (on_of_skipBlanks hd' hb')⟩
  | case10 c hend hrules htoken hstart => simp

end Source

namespace Sheet

theorem declarations_readRules (declarations : List Declaration) (c : Cursor) :
    (readRules declarations c).declarations = declarations := by
  unfold readRules
  repeat' split
  all_goals rfl

theorem mem_declarations_read {text : String} {declaration : Declaration}
    (h : declaration ∈ (read text).declarations) :
    ∃ c, c.On text ∧ declaration ∈ (readDeclarations c).1 := by
  unfold read at h
  split at h
  · cases h
  · next c hb =>
    refine ⟨c, on_of_skipBlanks (Cursor.on_start text) hb, ?_⟩
    split at h
    · next declarations e hd =>
      rw [hd]
      exact h
    · next declarations d hd =>
      rw [declarations_readRules] at h
      rw [hd]
      exact h

end Sheet

variable {text : String} {c d : Cursor} {declaration : Declaration}

/-- Where the first word of a declaration stands: at an offset, or right behind the quote there. -/
def Lexeme.StandsAt (text : String) (offset : Nat) (l : Lexeme) : Prop :=
  l.span.start = offset ∨
    l.span.start = offset + 1 ∧ ∃ q, isQuote q = true ∧ Bytes.slice text offset (offset + 1) = .ok [q]

theorem Lexeme.BeginsAt.standsAt {l : Lexeme} (h : l.BeginsAt c) (hc : c.On text) :
    l.StandsAt text c.offset := by
  cases h with
  | bare n => exact .inl rfl
  | @quoted q n hahead hquote =>
    obtain ⟨cs, hcs⟩ := List.head?_eq_some_iff.1 hahead
    have htake : c.ahead.take 1 = [q] := by
      rw [hcs]
      rfl
    have hone := Bytes.offset_skip_quote hcs hquote
    have hslice := Bytes.slice_offset hc 1
    rw [hone, htake] at hslice
    exact .inr ⟨hone, q, hquote, hslice⟩

theorem exists_row_of_offset {i j : Nat} (hi : IsBoundary text i)
    (h : Bytes.skipBlanks text false i = .ok (.ok j)) : ∃ blanks remark after,
      Bytes.slice text i j = .ok (blanks.flatten ++ remark) ∧ Bytes.sliceFrom text j = .ok after ∧
        Row false blanks remark after := by
  obtain ⟨before, ahead, htext, rfl⟩ := hi
  have hc : Cursor.On text ⟨byteLength before, ahead⟩ := ⟨before, htext, rfl⟩
  have hskip := (Bytes.skipBlanks_offset hc false).symm.trans h
  cases hb : skipBlanks false ⟨byteLength before, ahead⟩ with
  | error e =>
    rw [hb] at hskip
    cases hskip
  | ok d =>
    rw [hb] at hskip
    cases hskip
    obtain ⟨n, blanks, remark, rfl, htake, hrow⟩ := exists_row_of_skipBlanks hb
    have hslice := Bytes.slice_offset hc n
    rw [htake] at hslice
    exact ⟨blanks, remark, _, hslice, Bytes.sliceFrom_offset (hc.skip n), hrow⟩

theorem Declaration.Joins.exists_row (h : declaration.Joins c d) (hc : c.On text) {name : Lexeme}
    (hname : name ∈ declaration.names.head?) : ∃ blanks : List (List Char),
      Bytes.slice text c.offset (c.offset + 6) = .ok declaration.keyword.toList ∧
        Bytes.slice text (c.offset + 6) d.offset = .ok blanks.flatten ∧ name.StandsAt text d.offset ∧
        Row false blanks [] d.ahead := by
  obtain ⟨hne, hbegins⟩ := h.word name hname
  obtain ⟨n, blanks, remark, rfl, htake, hrow⟩ := exists_row_of_skipBlanks h.skipped
  -- There is a word ahead, so the blanks before it do not end in a remark.
  obtain rfl : remark = [] := hrow.remark.resolve_right fun hremark => hne hremark.2
  rw [List.append_nil] at htake
  have hkeyword : c.ahead.take 6 = declaration.keyword.toList := by
    have hprefix := List.prefix_iff_eq_take.1 (List.isPrefixOf_iff_prefix.1 h.keyword)
    rw [declaration.length_keyword] at hprefix
    exact hprefix.symm
  have hsix : (c.skip 6).offset = c.offset + 6 := by
    have hsize : byteLength declaration.keyword.toList = 6 := by
      cases declaration with
      | tokens names => exact (by decide : byteLength "%token".toList = 6)
      | start name => exact (by decide : byteLength "%start".toList = 6)
    rw [Cursor.skip, hkeyword, hsize]
  have hfirst := Bytes.slice_offset hc 6
  have hblanks := Bytes.slice_offset (hc.skip 6) n
  rw [hsix, hkeyword] at hfirst
  rw [hsix, htake] at hblanks
  exact ⟨blanks, hfirst, hblanks, hbegins.standsAt ((hc.skip 6).skip n), hrow⟩

/-- Where line breaks are refused, the only ones that are skipped are those that end line comments. So
a keyword and the first word that it declares are as many line breaks apart as there are line comments
between them. -/
theorem skipped_breaks_end_lineComments (text : String) :
    (∀ i j, IsBoundary text i → Bytes.skipBlanks text false i = .ok (.ok j) →
      ∃ blanks remark after, Bytes.slice text i j = .ok (blanks.flatten ++ remark) ∧
        Bytes.sliceFrom text j = .ok after ∧ Row false blanks remark after ∧
        (blanks.flatten ++ remark).countP isBreak = blanks.countP isLineComment) ∧
    ∀ declaration ∈ (Sheet.read text).declarations, ∀ name ∈ declaration.names.head?,
      ∃ (i j : Nat) (blanks : List (List Char)),
        Bytes.slice text i (i + 6) = .ok declaration.keyword.toList ∧
        Bytes.slice text (i + 6) j = .ok blanks.flatten ∧ name.StandsAt text j ∧
        (∀ blank ∈ blanks, Blank false blank) ∧
        blanks.flatten.countP isBreak = blanks.countP isLineComment := by
  constructor
  · intro i j hi hskip
    obtain ⟨blanks, remark, after, hslice, hafter, hrow⟩ := exists_row_of_offset hi hskip
    exact ⟨blanks, remark, after, hslice, hafter, hrow, hrow.countP_isBreak⟩
  · intro declaration hmem name hname
    obtain ⟨start, hstart, hmem⟩ := Sheet.mem_declarations_read hmem
    obtain ⟨c, d, hc, hjoins⟩ := exists_joins hstart declaration hmem
    obtain ⟨blanks, hkeyword, hblanks, hstands, hrow⟩ := hjoins.exists_row hc hname
    have hcount := hrow.countP_isBreak
    rw [List.append_nil] at hcount
    exact ⟨c.offset, d.offset, blanks, hkeyword, hblanks, hstands, hrow.blank, hcount⟩

def commentedStart : String := "%start // S\nS\n%%\nS: 'a';"

def commented : Written where
  start := some (letterAt "S" 12)
  tokens := [letterAt "a" 21]
  rules := [⟨letterAt "S" 17, [[.token (letterAt "a" 21)]]⟩]

theorem read_commentedStart : Written.read commentedStart = .ok commented := by
  simp only [Written.read, Written.ofSheet, Written.merge, distinct_eq_foldl]
  decide +kernel

def commentedForm : NormalForm where
  start := "S"
  rules := [("S", [.token "a"])]
  tokens := commented.tokens
  written := [letterAt "S" 17]

theorem ofWritten_commented : NormalForm.ofWritten commented = commentedForm := by
  have htable : NormalForm.splitLong (NormalForm.replaceTokens (NormalForm.tableOf commented)) =
      [⟨"S", [[.token "a"]]⟩] := by
    decide +kernel
  unfold NormalForm.ofWritten
  rw [htable]
  simp [commentedForm, commented, letterAt, NormalForm.dropUnits, NormalForm.Table.closedBodies,
    NormalForm.Table.unitClosure, NormalForm.Table.bodiesOf, explore, Exploration.run,
    Exploration.Frontier.meetAll, Exploration.Frontier.meet, NormalForm.unitOf?,
    NormalForm.namedBody?, distinct_eq_foldl, List.find?_cons]

theorem exists_ofSource_commentedStart : ∃ g, Grammar.ofSource .w32 commentedStart = .ok g := by
  obtain ⟨g, hg⟩ : ∃ g, commentedForm.number .w32 = .ok g :=
    NormalForm.exists_number (by decide) (by decide) (by decide) (by decide) (by decide)
  refine ⟨g.prune, ?_⟩
  rw [Grammar.ofSource, read_commentedStart]
  simp only
  rw [ofWritten_commented, hg]

/-- The source is accepted although the name stands on the line below the keyword. -/
theorem commentedStart_has_break :
    Bytes.slice commentedStart 0 6 = .ok "%start".toList ∧
      Bytes.skipBlanks commentedStart false 6 = .ok (.ok 12) ∧
      Bytes.slice commentedStart 6 12 = .ok " // S\n".toList ∧ '\n' ∈ " // S\n".toList ∧
      Bytes.slice commentedStart 12 13 = .ok "S".toList ∧
      ∃ g, Grammar.ofSource .w32 commentedStart = .ok g := by
  refine ⟨?_, ?_, ?_, ?_, ?_, exists_ofSource_commentedStart⟩
  · decide +kernel
  · decide +kernel
  · decide +kernel
  · decide
  · decide +kernel

/-- One line comment stands between the keyword and the name, and one line break. -/
theorem skipped_breaks_commentedStart :
    (∃ blanks remark after, Bytes.slice commentedStart 6 12 = .ok (blanks.flatten ++ remark) ∧
      Bytes.sliceFrom commentedStart 12 = .ok after ∧ Row false blanks remark after ∧
      (blanks.flatten ++ remark).countP isBreak = blanks.countP isLineComment) ∧
    ∃ (i j : Nat) (blanks : List (List Char)),
      Bytes.slice commentedStart i (i + 6) = .ok "%start".toList ∧
        Bytes.slice commentedStart (i + 6) j = .ok blanks.flatten ∧
        (letterAt "S" 12).StandsAt commentedStart j ∧ (∀ blank ∈ blanks, Blank false blank) ∧
        blanks.flatten.countP isBreak = blanks.countP isLineComment := by
  have hboundary : IsBoundary commentedStart 6 := by decide +kernel
  have hskip : Bytes.skipBlanks commentedStart false 6 = .ok (.ok 12) := by decide +kernel
  have hdeclared : Declaration.start (letterAt "S" 12) ∈
      (Sheet.read commentedStart).declarations := by
    decide +kernel
  have hlaws := skipped_breaks_end_lineComments commentedStart
  exact ⟨hlaws.1 6 12 hboundary hskip, hlaws.2 _ hdeclared _ rfl⟩

end GrammarRepair
