import GrammarRepair.Source.Cursor
import GrammarRepair.Source.Error

/-!
The smallest pieces of a grammar source: blanks and comments, names, and tokens. How long a piece
is is a function of the characters ahead; reading it moves the cursor by that much.
-/

namespace GrammarRepair

structure Lexeme where
  text : String
  span : Span
  deriving DecidableEq, Repr

/-- A symbol of a production is written in quotes or bare. -/
structure Word where
  lexeme : Lexeme
  quoted : Bool
  deriving DecidableEq, Repr

def Cursor.lexeme (c : Cursor) (n : Nat) : Lexeme := ⟨c.text n, c.spanOf n⟩

namespace Source

def isBreak (c : Char) : Bool := c == '\n' || c == '\r'

def isLetter (c : Char) : Bool := ('a' ≤ c && c ≤ 'z') || ('A' ≤ c && c ≤ 'Z')

def isDigit (c : Char) : Bool := '0' ≤ c && c ≤ '9'

/-- The characters of bare tokens; all but the digits may also come first. -/
def isTokenStart (c : Char) : Bool := isLetter c || c == '_'

def isTokenChar (c : Char) : Bool := isTokenStart c || isDigit c

/-- Rule names may have dots as well. -/
def isNameStart (c : Char) : Bool := isTokenStart c || c == '.'

def isNameChar (c : Char) : Bool := isTokenChar c || c == '.'

/-- The number of characters before the first end-of-comment mark. -/
def commentLength? : List Char → Option Nat
  | [] => none
  | '*' :: '/' :: _ => some 0
  | _ :: cs => (commentLength? cs).map (· + 1)

/-- The length of one blank: a space, a tab, a line break or a comment. A line comment takes the
line break that ends it along. Where line breaks are refused, so is a block comment over a line
break; `0` means that no blank comes next. -/
def blankLength (breaks : Bool) : List Char → Except SourceError.Kind Nat
  | [] => .ok 0
  | c :: cs =>
    if c == ' ' || c == '\t' then .ok 1
    else if isBreak c then
      if breaks then .ok 1 else .error .reachedEndOfLine
    else if c == '/' then
      match cs with
      | '/' :: line => .ok (2 + (line.takeWhile (!isBreak ·)).length + 1)
      | '*' :: body =>
        match commentLength? body with
        | none => .error .incompleteComment
        | some n =>
          if !breaks && (body.take n).any isBreak then .error .reachedEndOfLine
          else .ok (2 + n + 2)
      | _ => .ok 0
    else .ok 0

theorem blankLength_nil (breaks : Bool) : blankLength breaks [] = .ok 0 := rfl

def skipBlanks (breaks : Bool) (c : Cursor) : Except SourceError Cursor :=
  match h : blankLength breaks c.ahead with
  | .error kind => .error (.point kind c.offset)
  | .ok 0 => .ok c
  | .ok (n + 1) => skipBlanks breaks (c.skip (n + 1))
termination_by c.ahead.length
decreasing_by
  refine Cursor.length_skip_lt (Nat.succ_pos n) ?_
  intro hnil
  rw [hnil, blankLength_nil] at h
  cases h

def nameLength : List Char → Nat
  | [] => 0
  | c :: cs => if isNameStart c then 1 + (cs.takeWhile isNameChar).length else 0

def bareLength : List Char → Nat
  | [] => 0
  | c :: cs => if isTokenStart c then 1 + (cs.takeWhile isTokenChar).length else 0

/-- How many characters stand between the quote `q`, just passed, and its partner. The first one
may itself be a quote; none is a line feed. -/
def quotedLength? (q : Char) : List Char → Option Nat
  | [] => none
  | c :: cs =>
    let inside := cs.takeWhile fun d => d != q && d != '\n'
    if c != '\n' && (cs.drop inside.length).head? == some q then some (1 + inside.length) else none

def isQuote (c : Char) : Bool := c == '\'' || c == '"'

def readName (c : Cursor) : Except SourceError (Lexeme × Cursor) :=
  match nameLength c.ahead with
  | 0 => .error (.point .illegalName c.offset)
  | n + 1 => .ok (c.lexeme (n + 1), c.skip (n + 1))

def readWord (c : Cursor) : Except SourceError (Word × Cursor) :=
  match c.ahead with
  | [] => .error (.point .illegalString c.offset)
  | q :: cs =>
    if isQuote q then
      match quotedLength? q cs with
      | none => .error (.point .illegalString c.offset)
      | some n => .ok (⟨(c.skip 1).lexeme n, true⟩, c.skip (n + 2))
    else
      match bareLength (q :: cs) with
      | 0 => .error (.point .illegalString c.offset)
      | n + 1 => .ok (⟨c.lexeme (n + 1), false⟩, c.skip (n + 1))

theorem skipBlanks_eq_skip {breaks : Bool} {c d : Cursor} (h : skipBlanks breaks c = .ok d) :
    ∃ n, d = c.skip n := by
  fun_induction skipBlanks breaks c with
  | case1 c kind hk => cases h
  | case2 c hk => exact ⟨0, by simpa using (Except.ok.inj h).symm⟩
  | case3 c n hk ih =>
    obtain ⟨m, hm⟩ := ih h
    exact ⟨n + 1 + m, by rw [hm, Cursor.skip_skip]⟩

theorem length_skipBlanks_le {breaks : Bool} {c d : Cursor} (h : skipBlanks breaks c = .ok d) :
    d.ahead.length ≤ c.ahead.length := by
  obtain ⟨n, rfl⟩ := skipBlanks_eq_skip h
  rw [Cursor.length_skip]
  omega

theorem readName_eq_skip {c d : Cursor} {l : Lexeme} (h : readName c = .ok (l, d)) :
    ∃ n, 0 < n ∧ c.ahead ≠ [] ∧ l = c.lexeme n ∧ d = c.skip n := by
  unfold readName at h
  split at h
  · cases h
  · next n hn =>
    cases h
    refine ⟨n + 1, Nat.succ_pos n, ?_, rfl, rfl⟩
    intro hnil
    simp [hnil, nameLength] at hn

theorem length_readName_lt {c d : Cursor} {l : Lexeme} (h : readName c = .ok (l, d)) :
    d.ahead.length < c.ahead.length := by
  obtain ⟨n, hn, hc, -, rfl⟩ := readName_eq_skip h
  exact Cursor.length_skip_lt hn hc

theorem readWord_eq_skip {c d : Cursor} {w : Word} (h : readWord c = .ok (w, d)) :
    ∃ n, 0 < n ∧ c.ahead ≠ [] ∧ d = c.skip n := by
  unfold readWord at h
  split at h
  · cases h
  · next q cs hc =>
    have hne : c.ahead ≠ [] := by simp [hc]
    split at h
    · split at h
      · cases h
      · next n hn =>
        cases h
        exact ⟨n + 2, by omega, hne, rfl⟩
    · split at h
      · cases h
      · next n hn =>
        cases h
        exact ⟨n + 1, by omega, hne, rfl⟩

theorem length_readWord_lt {c d : Cursor} {w : Word} (h : readWord c = .ok (w, d)) :
    d.ahead.length < c.ahead.length := by
  obtain ⟨n, hn, hc, rfl⟩ := readWord_eq_skip h
  exact Cursor.length_skip_lt hn hc

end Source

end GrammarRepair
