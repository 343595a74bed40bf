import GrammarRepair.Source.Lexeme

/-!
A grammar source as it stands on the page: the declarations, then rule definitions with their
alternatives, word by word. Reading goes on to the first error that stops it, and what was read
before that error is kept.
-/

namespace GrammarRepair

inductive Declaration
  | tokens (names : List Lexeme)
  | start (name : Lexeme)
  deriving DecidableEq, Repr

structure Alternative where
  words : List Word
  stop : Nat
  deriving DecidableEq, Repr

structure Definition where
  name : Lexeme
  alternatives : List Alternative
  deriving DecidableEq, Repr

namespace Source

/-- The tokens of one `%token` declaration: all words up to the next per cent sign. -/
def readTokens (c : Cursor) : List Lexeme × Except SourceError Cursor :=
  if c.atEnd || c.sees "%" then ([], .ok c)
  else
    match _hw : readWord c with
    | .error e => ([], .error e)
    | .ok (w, d) =>
      match _hb : skipBlanks true d with
      | .error e => ([w.lexeme], .error e)
      | .ok d' =>
        let (names, outcome) := readTokens d'
        (w.lexeme :: names, outcome)
termination_by c.ahead.length
decreasing_by
  exact Nat.lt_of_le_of_lt (length_skipBlanks_le _hb) (length_readWord_lt _hw)

theorem length_readTokens_le {c d : Cursor} {names : List Lexeme}
    (h : readTokens c = (names, .ok d)) : d.ahead.length ≤ c.ahead.length := by
  fun_induction readTokens c generalizing names with
  | case1 c hc =>
    cases h
    exact Nat.le_refl _
  | case2 c hc e hw => cases h
  | case3 c hc w d' hw e hb => cases h
  | case4 c hc w d' hw d'' hb names' outcome hrest ih =>
    cases h
    exact Nat.le_trans (ih hrest) (Nat.le_of_lt
      (Nat.lt_of_le_of_lt (length_skipBlanks_le hb) (length_readWord_lt hw)))

def readDeclarations (c : Cursor) : List Declaration × Except SourceError Cursor :=
  if c.atEnd then ([], .error (.point .prematureEnd (c.offset - 1)))
  else if c.sees "%%" then ([], .ok c)
  else if _hc : c.sees "%token" then
    match _hb : skipBlanks false (c.skip 6) with
    | .error e => ([], .error e)
    | .ok d =>
      match _ht : readTokens d with
      | (names, .error e) => ([.tokens names], .error e)
      | (names, .ok d') =>
        let (rest, outcome) := readDeclarations d'
        (.tokens names :: rest, outcome)
  else if _hc : c.sees "%start" then
    match _hb : skipBlanks false (c.skip 6) with
    | .error e => ([], .error e)
    | .ok d =>
      match _hn : readName d with
      | .error e => ([], .error e)
      | .ok (name, d') =>
        match _hb' : skipBlanks true d' with
        | .error e => ([.start name], .error e)
        | .ok d'' =>
          let (rest, outcome) := readDeclarations d''
          (.start name :: rest, outcome)
  else ([], .error (.point .unknownDeclaration c.offset))
termination_by c.ahead.length
decreasing_by
  · have hne : c.ahead ≠ [] := by
      intro hnil
      simp [Cursor.sees, hnil] at _hc
    exact Nat.lt_of_le_of_lt (Nat.le_trans (length_readTokens_le _ht) (length_skipBlanks_le _hb))
      (Cursor.length_skip_lt (by omega) hne)
  · exact Nat.lt_of_le_of_lt (length_skipBlanks_le _hb') (Nat.lt_of_lt_of_le
      (length_readName_lt _hn) (Nat.le_trans (length_skipBlanks_le _hb) (by
        rw [Cursor.length_skip]
        omega)))

/-- The alternatives of a rule from inside one of them, whose first words are `soFar`, up to the
semicolon. -/
def readAlternatives (soFar : List Word) (c : Cursor) :
    List Alternative × Except SourceError Cursor :=
  if c.atEnd then ([], .error (.point .incompleteRule c.offset))
  else if _hc : c.sees "|" then
    match _hb : skipBlanks true (c.skip 1) with
    | .error e => ([⟨soFar, c.offset⟩], .error e)
    | .ok d =>
      let (rest, outcome) := readAlternatives [] d
      (⟨soFar, c.offset⟩ :: rest, outcome)
  else if c.sees ";" then ([⟨soFar, c.offset⟩], .ok (c.skip 1))
  else
    match _hw : readWord c with
    | .error e => ([], .error e)
    | .ok (w, d) =>
      match _hb : skipBlanks true d with
      | .error e => ([], .error e)
      | .ok d' => readAlternatives (soFar ++ [w]) d'
termination_by c.ahead.length
decreasing_by
  · have hne : c.ahead ≠ [] := by
      intro hnil
      simp [Cursor.sees, hnil] at _hc
    exact Nat.lt_of_le_of_lt (length_skipBlanks_le _hb) (Cursor.length_skip_lt (by omega) hne)
  · exact Nat.lt_of_le_of_lt (length_skipBlanks_le _hb) (length_readWord_lt _hw)

theorem length_readAlternatives_le {soFar : List Word} {c d : Cursor} {alts : List Alternative}
    (h : readAlternatives soFar c = (alts, .ok d)) : d.ahead.length ≤ c.ahead.length := by
  fun_induction readAlternatives soFar c generalizing alts with
  | case1 soFar c hend => cases h
  | case2 soFar c hend hc e hb => cases h
  | case3 soFar c hend hc d' hb rest outcome hrest ih =>
    cases h
    refine Nat.le_trans (ih hrest) (Nat.le_trans (length_skipBlanks_le hb) ?_)
    rw [Cursor.length_skip]
    omega
  | case4 soFar c hend hbar hc =>
    cases h
    rw [Cursor.length_skip]
    omega
  | case5 soFar c hend hbar hc e hw => cases h
  | case6 soFar c hend hbar hc w d' hw e hb => cases h
  | case7 soFar c hend hbar hc w d' hw d'' hb ih =>
    exact Nat.le_trans (ih h) (Nat.le_of_lt
      (Nat.lt_of_le_of_lt (length_skipBlanks_le hb) (length_readWord_lt hw)))

def readDefinition (c : Cursor) : List Definition × Except SourceError Cursor :=
  match readName c with
  | .error e => ([], .error e)
  | .ok (name, d) =>
    match skipBlanks true d with
    | .error e => ([⟨name, []⟩], .error e)
    | .ok d' =>
      if d'.sees ":" then
        match skipBlanks true (d'.skip 1) with
        | .error e => ([⟨name, []⟩], .error e)
        | .ok d'' =>
          let (alts, outcome) := readAlternatives [] d''
          ([⟨name, alts⟩], outcome)
      else ([⟨name, []⟩], .error (.point .missingColon d'.offset))

theorem length_readDefinition_lt {c d : Cursor} {defs : List Definition}
    (h : readDefinition c = (defs, .ok d)) : d.ahead.length < c.ahead.length := by
  unfold readDefinition at h
  split at h
  · cases h
  · next name e hn =>
    split at h
    · cases h
    · next d' hb =>
      split at h
      · split at h
        · cases h
        · next d'' hb' =>
          have halts : d.ahead.length ≤ d''.ahead.length := by
            cases hr : readAlternatives [] d'' with
            | mk alts outcome =>
              rw [hr] at h
              cases h
              exact length_readAlternatives_le hr
          have h1 := length_skipBlanks_le hb'
          have h2 := length_skipBlanks_le hb
          have h3 := length_readName_lt hn
          rw [Cursor.length_skip] at h1
          omega
      · cases h

def readDefinitions (c : Cursor) : List Definition × Except SourceError Cursor :=
  if c.atEnd || c.sees "%%" then ([], .ok c)
  else
    match _hd : readDefinition c with
    | (defs, .error e) => (defs, .error e)
    | (defs, .ok d) =>
      match _hb : skipBlanks true d with
      | .error e => (defs, .error e)
      | .ok d' =>
        let (rest, outcome) := readDefinitions d'
        (defs ++ rest, outcome)
termination_by c.ahead.length
decreasing_by
  exact Nat.lt_of_le_of_lt (length_skipBlanks_le _hb) (length_readDefinition_lt _hd)

/-- After the rules nothing may follow but a `%%` and blanks. -/
def readEnd (c : Cursor) : Except SourceError Cursor :=
  if c.sees "%%" then
    match skipBlanks true (c.skip 2) with
    | .error e => .error e
    | .ok d => if d.atEnd then .ok d else .error (.point .programsNotSupported d.offset)
  else .ok c

end Source

/-- What stands in a grammar source, as far as it could be read, and the error that stopped the
reading, if one did. -/
structure Sheet where
  declarations : List Declaration
  definitions : List Definition
  stoppedBy : Option SourceError
  deriving DecidableEq, Repr

namespace Sheet

open Source

def readRules (declarations : List Declaration) (c : Cursor) : Sheet :=
  match skipBlanks true (c.skip 2) with
  | .error e => ⟨declarations, [], some e⟩
  | .ok d =>
    match readDefinitions d with
    | (defs, .error e) => ⟨declarations, defs, some e⟩
    | (defs, .ok d') =>
      match readEnd d' with
      | .error e => ⟨declarations, defs, some e⟩
      | .ok _ => ⟨declarations, defs, none⟩

def read (text : String) : Sheet :=
  match skipBlanks true (Cursor.start text) with
  | .error e => ⟨[], [], some e⟩
  | .ok c =>
    match readDeclarations c with
    | (declarations, .error e) => ⟨declarations, [], some e⟩
    | (declarations, .ok d) => readRules declarations d

def starts (s : Sheet) : List Lexeme :=
  s.declarations.filterMap fun
    | .start name => some name
    | .tokens _ => none

def declared (s : Sheet) : List Lexeme :=
  s.declarations.flatMap fun
    | .start _ => []
    | .tokens names => names

/-- One error at the first `%start` declaration if there are more. -/
def duplicateStarts (s : Sheet) : List SourceError :=
  match s.starts with
  | first :: next :: later => [⟨.duplicateStart ((next :: later).map (·.span)), first.span⟩]
  | _ => []

def emptyAlternatives (s : Sheet) : List SourceError :=
  (s.definitions.flatMap (·.alternatives)).filterMap fun a =>
    if a.words.isEmpty then some (.point .emptyProduction a.stop) else none

def errors (s : Sheet) : List SourceError :=
  s.duplicateStarts ++ s.emptyAlternatives ++ s.stoppedBy.toList

end Sheet

end GrammarRepair
