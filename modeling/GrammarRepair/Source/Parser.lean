import GrammarRepair.Source.Written

/-!
The reading of a grammar as a parser with a state. What has been read goes into the state at once, so it
stays there when an error stops the reading. Other errors do not stop it: start rules declared again
and alternatives without words are only noted, and reported in the end.
-/

namespace GrammarRepair

/-- A grammar that is built up while it is read. Rules and tokens stand where they are first met,
rules with the numbers of their productions. -/
structure Ast where
  start : Option Lexeme
  rules : List (Lexeme × List Nat)
  productions : List (List Symbol)
  tokens : List Lexeme
  deriving DecidableEq, Repr

namespace Ast

def empty : Ast := ⟨none, [], [], []⟩

def hasRule (t : Ast) (text : String) : Bool := t.rules.any (·.1.text == text)

def addRule (t : Ast) (name : Lexeme) : Ast :=
  if t.hasRule name.text then t else { t with rules := t.rules ++ [(name, [])] }

def addProduction (t : Ast) (rule : String) (body : List Symbol) : Ast :=
  { t with
    rules := t.rules.map fun r =>
      if r.1.text == rule then (r.1, r.2 ++ [t.productions.length]) else r
    productions := t.productions ++ [body] }

def checkStart (t : Ast) : List SourceError :=
  match t.start with
  | none => [.point .noStartRule 0]
  | some name => if t.hasRule name.text then [] else [⟨.invalidStartRule name.text, name.span⟩]

def checkSymbol (t : Ast) (errors : List SourceError) : Symbol → List SourceError
  | .token _ => errors
  | .rule name =>
    if t.hasRule name.text then errors else errors ++ [⟨.unknownRule name.text, name.span⟩]

def checkProduction (t : Ast) (errors : List SourceError) (number : Nat) : List SourceError :=
  (t.productions.getD number []).foldl t.checkSymbol errors

def validate (t : Ast) : List SourceError :=
  t.rules.foldl (fun errors rule => rule.2.foldl t.checkProduction errors) t.checkStart

end Ast

/-- The duplicates are the place of the first declared start rule and those of all later ones.
Deferred errors did not stop the reading. -/
structure Parser where
  ast : Ast
  duplicates : Option (Span × List Span)
  deferred : List SourceError
  deriving DecidableEq, Repr

namespace Parser

open Source

def fresh : Parser := ⟨.empty, none, []⟩

def addToken (p : Parser) (name : Lexeme) : Parser :=
  { p with ast.tokens := Written.addToken p.ast.tokens name }

/-- The first start rule that is declared stays; all others are noted. -/
def declareStart (p : Parser) (name : Lexeme) : Parser :=
  match p.ast.start with
  | none => { p with ast.start := some name }
  | some first =>
    let (place, later) := p.duplicates.getD (first.span, [])
    { p with duplicates := some (place, later ++ [name.span]) }

/-- The first rule is the start rule if none was declared. -/
def beginRule (p : Parser) (name : Lexeme) : Parser :=
  { p with ast := { p.ast.addRule name with start := p.ast.start <|> some name } }

def addWord (p : Parser) (w : Word) : Symbol × Parser :=
  let (x, tokens) := Written.symbolOf w p.ast.tokens
  (x, { p with ast.tokens := tokens })

def endProduction (p : Parser) (rule : String) (body : List Symbol) (stop : Nat) : Parser :=
  if body.isEmpty then { p with deferred := p.deferred ++ [.point .emptyProduction stop] }
  else { p with ast := p.ast.addProduction rule body }

def parseTokens (p : Parser) (c : Cursor) : Except SourceError Cursor × Parser :=
  if c.atEnd || c.sees "%" then (.ok c, p)
  else
    match _hw : readWord c with
    | .error e => (.error e, p)
    | .ok (w, d) =>
      match _hb : skipBlanks true d with
      | .error e => (.error e, p.addToken w.lexeme)
      | .ok d' => parseTokens (p.addToken w.lexeme) d'
termination_by c.ahead.length
decreasing_by
  exact Nat.lt_of_le_of_lt (length_skipBlanks_le _hb) (length_readWord_lt _hw)

theorem length_parseTokens_le {p q : Parser} {c d : Cursor} (h : parseTokens p c = (.ok d, q)) :
    d.ahead.length ≤ c.ahead.length := by
  fun_induction parseTokens p c with
  | case1 p c hc =>
    cases h
    exact Nat.le_refl _
  | case2 p c hc e hw => cases h
  | case3 p c hc w d' hw e hb => cases h
  | case4 p c hc w d' hw d'' hb ih =>
    exact Nat.le_trans (ih h) (Nat.le_of_lt
      (Nat.lt_of_le_of_lt (length_skipBlanks_le hb) (length_readWord_lt hw)))

def parseDeclarations (p : Parser) (c : Cursor) : Except SourceError Cursor × Parser :=
  if c.atEnd then (.error (.point .prematureEnd (c.offset - 1)), p)
  else if c.sees "%%" then (.ok c, p)
  else if _hc : c.sees "%token" then
    match _hb : skipBlanks false (c.skip 6) with
    | .error e => (.error e, p)
    | .ok d =>
      match _ht : parseTokens p d with
      | (.error e, p') => (.error e, p')
      | (.ok d', p') => parseDeclarations p' d'
  else if _hc : c.sees "%start" then
    match _hb : skipBlanks false (c.skip 6) with
    | .error e => (.error e, p)
    | .ok d =>
      match _hn : readName d with
      | .error e => (.error e, p)
      | .ok (name, d') =>
        match _hb' : skipBlanks true d' with
        | .error e => (.error e, p.declareStart name)
        | .ok d'' => parseDeclarations (p.declareStart name) d''
  else (.error (.point .unknownDeclaration c.offset), p)
termination_by c.ahead.length
decreasing_by
  · have hne : c.ahead ≠ [] := by
      intro hnil
      simp [Cursor.sees, hnil] at _hc
    exact Nat.lt_of_le_of_lt (Nat.le_trans (length_parseTokens_le _ht) (length_skipBlanks_le _hb))
      (Cursor.length_skip_lt (by omega) hne)
  · exact Nat.lt_of_le_of_lt (length_skipBlanks_le _hb') (Nat.lt_of_lt_of_le
      (length_readName_lt _hn) (Nat.le_trans (length_skipBlanks_le _hb) (by
        rw [Cursor.length_skip]
        omega)))

/-- The alternatives of a rule from inside one of them, whose first symbols are `body`. -/
def parseAlternatives (p : Parser) (rule : String) (body : List Symbol) (c : Cursor) :
    Except SourceError Cursor × Parser :=
  if c.atEnd then (.error (.point .incompleteRule c.offset), p)
  else if _hc : c.sees "|" then
    match _hb : skipBlanks true (c.skip 1) with
    | .error e => (.error e, p.endProduction rule body c.offset)
    | .ok d => parseAlternatives (p.endProduction rule body c.offset) rule [] d
  else if c.sees ";" then (.ok (c.skip 1), p.endProduction rule body c.offset)
  else
    match _hw : readWord c with
    | .error e => (.error e, p)
    | .ok (w, d) =>
      match _hb : skipBlanks true d with
      | .error e => (.error e, (p.addWord w).2)
      | .ok d' => parseAlternatives (p.addWord w).2 rule (body ++ [(p.addWord w).1]) d'
termination_by c.ahead.length
decreasing_by
  · have hne : c.ahead ≠ [] := by
      intro hnil
      simp [Cursor.sees, hnil] at _hc
    exact Nat.lt_of_le_of_lt (length_skipBlanks_le _hb) (Cursor.length_skip_lt (by omega) hne)
  · exact Nat.lt_of_le_of_lt (length_skipBlanks_le _hb) (length_readWord_lt _hw)

theorem length_parseAlternatives_le {p q : Parser} {rule : String} {body : List Symbol}
    {c d : Cursor} (h : parseAlternatives p rule body c = (.ok d, q)) :
    d.ahead.length ≤ c.ahead.length := by
  fun_induction parseAlternatives p rule body c with
  | case1 p body c hend => cases h
  | case2 p body c hend hc e hb => cases h
  | case3 p body c hend hc d' hb ih =>
    refine Nat.le_trans (ih h) (Nat.le_trans (length_skipBlanks_le hb) ?_)
    rw [Cursor.length_skip]
    omega
  | case4 p body c hend hbar hc =>
    cases h
    rw [Cursor.length_skip]
    omega
  | case5 p body c hend hbar hc e hw => cases h
  | case6 p body c hend hbar hc w d' hw e hb => cases h
  | case7 p body c hend hbar hc w d' hw d'' hb ih =>
    exact Nat.le_trans (ih h) (Nat.le_of_lt
      (Nat.lt_of_le_of_lt (length_skipBlanks_le hb) (length_readWord_lt hw)))

def parseRule (p : Parser) (c : Cursor) : Except SourceError Cursor × Parser :=
  match readName c with
  | .error e => (.error e, p)
  | .ok (name, d) =>
    match skipBlanks true d with
    | .error e => (.error e, p.beginRule name)
    | .ok d' =>
      if d'.sees ":" then
        match skipBlanks true (d'.skip 1) with
        | .error e => (.error e, p.beginRule name)
        | .ok d'' => parseAlternatives (p.beginRule name) name.text [] d''
      else (.error (.point .missingColon d'.offset), p.beginRule name)

theorem length_parseRule_lt {p q : Parser} {c d : Cursor} (h : parseRule p c = (.ok d, q)) :
    d.ahead.length < c.ahead.length := by
  unfold parseRule at h
  split at h
  · cases h
  · next name d₁ hn =>
    split at h
    · cases h
    · next d₂ hb =>
      split at h
      · split at h
        · cases h
        · next d₃ hb' =>
          have h1 := length_parseAlternatives_le h
          have h2 := length_skipBlanks_le hb'
          have h3 := length_skipBlanks_le hb
          have h4 := length_readName_lt hn
          rw [Cursor.length_skip] at h2
          omega
      · cases h

def parseRules (p : Parser) (c : Cursor) : Except SourceError Cursor × Parser :=
  if c.atEnd || c.sees "%%" then (.ok c, p)
  else
    match _hr : parseRule p c with
    | (.error e, p') => (.error e, p')
    | (.ok d, p') =>
      match _hb : skipBlanks true d with
      | .error e => (.error e, p')
      | .ok d' => parseRules p' d'
termination_by c.ahead.length
decreasing_by
  exact Nat.lt_of_le_of_lt (length_skipBlanks_le _hb) (length_parseRule_lt _hr)

def parseSection (p : Parser) (c : Cursor) : Except SourceError Cursor × Parser :=
  if c.sees "%%" then
    match skipBlanks true (c.skip 2) with
    | .error e => (.error e, p)
    | .ok d =>
      match parseRules p d with
      | (.error e, p') => (.error e, p')
      | (.ok d', p') => (readEnd d', p')
  else (.error (.point .prematureEnd c.offset), p)

def parseHead (p : Parser) (c : Cursor) : Except SourceError Cursor × Parser :=
  match skipBlanks true c with
  | .error e => (.error e, p)
  | .ok d => parseDeclarations p d

def duplicateErrors (p : Parser) : List SourceError :=
  match p.duplicates with
  | none => []
  | some (place, later) => [⟨.duplicateStart later, place⟩]

/-- What comes of reading the rules, `p` being the state in front of them. An error that stopped the
reading does not hide what was noted. -/
def report (p : Parser) : Except SourceError Cursor × Parser → Except (List SourceError) Ast
  | (.error e, p') => .error (p.duplicateErrors ++ p'.deferred ++ [e])
  | (.ok _, p') =>
    let errors := p.duplicateErrors ++ p'.deferred
    if errors.isEmpty then .ok p'.ast else .error errors

def parse (text : String) : Except (List SourceError) Ast :=
  match fresh.parseHead (Cursor.start text) with
  | (.error e, p) => .error (p.duplicateErrors ++ [e])
  | (.ok c, p) => p.report (p.parseSection c)

/-- Reads a grammar, or tells all that is wrong with its form, or else with its references. -/
def read (text : String) : Except (List SourceError) Ast :=
  match parse text with
  | .error errors => .error errors
  | .ok t => if t.validate.isEmpty then .ok t else .error t.validate

end Parser

end GrammarRepair
