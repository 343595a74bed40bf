import GrammarRepair.MapState
import GrammarRepair.Roster
import GrammarRepair.Source.Sheet

/-!
A grammar as its author wrote it: every word of an alternative is known to be a rule or a token,
definitions of one rule are merged, and a start rule is chosen. Productions have any length.
-/

namespace GrammarRepair

inductive Symbol
  | rule (name : Lexeme)
  | token (name : Lexeme)
  deriving DecidableEq, Repr

structure WrittenRule where
  name : Lexeme
  bodies : List (List Symbol)
  deriving DecidableEq, Repr

/-- Tokens and rules stand where they first occur. -/
structure Written where
  start : Option Lexeme
  tokens : List Lexeme
  rules : List WrittenRule
  deriving DecidableEq, Repr

namespace Written

def addToken (tokens : List Lexeme) (name : Lexeme) : List Lexeme :=
  if tokens.any (·.text == name.text) then tokens else tokens ++ [name]

/-- A quoted word is a token and makes its text known as one. A bare word is a token if its text is
known as one already, and a rule otherwise. -/
def symbolOf (w : Word) (tokens : List Lexeme) : Symbol × List Lexeme :=
  if w.quoted then (.token w.lexeme, addToken tokens w.lexeme)
  else if tokens.any (·.text == w.lexeme.text) then (.token w.lexeme, tokens)
  else (.rule w.lexeme, tokens)

def bodyOf (a : Alternative) (tokens : List Lexeme) : List Symbol × List Lexeme :=
  mapState symbolOf a.words tokens

/-- The bodies of one definition; alternatives without words have none. -/
def ruleOf (d : Definition) (tokens : List Lexeme) : WrittenRule × List Lexeme :=
  let (bodies, tokens) := mapState bodyOf (d.alternatives.filter (!·.words.isEmpty)) tokens
  (⟨d.name, bodies⟩, tokens)

/-- Merges the definitions of each rule, in order of first definition. -/
def merge (rules : List WrittenRule) : List WrittenRule :=
  (distinct (rules.map (·.name.text))).filterMap fun text =>
    (rules.find? (·.name.text == text)).map fun first =>
      ⟨first.name, (rules.filter (·.name.text == text)).flatMap (·.bodies)⟩

/-- The start rule is the one declared first, or else the one defined first. -/
def ofSheet (s : Sheet) : Written :=
  let (rules, tokens) := mapState ruleOf s.definitions (s.declared.foldl addToken [])
  { start := s.starts.head? <|> s.definitions.head?.map (·.name)
    tokens := tokens
    rules := merge rules }

def hasRule (g : Written) (text : String) : Bool := g.rules.any (·.name.text == text)

def startErrors (g : Written) : List SourceError :=
  match g.start with
  | none => [.point .noStartRule 0]
  | some name => if g.hasRule name.text then [] else [⟨.invalidStartRule name.text, name.span⟩]

/-- One error for every occurrence of a rule that is defined nowhere. -/
def unknownRules (g : Written) : List SourceError :=
  (g.rules.flatMap (·.bodies.flatten)).filterMap fun
    | .token _ => none
    | .rule name =>
      if g.hasRule name.text then none else some ⟨.unknownRule name.text, name.span⟩

def errors (g : Written) : List SourceError := g.startErrors ++ g.unknownRules

def read (text : String) : Except (List SourceError) Written :=
  let sheet := Sheet.read text
  if sheet.errors.isEmpty then
    let g := ofSheet sheet
    if g.errors.isEmpty then .ok g else .error g.errors
  else .error sheet.errors

end Written

end GrammarRepair
