import GrammarRepair.NormalForm.Table

/-!
Grammars apart from their layout. An outline lists what a source declares and defines; its pieces are
the marks and words that stand on the page, and it is rendered by every text that has these pieces in
their order with any blanks between them.
-/

namespace GrammarRepair

inductive Spelling
  | bare (name : String)
  | quoted (quote : Char) (text : String)
  deriving DecidableEq, Repr

namespace Spelling

def text : Spelling → String
  | bare name => name
  | quoted _ text => text

def isQuoted : Spelling → Bool
  | bare _ => false
  | quoted _ _ => true

def chars : Spelling → List Char
  | bare name => name.toList
  | quoted q text => q :: (text.toList ++ [q])

end Spelling

namespace Outline

inductive Item
  | rule (name : String)
  | token (spelling : Spelling)
  deriving DecidableEq, Repr

inductive Header
  | tokens (spellings : List Spelling)
  | start (name : String)
  deriving DecidableEq, Repr

/-- One definition of a rule; it has at least one alternative. -/
structure Clause where
  name : String
  first : List Item
  more : List (List Item)
  deriving DecidableEq, Repr

def Clause.bodies (c : Clause) : List (List Item) := c.first :: c.more

namespace Item

/-- A rule is written as a bare word too. -/
def spelling : Item → Spelling
  | rule name => .bare name
  | token spelling => spelling

def tokenText? : Item → Option String
  | rule _ => none
  | token spelling => some spelling.text

def sym : Item → NormalForm.Sym
  | rule name => .rule name
  | token spelling => .token spelling.text

end Item

end Outline

structure Outline where
  headers : List Outline.Header
  clauses : List Outline.Clause
  closed : Bool
  deriving DecidableEq, Repr

namespace Outline

def starts (o : Outline) : List String :=
  o.headers.filterMap fun
    | .start name => some name
    | .tokens _ => none

def declared (o : Outline) : List String :=
  o.headers.flatMap fun
    | .start _ => []
    | .tokens spellings => spellings.map (·.text)

def Clause.items (c : Clause) : List Item := c.bodies.flatten

def items (o : Outline) : List Item := o.clauses.flatMap (·.items)

/-- The texts of all tokens, repetitions included: those declared, then those in the rules. -/
def tokenTexts (o : Outline) : List String := o.declared ++ o.items.filterMap Item.tokenText?

/-- The start rule is the one declared, or else the first one. -/
def start (o : Outline) : Option String := o.starts.head? <|> o.clauses.head?.map (·.name)

/-- The rules in order of first definition, each with the productions of all its clauses. -/
def table (o : Outline) : NormalForm.Table :=
  (distinct (o.clauses.map (·.name))).map fun name =>
    ⟨name, (o.clauses.filter (·.name == name)).flatMap (·.bodies.map (·.map Item.sym))⟩

inductive Piece
  | tokens
  | start
  | rules
  | colon
  | bar
  | semicolon
  | word (spelling : Spelling)
  deriving DecidableEq, Repr

namespace Piece

def chars : Piece → List Char
  | tokens => "%token".toList
  | start => "%start".toList
  | rules => "%%".toList
  | colon => ":".toList
  | bar => "|".toList
  | semicolon => ";".toList
  | word spelling => spelling.chars

/-- Two bare words must be kept apart. -/
def isBare : Piece → Bool
  | word (.bare _) => true
  | _ => false

/-- A declaration begins on the line of its keyword. -/
def allowsBreak : Piece → Bool
  | tokens => false
  | start => false
  | _ => true

end Piece

def Header.pieces : Header → List Piece
  | .tokens spellings => .tokens :: spellings.map .word
  | .start name => [.start, .word (.bare name)]

def bodyPieces (body : List Item) : List Piece := body.map (.word ·.spelling)

def morePieces : List (List Item) → List Piece
  | [] => [.semicolon]
  | body :: more => .bar :: (bodyPieces body ++ morePieces more)

def Clause.pieces (c : Clause) : List Piece :=
  .word (.bare c.name) :: .colon :: (bodyPieces c.first ++ morePieces c.more)

def closing (closed : Bool) : List Piece := if closed then [.rules] else []

def pieces (o : Outline) : List Piece :=
  o.headers.flatMap (·.pieces) ++ .rules :: (o.clauses.flatMap (·.pieces) ++ closing o.closed)

open Source

/-- One blank. Where line breaks are refused, a line comment still takes its own along. -/
inductive Blank (breaks : Bool) : List Char → Prop
  | space : Blank breaks [' ']
  | tab : Blank breaks ['\t']
  | lineBreak {c : Char} (hc : isBreak c = true) (hbreaks : breaks = true) : Blank breaks [c]
  | line {body : List Char} {c : Char} (hbody : body.any isBreak = false)
      (hc : isBreak c = true) : Blank breaks ('/' :: '/' :: (body ++ [c]))
  | block {body : List Char} (hbody : ¬ ['*', '/'] <:+: body)
      (hbreaks : breaks = true ∨ body.any isBreak = false) :
      Blank breaks ('/' :: '*' :: (body ++ ['*', '/']))

inductive Gap (breaks : Bool) : List Char → Prop
  | nil : Gap breaks []
  | cons {blank gap : List Char} (hblank : Blank breaks blank) (hgap : Gap breaks gap) :
      Gap breaks (blank ++ gap)

/-- The pieces in their order with a gap behind each, which is not empty between bare words. -/
inductive Rendered : List Piece → List Char → Prop
  | nil : Rendered [] []
  | cons {p : Piece} {ps : List Piece} {gap rest : List Char} (hgap : Gap p.allowsBreak gap)
      (hapart : p.isBare = true → ps.head?.any Piece.isBare = true → gap ≠ [])
      (hrest : Rendered ps rest) : Rendered (p :: ps) (p.chars ++ (gap ++ rest))

def IsRendering (o : Outline) (text : String) : Prop :=
  ∃ gap rest, text.toList = gap ++ rest ∧ Gap true gap ∧ Rendered o.pieces rest

def isBareName (name : String) : Bool :=
  match name.toList with
  | [] => false
  | c :: cs => isTokenStart c && cs.all isTokenChar

end Outline

/-- A quoted text is not empty and has neither line feeds nor its own quote in it. -/
def Spelling.isWritable : Spelling → Bool
  | .bare name => Outline.isBareName name
  | .quoted q text =>
    Source.isQuote q && !text.toList.isEmpty && text.toList.all fun c => c != q && c != '\n'

namespace Outline

def Piece.isWritable : Piece → Bool
  | .word spelling => spelling.isWritable
  | _ => true

structure WellFormed (o : Outline) : Prop where
  writable : ∀ p ∈ o.pieces, p.isWritable = true
  start_unique : o.starts.length ≤ 1
  nonempty : ∀ c ∈ o.clauses, ∀ body ∈ c.bodies, body ≠ []
  bare_declared : ∀ name, .token (.bare name) ∈ o.items → name ∈ o.declared
  rule_apart : ∀ name, .rule name ∈ o.items → name ∉ o.tokenTexts

end Outline

end GrammarRepair
