import GrammarRepair.Checked
import GrammarRepair.Source.Written

/-!
The reading of a grammar source by byte offsets. Offsets are advanced by sums of lengths in bytes, and
the text is cut at them; every cut is checked, and so is every loop for having moved on.
-/

namespace GrammarRepair

namespace Bytes

open Source

def sliceFrom (text : String) (i : Nat) : Checked (List Char) :=
  match charsBefore? i text.toList with
  | some before => .ok (text.toList.drop before.length)
  | none => .error (.badSlice i text.utf8ByteSize)

def slice (text : String) (i j : Nat) : Checked (List Char) := do
  let ahead ← sliceFrom text i
  match charsBefore? (j - i) ahead with
  | some cs => if i ≤ j then pure cs else .error (.badSlice i j)
  | none => .error (.badSlice i j)

def lexeme (text : String) (i j : Nat) : Checked Lexeme :=
  if h : i ≤ j then do
    let cs ← slice text i j
    pure ⟨String.ofList cs, i, j, h⟩
  else .error (.badSlice i j)

def lookahead (text word : String) (i : Nat) : Checked (Option Nat) := do
  let ahead ← sliceFrom text i
  pure (if word.toList.isPrefixOf ahead then some (i + word.utf8ByteSize) else none)

/-- The offset behind the line break that comes next, or behind the text. -/
def afterLine : Nat → List Char → Nat
  | i, [] => i
  | i, c :: cs => if isBreak c then i + c.utf8Size else afterLine (i + c.utf8Size) cs

def commentBytes? : List Char → Option Nat
  | [] => none
  | '*' :: '/' :: _ => some 0
  | c :: cs => (commentBytes? cs).map (c.utf8Size + ·)

def afterComment (text : String) (breaks : Bool) (i : Nat) :
    Checked (Except SourceError (Option Nat)) := do
  match commentBytes? (← sliceFrom text (i + 2)) with
  | none => pure (.error (.point .incompleteComment i))
  | some n =>
    let body ← slice text (i + 2) (i + 2 + n)
    if !breaks && body.any isBreak then pure (.error (.point .reachedEndOfLine i))
    else pure (.ok (some (i + (2 + n + 2))))

def afterBlank (text : String) (breaks : Bool) (i : Nat) :
    Checked (Except SourceError (Option Nat)) := do
  match ← sliceFrom text i with
  | [] => .error (.noCharacter i)
  | c :: _ =>
    if c == ' ' || c == '\t' then pure (.ok (some (i + c.utf8Size)))
    else if isBreak c then
      if breaks then pure (.ok (some (i + c.utf8Size)))
      else pure (.error (.point .reachedEndOfLine i))
    else if c == '/' then
      match ← lookahead text "//" i with
      | some _ => pure (.ok (some (afterLine (i + 2) (← sliceFrom text (i + 2)))))
      | none =>
        match ← lookahead text "/*" i with
        | some _ => afterComment text breaks i
        | none => pure (.ok none)
    else pure (.ok none)

def skipBlanks (text : String) (breaks : Bool) (i : Nat) : Checked (Except SourceError Nat) :=
  if _hi : i < text.utf8ByteSize then do
    match ← afterBlank text breaks i with
    | .error e => pure (.error e)
    | .ok none => pure (.ok i)
    | .ok (some j) =>
      if _hj : i < j then skipBlanks text breaks j else .error (.noProgress i)
  else pure (.ok i)
termination_by text.utf8ByteSize - i

def readName (text : String) (i : Nat) : Checked (Except SourceError (Lexeme × Nat)) := do
  let ahead ← sliceFrom text i
  match nameLength ahead with
  | 0 => pure (.error (.point .illegalName i))
  | n + 1 =>
    let stop := i + byteLength (ahead.take (n + 1))
    pure (.ok (← lexeme text i stop, stop))

/-- How many characters the word ahead has, its quotes included. -/
def wordLength? : List Char → Option Nat
  | [] => none
  | q :: cs =>
    if isQuote q then (quotedLength? q cs).map (· + 2)
    else if bareLength (q :: cs) = 0 then none else some (bareLength (q :: cs))

/-- The quotes of a word are one byte each, and are left out. -/
def readWord (text : String) (i : Nat) : Checked (Except SourceError (Word × Nat)) := do
  let ahead ← sliceFrom text i
  match wordLength? ahead with
  | none => pure (.error (.point .illegalString i))
  | some n =>
    let stop := i + byteLength (ahead.take n)
    if ahead.head?.any isQuote then pure (.ok (⟨← lexeme text (i + 1) (stop - 1), true⟩, stop))
    else pure (.ok (⟨← lexeme text i stop, false⟩, stop))

def readTokens (text : String) (i : Nat) : Checked (List Lexeme × Except SourceError Nat) :=
  if _hi : i < text.utf8ByteSize then do
    match ← lookahead text "%" i with
    | some _ => pure ([], .ok i)
    | none =>
      match ← readWord text i with
      | .error e => pure ([], .error e)
      | .ok (w, j) =>
        match ← skipBlanks text true j with
        | .error e => pure ([w.lexeme], .error e)
        | .ok k =>
          if _hk : i < k then do
            let (names, outcome) ← readTokens text k
            pure (w.lexeme :: names, outcome)
          else .error (.noProgress i)
  else pure ([], .ok i)
termination_by text.utf8ByteSize - i

/-- All declarations; at the end of the text the error steps back by one byte. -/
def readDeclarations (text : String) (i : Nat) :
    Checked (List Declaration × Except SourceError Nat) :=
  if _hi : i < text.utf8ByteSize then do
    match ← lookahead text "%%" i with
    | some _ => pure ([], .ok i)
    | none =>
      match ← lookahead text "%token" i with
      | some j =>
        match ← skipBlanks text false j with
        | .error e => pure ([], .error e)
        | .ok k =>
          match ← readTokens text k with
          | (names, .error e) => pure ([.tokens names], .error e)
          | (names, .ok l) =>
            if _hl : i < l then do
              let (rest, outcome) ← readDeclarations text l
              pure (.tokens names :: rest, outcome)
            else .error (.noProgress i)
      | none =>
        match ← lookahead text "%start" i with
        | some j =>
          match ← skipBlanks text false j with
          | .error e => pure ([], .error e)
          | .ok k =>
            match ← readName text k with
            | .error e => pure ([], .error e)
            | .ok (name, l) =>
              match ← skipBlanks text true l with
              | .error e => pure ([.start name], .error e)
              | .ok m =>
                if _hm : i < m then do
                  let (rest, outcome) ← readDeclarations text m
                  pure (.start name :: rest, outcome)
                else .error (.noProgress i)
        | none => pure ([], .error (.point .unknownDeclaration i))
  else pure ([], .error (.point .prematureEnd (i - 1)))
termination_by text.utf8ByteSize - i

def readAlternatives (text : String) (soFar : List Word) (i : Nat) :
    Checked (List Alternative × Except SourceError Nat) :=
  if _hi : i < text.utf8ByteSize then do
    match ← lookahead text "|" i with
    | some j =>
      match ← skipBlanks text true j with
      | .error e => pure ([⟨soFar, i⟩], .error e)
      | .ok k =>
        if _hk : i < k then do
          let (rest, outcome) ← readAlternatives text [] k
          pure (⟨soFar, i⟩ :: rest, outcome)
        else .error (.noProgress i)
    | none =>
      match ← lookahead text ";" i with
      | some j => pure ([⟨soFar, i⟩], .ok j)
      | none =>
        match ← readWord text i with
        | .error e => pure ([], .error e)
        | .ok (w, j) =>
          match ← skipBlanks text true j with
          | .error e => pure ([], .error e)
          | .ok k =>
            if _hk : i < k then readAlternatives text (soFar ++ [w]) k else .error (.noProgress i)
  else pure ([], .error (.point .incompleteRule i))
termination_by text.utf8ByteSize - i

def readDefinition (text : String) (i : Nat) :
    Checked (List Definition × Except SourceError Nat) := do
  match ← readName text i with
  | .error e => pure ([], .error e)
  | .ok (name, j) =>
    match ← skipBlanks text true j with
    | .error e => pure ([⟨name, []⟩], .error e)
    | .ok k =>
      match ← lookahead text ":" k with
      | none => pure ([⟨name, []⟩], .error (.point .missingColon k))
      | some l =>
        match ← skipBlanks text true l with
        | .error e => pure ([⟨name, []⟩], .error e)
        | .ok m =>
          let (alts, outcome) ← readAlternatives text [] m
          pure ([⟨name, alts⟩], outcome)

def readDefinitions (text : String) (i : Nat) :
    Checked (List Definition × Except SourceError Nat) :=
  if _hi : i < text.utf8ByteSize then do
    match ← lookahead text "%%" i with
    | some _ => pure ([], .ok i)
    | none =>
      match ← readDefinition text i with
      | (defs, .error e) => pure (defs, .error e)
      | (defs, .ok j) =>
        match ← skipBlanks text true j with
        | .error e => pure (defs, .error e)
        | .ok k =>
          if _hk : i < k then do
            let (rest, outcome) ← readDefinitions text k
            pure (defs ++ rest, outcome)
          else .error (.noProgress i)
  else pure ([], .ok i)
termination_by text.utf8ByteSize - i

def readEnd (text : String) (i : Nat) : Checked (Except SourceError Nat) := do
  match ← lookahead text "%%" i with
  | none => pure (.ok i)
  | some j =>
    match ← skipBlanks text true j with
    | .error e => pure (.error e)
    | .ok k =>
      if k < text.utf8ByteSize then pure (.error (.point .programsNotSupported k)) else pure (.ok k)

/-- The rules section; it begins with the `%%` that ended the declarations. -/
def readRules (text : String) (declarations : List Declaration) (i : Nat) : Checked Sheet := do
  match ← lookahead text "%%" i with
  | none => pure ⟨declarations, [], some (.point .prematureEnd i)⟩
  | some j =>
    match ← skipBlanks text true j with
    | .error e => pure ⟨declarations, [], some e⟩
    | .ok k =>
      match ← readDefinitions text k with
      | (defs, .error e) => pure ⟨declarations, defs, some e⟩
      | (defs, .ok l) =>
        match ← readEnd text l with
        | .error e => pure ⟨declarations, defs, some e⟩
        | .ok _ => pure ⟨declarations, defs, none⟩

def readSheet (text : String) : Checked Sheet := do
  match ← skipBlanks text true 0 with
  | .error e => pure ⟨[], [], some e⟩
  | .ok i =>
    match ← readDeclarations text i with
    | (declarations, .error e) => pure ⟨declarations, [], some e⟩
    | (declarations, .ok j) => readRules text declarations j

def read (text : String) : Checked (Except (List SourceError) Written) := do
  let sheet ← readSheet text
  if sheet.errors.isEmpty then
    let g := Written.ofSheet sheet
    pure (if g.errors.isEmpty then .ok g else .error g.errors)
  else pure (.error sheet.errors)

end Bytes

end GrammarRepair
