import GrammarRepair.Span

/-!
What can be wrong with a grammar source, and where.
-/

namespace GrammarRepair

/-- A duplicate start carries the spans of all declarations after the first. Empty productions are
errors, since binary normal form has no way to express the empty string. -/
inductive SourceError.Kind
  | illegalName
  | illegalString
  | incompleteRule
  | incompleteComment
  | missingColon
  | prematureEnd
  | programsNotSupported
  | unknownDeclaration
  | reachedEndOfLine
  | duplicateStart (later : List Span)
  | noStartRule
  | invalidStartRule (name : String)
  | unknownRule (name : String)
  | emptyProduction
  deriving DecidableEq, Repr

structure SourceError where
  kind : SourceError.Kind
  span : Span
  deriving DecidableEq, Repr

namespace SourceError

def point (kind : Kind) (offset : Nat) : SourceError := ⟨kind, Span.point offset⟩

def Kind.message : Kind → String
  | illegalName => "Illegal name"
  | illegalString => "Illegal string"
  | incompleteRule => "Incomplete rule"
  | incompleteComment => "Incomplete comment"
  | missingColon => "Missing ':'"
  | prematureEnd => "File ends prematurely"
  | programsNotSupported => "Programs not supported"
  | unknownDeclaration => "Unknown declaration"
  | reachedEndOfLine => "Reached end of line without finding expected content"
  | duplicateStart _ => "Duplicated %start declaration"
  | noStartRule => "No start rule specified"
  | invalidStartRule name => "Start rule '" ++ name ++ "' does not appear in grammar"
  | unknownRule name => "Unknown reference to rule '" ++ name ++ "'"
  | emptyProduction => "Empty productions are not supported"

end SourceError

end GrammarRepair
