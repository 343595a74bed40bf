import GrammarRepair.Source.Bytes

/-!
Line and column of a byte by scans of the text before it. One scan counts the line breaks, one finds
the last of them, and one counts the characters behind it; the text is cut at offsets twice, and both
cuts are checked.
-/

namespace GrammarRepair

namespace Bytes

def lastLineBreak? : List Char → Option Nat
  | [] => none
  | c :: cs =>
    match lastLineBreak? cs with
    | some i => some (c.utf8Size + i)
    | none => if c = '\n' then some 0 else none

/-- Line and column of a span's start. A line break takes one byte. -/
def position (text : String) (s : Span) : Checked (Nat × Nat) := do
  let before ← slice text 0 s.start
  let line := before.count '\n' + 1
  match lastLineBreak? before with
  | some i => pure (line, (← sliceFrom (String.ofList before) (i + 1)).length + 1)
  | none => pure (line, before.length + 1)

end Bytes

end GrammarRepair
