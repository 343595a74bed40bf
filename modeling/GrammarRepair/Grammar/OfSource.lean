import GrammarRepair.Grammar.Prune
import GrammarRepair.NormalForm.Unit

/-!
Grammars from their sources: reading, normal form, numbering and pruning.
-/

namespace GrammarRepair

/-- A source is wrong, or it is right and its grammar cannot be numbered. -/
inductive SourceFailure
  | rejected (errors : List SourceError)
  | fault (fault : Fault)
  deriving DecidableEq, Repr

namespace NormalForm

def ruleNames (nf : NormalForm) : List String := nf.rules.map (·.1)

def tokenNames (nf : NormalForm) : List String := nf.tokens.map (·.text)

def numberBody (nf : NormalForm) : NamedBody → Body
  | .pair b c => .pair (nf.ruleNames.idxOf b) (nf.ruleNames.idxOf c)
  | .token t => .token (nf.tokenNames.idxOf t)

/-- All productions, rule by rule. -/
def productions (nf : NormalForm) : List Production :=
  nf.rules.zipIdx.flatMap fun (rule, i) => rule.2.map fun body => ⟨i, nf.numberBody body⟩

def overfull? (nf : NormalForm) (w : Width) : Option Overfull :=
  if w.maxIndex < nf.rules.length then some .rules
  else if w.maxIndex < nf.tokens.length then some .tokens
  else if w.maxIndex < nf.productions.length then some .productions
  else none

def ruleSpans (nf : NormalForm) : List (Option Span) :=
  nf.rules.map fun rule => (nf.written.find? (·.text == rule.1)).map (·.span)

/-- The grammar of a normal form, before pruning. -/
def number (nf : NormalForm) (w : Width) : Except Fault Grammar :=
  match nf.overfull? w with
  | some what => .error (.overfull what)
  | none =>
    match h : Grammar.ofParts w nf.ruleNames (nf.ruleNames.idxOf nf.start) nf.tokenNames
        nf.productions with
    | .error fault => .error fault
    | .ok g =>
      .ok (g.withSpans nf.ruleSpans.toArray (nf.tokens.map fun t => some t.span).toArray
        (by simp [(Grammar.names_of_ofParts h).1, ruleNames, ruleSpans])
        (by simp [(Grammar.names_of_ofParts h).2.1, tokenNames]))

end NormalForm

namespace Grammar

/-- The grammar of a source, in binary normal form and without useless rules. -/
def ofSource (w : Width) (text : String) : Except SourceFailure Grammar :=
  match Written.read text with
  | .error errors => .error (.rejected errors)
  | .ok written =>
    match (NormalForm.ofWritten written).number w with
    | .error fault => .error (.fault fault)
    | .ok g => .ok g.prune

end Grammar

end GrammarRepair
