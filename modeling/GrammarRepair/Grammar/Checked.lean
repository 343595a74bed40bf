import GrammarRepair.Grammar.OfSource
import GrammarRepair.NormalForm.Checked
import GrammarRepair.Source.Bytes

/-!
Grammars from their sources, checked from the first byte on: names that are numbered have to be
there, numbers have to be those of rules and tokens, the grammar has to accept its parts, and the
loops that look for useful rules have to be done in time.
-/

namespace GrammarRepair

namespace Checked

def numberBody (nf : NormalForm) : NormalForm.NamedBody → Checked Body
  | .pair b c => do pure (.pair (← place nf.ruleNames b) (← place nf.ruleNames c))
  | .token t => do pure (.token (← place nf.tokenNames t))

def numberRule (nf : NormalForm) (rule : String × List NormalForm.NamedBody) :
    Checked (List Production) :=
  rule.2.mapM fun body => do
    let numbered ← numberBody nf body
    pure ⟨← place nf.ruleNames rule.1, numbered⟩

def withSpans (g : Grammar) (ruleSpans tokenSpans : Array (Option Span)) : Checked Grammar :=
  if h : ruleSpans.size = g.ruleNames.size ∧ tokenSpans.size = g.tokenNames.size then
    .ok (g.withSpans ruleSpans tokenSpans h.1 h.2)
  else .error .badShape

def number (nf : NormalForm) (w : Width) : Checked (Except Fault Grammar) :=
  match nf.overfull? w with
  | some what => pure (.error (.overfull what))
  | none => do
    let productions ← nf.rules.mapM (numberRule nf)
    let start ← place nf.ruleNames nf.start
    let g ← accepted (Grammar.ofParts w nf.ruleNames start nf.tokenNames productions.flatten)
    let g ← withSpans g nf.ruleSpans.toArray (nf.tokens.map fun t => some t.span).toArray
    pure (.ok g)

def mark (g : Grammar) (marked : NatSet) (rule : Nat) : Checked Bool :=
  if rule < g.ruleCount then .ok (marked.has rule) else .error (.noEntry rule)

def completes (g : Grammar) (marked : NatSet) : Body → Checked Bool
  | .pair b c => do
    let left ← mark g marked b
    let right ← mark g marked c
    pure (left && right)
  | .token _ => pure true

def markHead (g : Grammar) (marked : NatSet) (p : Production) : Checked NatSet := do
  let known ← mark g marked p.head
  if known then pure marked
  else
    let able ← completes g marked p.body
    pure (if able then marked.insert p.head else marked)

def generating (g : Grammar) : Checked NatSet :=
  settle (fun marked => g.productions.toList.foldlM (markHead g) marked) (g.ruleCount + 1) .empty

def neighbours (g : Grammar) (generating : NatSet) (rule : Nat) : Checked (List Nat) := do
  let pairs ← entry g.tables.pairsOf rule
  let next ← pairs.toList.mapM fun (b, c) => do
    let able ← completes g generating (.pair b c)
    pure (if able then [b, c] else [])
  pure next.flatten

def usefulness (g : Grammar) : Checked Usefulness := do
  let generating ← generating g
  let reachable ← explore (neighbours g generating) g.ruleCount [g.start]
  pure ⟨generating, .ofList reachable⟩

def isUseful (g : Grammar) (u : Usefulness) (rule : Nat) : Checked Bool := do
  let generating ← mark g u.generating rule
  let reachable ← mark g u.reachable rule
  pure (generating && reachable)

def pruneProduction (g : Grammar) (u : Usefulness) (r : Renumbering) (p : Production) :
    Checked (Option Production) := do
  let head ← entry r.table p.head
  match p.body with
  | .token t => pure (head.map fun head => ⟨head, .token t⟩)
  | .pair b c =>
    let left ← isUseful g u b
    let right ← isUseful g u c
    let b ← entry r.table b
    let c ← entry r.table c
    pure (if left && right then do pure ⟨← head, .pair (← b) (← c)⟩ else none)

def prune (w : Width) (g : Grammar) : Checked Grammar := do
  let u ← usefulness g
  if u.all g.ruleCount then pure g
  else
    let r := g.keptRules u
    let names ← r.kept.toList.mapM (entry g.ruleNames)
    let spans ← r.kept.toList.mapM (entry g.ruleSpans)
    let productions ← g.productions.toList.mapM (pruneProduction g u r)
    let start ← entry r.table g.start
    let pruned ← accepted (Grammar.ofParts w names (start.getD 0) g.tokenNames.toList
      productions.reduceOption)
    withSpans pruned spans.toArray g.tokenSpans

def ofSource (w : Width) (text : String) : Checked (Except SourceFailure Grammar) := do
  match ← Bytes.read text with
  | .error errors => pure (.error (.rejected errors))
  | .ok written =>
    match ← number (← normalForm written) w with
    | .error fault => pure (.error (.fault fault))
    | .ok g => pure (.ok (← prune w g))

end Checked

end GrammarRepair
