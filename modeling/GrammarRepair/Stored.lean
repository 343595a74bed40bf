import GrammarRepair.Grammar.OfSource
import GrammarRepair.Intersection.ToGrammar

/-!
Grammars as they are stored. Wherever an index is made, it is cut down to the bits of its width, and
nobody is told: when names are numbered, when productions are entered into the tables, when rules and
productions are counted, when rules get new numbers, and when the nonterminals of an intersection move
up by one. Only the sizes of what is put together are checked, and some of them after the cut.
-/

namespace GrammarRepair

def Width.store (w : Width) (n : Nat) : Nat := n % (1 <<< w.bits)

def Width.indices (w : Width) (size : Nat) : List Nat := (List.range size).map w.store

/-- The entries of an array, each looked up by its index as it is cut down. -/
def Width.listed {α : Type} (w : Width) (xs : Array α) : List α :=
  (w.indices xs.size).filterMap fun i => xs[i]?

/-- The data of a grammar, of which nothing is known. -/
structure StoredGrammar where
  ruleNames : Array String
  ruleSpans : Array (Option Span)
  start : Nat
  tokenNames : Array String
  tokenSpans : Array (Option Span)
  productions : Array Production
  tables : Tables
  deriving DecidableEq, Repr

def Grammar.stored (g : Grammar) : StoredGrammar where
  ruleNames := g.ruleNames
  ruleSpans := g.ruleSpans
  start := g.start
  tokenNames := g.tokenNames
  tokenSpans := g.tokenSpans
  productions := g.productions
  tables := g.tables

namespace StoredGrammar

variable (w : Width)

def tablesOf (rules tokens : Nat) (productions : List Production) : Tables :=
  (productions.zipIdx.map fun p => (p.1, w.store p.2)).foldl Tables.enter
    ⟨Array.replicate rules #[], Array.replicate rules #[], #[], Array.replicate tokens #[]⟩

def ofParts (ruleNames : List String) (start : Nat) (tokenNames : List String)
    (productions : List Production) : Except Fault StoredGrammar :=
  (Grammar.ofParts w ruleNames start tokenNames productions).map fun g =>
    { g.stored with tables := tablesOf w ruleNames.length tokenNames.length productions }

def ruleCount (s : StoredGrammar) : Nat := w.store s.ruleNames.size

def generating (s : StoredGrammar) : NatSet :=
  settle (fun marked => (w.listed s.productions).foldl
      (fun m p => if Grammar.completes m p.body then m.insert p.head else m) marked)
    (s.ruleCount w + 1) .empty

def parts? (s : StoredGrammar) (production : Nat) : Option (Nat × Nat) :=
  match s.productions[production]? with
  | some ⟨_, .pair b c⟩ => some (b, c)
  | _ => none

def neighbours (s : StoredGrammar) (generating : NatSet) (rule : Nat) : List Nat :=
  ((s.tables.productionsOf.getD rule #[]).toList.filterMap s.parts?).flatMap fun (b, c) =>
    if generating.has b && generating.has c then [b, c] else []

def usefulness (s : StoredGrammar) : Usefulness :=
  let generating := s.generating w
  { generating
    reachable := .ofList (explore (s.neighbours generating) (s.ruleCount w) [s.start]) }

def keepStep (keep : Nat → Bool) (r : Renumbering) (rule : Nat) : Renumbering :=
  if keep rule then
    ⟨r.kept.push rule, r.table.setIfInBounds rule (some (w.store r.kept.size))⟩
  else r

def keptRules (s : StoredGrammar) (u : Usefulness) : Renumbering :=
  (w.indices s.ruleNames.size).foldl
    (keepStep w fun rule => rule == s.start || u.isUseful rule)
    ⟨#[], Array.replicate (s.ruleCount w) none⟩

def prune (s : StoredGrammar) : Except Fault StoredGrammar :=
  let u := s.usefulness w
  if u.all (s.ruleCount w) then .ok s
  else
    let r := s.keptRules w u
    (ofParts w (r.kept.toList.map fun rule => s.ruleNames.getD rule "") ((r.new? s.start).getD 0)
        s.tokenNames.toList ((w.listed s.productions).filterMap (Grammar.pruneProduction? u r))).map
      fun pruned =>
        { pruned with
          ruleSpans := r.kept.map fun rule => s.ruleSpans.getD rule none
          tokenSpans := s.tokenSpans }

def numberBody (nf : NormalForm) : NormalForm.NamedBody → Body
  | .pair b c => .pair (w.store (nf.ruleNames.idxOf b)) (w.store (nf.ruleNames.idxOf c))
  | .token t => .token (w.store (nf.tokenNames.idxOf t))

def numberRule (nf : NormalForm) (rule : String × List NormalForm.NamedBody) : List Production :=
  rule.2.map fun body => ⟨w.store (nf.ruleNames.idxOf rule.1), numberBody w nf body⟩

def number (nf : NormalForm) : Except Fault StoredGrammar :=
  match nf.overfull? w with
  | some what => .error (.overfull what)
  | none =>
    (ofParts w nf.ruleNames (w.store (nf.ruleNames.idxOf nf.start)) nf.tokenNames
        (nf.rules.flatMap (numberRule w nf))).map fun s =>
      { s with
        ruleSpans := nf.ruleSpans.toArray
        tokenSpans := (nf.tokens.map fun t => some t.span).toArray }

def ofSource (text : String) : Except SourceFailure StoredGrammar :=
  match Written.read text with
  | .error errors => .error (.rejected errors)
  | .ok written =>
    ((number w (NormalForm.ofWritten written)).bind (prune w)).mapError .fault

section

variable (ig : Intersection)

def bodyProductions : List Production :=
  ig.pairs.toList.map
      (fun (x, y, z) => ⟨w.store (x + 1), .pair (w.store (y + 1)) (w.store (z + 1))⟩) ++
    ig.terminals.toList.map fun (x, t) => ⟨w.store (x + 1), .token t⟩

def startProductions : List Production :=
  ig.starts.flatMap fun x =>
    ((bodyProductions w ig).filter (·.head == w.store (x + 1))).map fun p => ⟨0, p.body⟩

def ofIntersection (g : Grammar) : Except Fault StoredGrammar :=
  (ofParts w ("^" :: (List.range ig.nonterminals.size).map (ig.name g)) 0 (w.listed g.tokenNames)
    (startProductions w ig ++ bodyProductions w ig)).bind (prune w)

end

end StoredGrammar

end GrammarRepair
