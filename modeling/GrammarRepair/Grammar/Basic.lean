import GrammarRepair.Roster
import GrammarRepair.Span
import GrammarRepair.Width

/-!
Grammars in binary normal form. Rules, tokens and productions are numbers; every production is a
pair of rules or a single token. A grammar carries look-up tables, which say nothing but what its
productions say.
-/

namespace GrammarRepair

inductive Body
  | pair (left right : Nat)
  | token (token : Nat)
  deriving DecidableEq, Hashable, Repr

structure Production where
  head : Nat
  body : Body
  deriving DecidableEq, Hashable, Repr

namespace Production

def InRange (rules tokens : Nat) (p : Production) : Prop :=
  p.head < rules ∧
    match p.body with
    | .pair b c => b < rules ∧ c < rules
    | .token t => t < tokens

def fault? (rules tokens : Nat) (p : Production) : Option Fault :=
  if rules ≤ p.head then some .outOfRange
  else
    match p.body with
    | .pair b c => if rules ≤ b ∨ rules ≤ c then some .ruleOutOfRange else none
    | .token t => if tokens ≤ t then some .outOfRange else none

theorem fault?_eq_none_iff {rules tokens : Nat} {p : Production} :
    p.fault? rules tokens = none ↔ p.InRange rules tokens := by
  unfold fault? InRange
  by_cases h : rules ≤ p.head
  · simp only [if_pos h]
    constructor
    · intro h'
      cases h'
    · intro h'
      omega
  · simp only [if_neg h, show p.head < rules by omega, true_and]
    cases p.body with
    | pair b c =>
      simp only [ite_eq_right_iff, reduceCtorEq, imp_false]
      omega
    | token t =>
      simp only [ite_eq_right_iff, reduceCtorEq, imp_false]
      omega

end Production

/-- The productions of a grammar, sorted by what they are looked up for: the productions of each
rule by number, its pairs, all pairs with their heads, and the rules that produce each token. -/
structure Tables where
  productionsOf : Array (Array Nat)
  pairsOf : Array (Array (Nat × Nat))
  pairs : Array (Nat × Nat × Nat)
  rulesOf : Array (Array Nat)
  deriving DecidableEq, Repr

namespace Tables

def enter (t : Tables) (p : Production × Nat) : Tables :=
  let productionsOf := t.productionsOf.modify p.1.head (·.push p.2)
  match p.1.body with
  | .pair b c =>
    { t with
      productionsOf
      pairsOf := t.pairsOf.modify p.1.head (·.push (b, c))
      pairs := t.pairs.push (p.1.head, b, c) }
  | .token x =>
    { t with
      productionsOf
      rulesOf := t.rulesOf.modify x fun rules =>
        if rules.contains p.1.head then rules else rules.push p.1.head }

def ofProductions (rules tokens : Nat) (productions : List Production) : Tables :=
  productions.zipIdx.foldl enter
    ⟨Array.replicate rules #[], Array.replicate rules #[], #[], Array.replicate tokens #[]⟩

end Tables

/-- Spans are where the author wrote a name; fresh rules have none. -/
structure Grammar where
  ruleNames : Array String
  ruleSpans : Array (Option Span)
  start : Nat
  tokenNames : Array String
  tokenSpans : Array (Option Span)
  productions : Array Production
  tables : Tables
  nodup_ruleNames : ruleNames.toList.Nodup
  nodup_tokenNames : tokenNames.toList.Nodup
  size_ruleSpans : ruleSpans.size = ruleNames.size
  size_tokenSpans : tokenSpans.size = tokenNames.size
  start_lt : start < ruleNames.size
  inRange : ∀ p ∈ productions.toList, p.InRange ruleNames.size tokenNames.size
  tables_eq : tables = Tables.ofProductions ruleNames.size tokenNames.size productions.toList
  deriving DecidableEq

namespace Grammar

def ruleCount (g : Grammar) : Nat := g.ruleNames.size

def tokenCount (g : Grammar) : Nat := g.tokenNames.size

/-- A grammar from names and productions that are in order, without places in a source. -/
def assemble (ruleNames : List String) (start : Nat) (tokenNames : List String)
    (productions : List Production) (hr : ruleNames.Nodup) (ht : tokenNames.Nodup)
    (hs : start < ruleNames.length)
    (hp : ∀ p ∈ productions, p.InRange ruleNames.length tokenNames.length) : Grammar where
  ruleNames := ruleNames.toArray
  ruleSpans := Array.replicate ruleNames.length none
  start := start
  tokenNames := tokenNames.toArray
  tokenSpans := Array.replicate tokenNames.length none
  productions := productions.toArray
  tables := Tables.ofProductions ruleNames.length tokenNames.length productions
  nodup_ruleNames := by simpa using hr
  nodup_tokenNames := by simpa using ht
  size_ruleSpans := by simp
  size_tokenSpans := by simp
  start_lt := by simpa using hs
  inRange := by simpa using hp
  tables_eq := by simp

def withSpans (g : Grammar) (ruleSpans tokenSpans : Array (Option Span))
    (hr : ruleSpans.size = g.ruleNames.size) (ht : tokenSpans.size = g.tokenNames.size) : Grammar :=
  { g with ruleSpans, tokenSpans, size_ruleSpans := hr, size_tokenSpans := ht }

/-- Builds a grammar from its parts, unless the width cannot number them, a name is repeated or an
index does not exist. -/
def ofParts (w : Width) (ruleNames : List String) (start : Nat) (tokenNames : List String)
    (productions : List Production) : Except Fault Grammar :=
  if w.maxIndex < ruleNames.length ∨ w.maxIndex < tokenNames.length ∨
      w.maxIndex < productions.length then
    .error (.overfull .grammar)
  else if hd : allDistinct ruleNames = true ∧ allDistinct tokenNames = true then
    if hs : start < ruleNames.length then
      match hf : productions.findSome? (·.fault? ruleNames.length tokenNames.length) with
      | some fault => .error fault
      | none =>
        .ok (assemble ruleNames start tokenNames productions ((allDistinct_iff _).1 hd.1)
          ((allDistinct_iff _).1 hd.2) hs fun p hp =>
            Production.fault?_eq_none_iff.1 (List.findSome?_eq_none_iff.1 hf p hp))
    else .error .startOutOfRange
  else .error .repeatedName

theorem names_of_ofParts {w : Width} {ruleNames tokenNames : List String} {start : Nat}
    {productions : List Production} {g : Grammar}
    (h : ofParts w ruleNames start tokenNames productions = .ok g) :
    g.ruleNames = ruleNames.toArray ∧ g.tokenNames = tokenNames.toArray ∧
      g.start = start ∧ g.productions = productions.toArray := by
  unfold ofParts at h
  split at h
  · cases h
  · split at h
    · split at h
      · split at h
        · cases h
        · cases h
          exact ⟨rfl, rfl, rfl, rfl⟩
      · cases h
    · cases h

def ruleIndex? (g : Grammar) (name : String) : Option Nat := g.ruleNames.idxOf? name

def tokenIndex? (g : Grammar) (name : String) : Option Nat := g.tokenNames.idxOf? name

def productionsOf (g : Grammar) (rule : Nat) : List Nat :=
  (g.tables.productionsOf.getD rule #[]).toList

def pairsOf (g : Grammar) (rule : Nat) : List (Nat × Nat) :=
  (g.tables.pairsOf.getD rule #[]).toList

/-- All productions `A: B C` as `(A, B, C)`. -/
def pairs (g : Grammar) : List (Nat × Nat × Nat) := g.tables.pairs.toList

/-- The rules that produce a token; none for a token that is foreign to the grammar. -/
def rulesOf (g : Grammar) (token : Nat) : List Nat := (g.tables.rulesOf.getD token #[]).toList

def ruleName (g : Grammar) (rule : Nat) : String := g.ruleNames.getD rule ""

/-- The name of a token, or its number if it is foreign to the grammar. -/
def tokenText (g : Grammar) (token : Nat) : String :=
  match g.tokenNames[token]? with
  | some name => name
  | none => "#" ++ toString token

end Grammar

end GrammarRepair
