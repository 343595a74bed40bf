import GrammarRepair.Proofs.Grammar.Numbering
import GrammarRepair.Proofs.Grammar.Prune
import GrammarRepair.Proofs.NormalForm.Language
import GrammarRepair.Proofs.Source.Places
import GrammarRepair.Proofs.Source.Written

/-!
The grammar of a source means what the source means. Replacing tokens, splitting long productions,
following single rules, numbering and pruning each keep the language; here they are put together.
Main statement: the sentences of the grammar are the numbered sentences of what was written.
-/

namespace GrammarRepair

namespace Grammar

variable {w : Width} {text : String} {g : Grammar}

theorem exists_number_of_ofSource (h : ofSource w text = .ok g) :
    ∃ written g', Written.read text = .ok written ∧
      (NormalForm.ofWritten written).number w = .ok g' ∧ g = g'.prune := by
  unfold ofSource at h
  split at h
  · cases h
  · next written hread =>
    split at h
    · cases h
    · next g' hnumber =>
      cases h
      exact ⟨written, g', hread, hnumber, rfl⟩

theorem exists_of_ofSource (h : ofSource w text = .ok g) :
    ∃ written g', Written.read text = .ok written ∧ (NormalForm.ofWritten written).Numbers g' ∧
      g = g'.prune := by
  obtain ⟨written, g', hread, hnumber, hprune⟩ := exists_number_of_ofSource h
  exact ⟨written, g', hread, NormalForm.numbers_of_number hnumber, hprune⟩

end Grammar

open NormalForm in
/-- A grammar made from a source has the language of what was written. All names of a written
sentence are tokens of the grammar, and the numbers of an input are a sentence of the grammar
exactly when the input is a sentence as written. -/
theorem ofSource_language {w : Width} {text : String} {g : Grammar}
    (h : Grammar.ofSource w text = .ok g) :
    ∃ written, Written.read text = .ok written ∧
      (∀ names, written.IsSentence names →
        ∃ tokens, g.tokenIndices w names = .ok (tokens, []) ∧ g.IsSentence tokens) ∧
      ∀ names tokens foreign, g.tokenIndices w names = .ok (tokens, foreign) →
        (g.IsSentence tokens ↔ written.IsSentence names) := by
  obtain ⟨written, g', hread, hnumbers, rfl⟩ := Grammar.exists_of_ofSource h
  have horder := Written.inOrder_of_read hread
  have htokens : g'.prune.tokenList = (ofWritten written).tokenNames := by
    rw [Grammar.tokenList_prune, hnumbers.tokenList_eq]
  -- Only the names of tokens can be part of a sentence.
  have hknown : ∀ names, written.IsSentence names → ∀ name ∈ names, name ∈ g'.prune.tokenList := by
    intro names hsentence
    rw [htokens]
    exact (hnumbers.derives_number ((isSentence_ofWritten_iff horder).2 hsentence)).2
  have hiff : ∀ names, (∀ name ∈ names, name ∈ g'.prune.tokenList) →
      (g'.prune.IsSentence (names.map g'.prune.tokenList.idxOf) ↔ written.IsSentence names) := by
    intro names hnames
    rw [htokens] at hnames ⊢
    rw [Grammar.isSentence_prune_iff, hnumbers.isSentence_iff hnames,
      isSentence_ofWritten_iff horder]
  refine ⟨written, hread, fun names hsentence => ?_, fun names tokens foreign hindices => ?_⟩
  · have hnames := hknown names hsentence
    exact ⟨_, Grammar.tokenIndices_of_mem hnames, (hiff names hnames).2 hsentence⟩
  · constructor
    · intro hsentence
      obtain ⟨hnames, rfl⟩ :=
        Grammar.mem_tokenList_of_tokenIndices hindices fun t ht => hsentence.lt_tokenCount t ht
      exact (hiff names hnames).1 hsentence
    · intro hsentence
      have hnames := hknown names hsentence
      rw [Grammar.tokenIndices_of_mem hnames] at hindices
      cases hindices
      exact (hiff names hnames).2 hsentence

/-- Nested brackets around one token, with a production that leads back to its own rule. -/
def nestedText : String := "%%\nS: S | 'a' S 'b' | 'c';\n"

def nestedBrackets : List Symbol :=
  [.token (letterAt "a" 11), .rule (letterAt "S" 14), .token (letterAt "b" 17)]

def nestedRule : WrittenRule where
  name := letterAt "S" 3
  bodies := [[.rule (letterAt "S" 6)], nestedBrackets, [.token (letterAt "c" 23)]]

def nested : Written where
  start := some (letterAt "S" 3)
  tokens := [letterAt "a" 11, letterAt "b" 17, letterAt "c" 23]
  rules := [nestedRule]

theorem read_nestedText : Written.read nestedText = .ok nested := by
  simp only [Written.read, Written.ofSheet, Written.merge, distinct_eq_foldl]
  decide +kernel

theorem isSentence_nested : nested.IsSentence ["a", "c", "b"] := by
  have hrule : nestedRule ∈ nested.rules := List.mem_singleton.2 rfl
  have hbrackets : nestedBrackets ∈ nestedRule.bodies := by decide
  have hmiddle : [.token (letterAt "c" 23)] ∈ nestedRule.bodies := by decide
  have hname (start : Nat) : nestedRule.name.text = (letterAt "S" start).text := rfl
  have hend : nested.Derives [.token (letterAt "b" 17)] ["b"] := .token .nil
  have hinner : nested.Derives [.token (letterAt "c" 23)] ["c"] := .token .nil
  have hrest : nested.Derives _ (["c"] ++ ["b"]) := .rule hrule (hname 14) hmiddle hinner hend
  have hall : nested.Derives nestedBrackets ["a", "c", "b"] := .token hrest
  exact ⟨_, rfl, .rule hrule (hname 3) hbrackets hall .nil⟩

open NormalForm

def nestedForm : NormalForm where
  start := "S"
  rules := [("S", [.pair "T~a" "S~1", .token "c"]), ("T~a", [.token "a"]), ("T~b", [.token "b"]),
    ("S~1", [.pair "S" "T~b"])]
  tokens := nested.tokens
  written := [letterAt "S" 3]

theorem ofWritten_nested : ofWritten nested = nestedForm := by
  have htable : splitLong (replaceTokens (tableOf nested)) =
      [⟨"S", [[.rule "S"], [.rule "T~a", .rule "S~1"], [.token "c"]]⟩, ⟨"T~a", [[.token "a"]]⟩,
        ⟨"T~b", [[.token "b"]]⟩, ⟨"S~1", [[.rule "S", .rule "T~b"]]⟩] := by
    decide +kernel
  unfold ofWritten
  rw [htable]
  simp [nestedForm, nested, nestedRule, letterAt, dropUnits, Table.closedBodies,
    Table.unitClosure, Table.bodiesOf, explore, Exploration.run, Exploration.Frontier.meetAll,
    Exploration.Frontier.meet, unitOf?, namedBody?, distinct_eq_foldl, List.filterMap_cons,
    List.find?_cons]

theorem exists_ofSource_nestedText : ∃ g, Grammar.ofSource .w32 nestedText = .ok g := by
  obtain ⟨g, hg⟩ : ∃ g, nestedForm.number .w32 = .ok g :=
    exists_number (by decide) (by decide) (by decide) (by decide) (by decide)
  refine ⟨g.prune, ?_⟩
  rw [Grammar.ofSource, read_nestedText]
  simp only
  rw [ofWritten_nested, hg]

/-- The sentence `a c b` stays one, although its production is split and its tokens are replaced. -/
theorem ofSource_language_nested : ∃ g, Grammar.ofSource .w32 nestedText = .ok g ∧
    ∃ tokens, g.tokenIndices .w32 ["a", "c", "b"] = .ok (tokens, []) ∧ g.IsSentence tokens := by
  obtain ⟨g, hg⟩ := exists_ofSource_nestedText
  obtain ⟨written, hread, hsentences, -⟩ := ofSource_language hg
  obtain rfl := Except.ok.inj (read_nestedText.symm.trans hread)
  exact ⟨g, hg, hsentences _ isSentence_nested⟩

end GrammarRepair
