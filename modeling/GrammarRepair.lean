import GrammarRepair.Automaton.Printer
import GrammarRepair.Automaton.Reach
import GrammarRepair.Chart.Fill
import GrammarRepair.Chart.Template
import GrammarRepair.Checked
import GrammarRepair.EditDistance.Ball
import GrammarRepair.EditDistance.Distance
import GrammarRepair.EditDistance.TwoRows
import GrammarRepair.Forest.Compaction
import GrammarRepair.Forest.Derivation
import GrammarRepair.Forest.Gathering
import GrammarRepair.Forest.Printer
import GrammarRepair.Forest.Sampling
import GrammarRepair.Forest.Stack
import GrammarRepair.Forest.Trees
import GrammarRepair.Grammar.Checked
import GrammarRepair.Grammar.Derivation
import GrammarRepair.Grammar.OfSource
import GrammarRepair.Grammar.Printer
import GrammarRepair.Grammar.Prune
import GrammarRepair.Grammar.Tokens
import GrammarRepair.Intersection.Countdown
import GrammarRepair.Intersection.Language
import GrammarRepair.Intersection.ToGrammar
import GrammarRepair.NormalForm.Checked
import GrammarRepair.NormalForm.Language
import GrammarRepair.Proofs.Agreement
import GrammarRepair.Proofs.Automaton.Cycles
import GrammarRepair.Proofs.Automaton.Language
import GrammarRepair.Proofs.Automaton.OfTransitions
import GrammarRepair.Proofs.Automaton.Reach
import GrammarRepair.Proofs.Automaton.Rearranged
import GrammarRepair.Proofs.Chart.Fill
import GrammarRepair.Proofs.Chart.Recognition
import GrammarRepair.Proofs.Chart.Search
import GrammarRepair.Proofs.Chart.Template
import GrammarRepair.Proofs.Checked
import GrammarRepair.Proofs.EditDistance.Alignment
import GrammarRepair.Proofs.EditDistance.Ball
import GrammarRepair.Proofs.EditDistance.Metric
import GrammarRepair.Proofs.EditDistance.TwoRows
import GrammarRepair.Proofs.Exploration
import GrammarRepair.Proofs.Forest.Arena
import GrammarRepair.Proofs.Forest.Below
import GrammarRepair.Proofs.Forest.Bound
import GrammarRepair.Proofs.Forest.Bracketing
import GrammarRepair.Proofs.Forest.Compacted
import GrammarRepair.Proofs.Forest.Compaction
import GrammarRepair.Proofs.Forest.Counting
import GrammarRepair.Proofs.Forest.Decoding
import GrammarRepair.Proofs.Forest.Derivations
import GrammarRepair.Proofs.Forest.Expansion
import GrammarRepair.Proofs.Forest.Gathered
import GrammarRepair.Proofs.Forest.Gathering
import GrammarRepair.Proofs.Forest.Kept
import GrammarRepair.Proofs.Forest.Language
import GrammarRepair.Proofs.Forest.Layout
import GrammarRepair.Proofs.Forest.Live
import GrammarRepair.Proofs.Forest.Order
import GrammarRepair.Proofs.Forest.Pruned
import GrammarRepair.Proofs.Forest.Renaming
import GrammarRepair.Proofs.Forest.Sampling
import GrammarRepair.Proofs.Forest.Saturation
import GrammarRepair.Proofs.Forest.Sentences
import GrammarRepair.Proofs.Forest.Template
import GrammarRepair.Proofs.Forest.Writing
import GrammarRepair.Proofs.Grammar.Checked
import GrammarRepair.Proofs.Grammar.Constituents
import GrammarRepair.Proofs.Grammar.Foreign
import GrammarRepair.Proofs.Grammar.Indexed
import GrammarRepair.Proofs.Grammar.Kept
import GrammarRepair.Proofs.Grammar.Numbering
import GrammarRepair.Proofs.Grammar.Occurrence
import GrammarRepair.Proofs.Grammar.OfSource
import GrammarRepair.Proofs.Grammar.Origins
import GrammarRepair.Proofs.Grammar.Outcome
import GrammarRepair.Proofs.Grammar.Printing
import GrammarRepair.Proofs.Grammar.Prune
import GrammarRepair.Proofs.Grammar.Pruned
import GrammarRepair.Proofs.Grammar.Reprint
import GrammarRepair.Proofs.Grammar.SententialForm
import GrammarRepair.Proofs.Grammar.Spans
import GrammarRepair.Proofs.Grammar.Tables
import GrammarRepair.Proofs.Grammar.Usefulness
import GrammarRepair.Proofs.Intersection.Countdown
import GrammarRepair.Proofs.Intersection.Dominance
import GrammarRepair.Proofs.Intersection.Draft
import GrammarRepair.Proofs.Intersection.Kept
import GrammarRepair.Proofs.Intersection.Language
import GrammarRepair.Proofs.Intersection.Marking
import GrammarRepair.Proofs.Intersection.Names
import GrammarRepair.Proofs.Intersection.ToGrammar
import GrammarRepair.Proofs.NormalForm.Chain
import GrammarRepair.Proofs.NormalForm.Checked
import GrammarRepair.Proofs.NormalForm.Closure
import GrammarRepair.Proofs.NormalForm.Expansion
import GrammarRepair.Proofs.NormalForm.Fixed
import GrammarRepair.Proofs.NormalForm.Language
import GrammarRepair.Proofs.NormalForm.StandIn
import GrammarRepair.Proofs.NormalForm.Unfolding
import GrammarRepair.Proofs.NormalForm.Unit
import GrammarRepair.Proofs.Repair.Nearest
import GrammarRepair.Proofs.Repair.Ranking
import GrammarRepair.Proofs.Repair.Rearranged
import GrammarRepair.Proofs.Source.Ast
import GrammarRepair.Proofs.Source.Boundaries
import GrammarRepair.Proofs.Source.Bytes
import GrammarRepair.Proofs.Source.Classification
import GrammarRepair.Proofs.Source.Cursor
import GrammarRepair.Proofs.Source.Lexing
import GrammarRepair.Proofs.Source.Lines
import GrammarRepair.Proofs.Source.Outline
import GrammarRepair.Proofs.Source.Parser
import GrammarRepair.Proofs.Source.Places
import GrammarRepair.Proofs.Source.Position
import GrammarRepair.Proofs.Source.References
import GrammarRepair.Proofs.Source.Rendering
import GrammarRepair.Proofs.Source.Reports
import GrammarRepair.Proofs.Stored
import GrammarRepair.Proofs.Widths
import GrammarRepair.Random.SplitMix
import GrammarRepair.Repair.Basic
import GrammarRepair.Source.Bytes
import GrammarRepair.Source.Language
import GrammarRepair.Source.Outline
import GrammarRepair.Source.Parser
import GrammarRepair.Source.Position
import GrammarRepair.Stored
