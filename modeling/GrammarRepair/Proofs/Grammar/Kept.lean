import GrammarRepair.Proofs.Grammar.Pruned
import Mathlib.Data.List.Sort

/-!
What a pruned grammar is made of, whether anything was removed or not. The rules that stay are those
of an ascending list, and everything else about the pruned grammar is read off that list. Main
statements: a rule that stays derives what it did, if the start rule derives nothing then it alone
stays, without productions, and pruning once is enough.
-/

namespace GrammarRepair

namespace Grammar

variable {g g' : Grammar} {a b i j : Nat} {v : List Nat}

/-- The rules that pruning keeps, in their order. -/
def keptList (g : Grammar) : List Nat := (List.range g.ruleCount).filter (g.keeps g.usefulness)

def ruleSpan? (g : Grammar) (a : Nat) : Option Span := g.ruleSpans.getD a none

theorem pairwise_keptList (g : Grammar) : g.keptList.Pairwise (· < ·) :=
  List.pairwise_lt_range.filter _

theorem prunedRule?_eq_some_iff : g.prunedRule? a = some i ↔ g.keptList[i]? = some a := by
  rw [prunedRule?, keptRules, Renumbering.new?_eq_some_iff, ← Array.getElem?_toList,
    Renumbering.kept_eq, keptList]

theorem exists_prunedRule?_iff : (∃ i, g.prunedRule? a = some i) ↔ a ∈ g.keptList := by
  simp only [prunedRule?_eq_some_iff, List.mem_iff_getElem?]

theorem mem_keptList : a ∈ g.keptList ↔ a < g.ruleCount ∧
    (a = g.start ∨ g.usefulness.isUseful a = true) := by
  simp [keptList, keeps]

theorem start_mem_keptList (g : Grammar) : g.start ∈ g.keptList :=
  mem_keptList.2 ⟨g.start_lt, .inl rfl⟩

theorem reach_of_mem_keptList (h : a ∈ g.keptList) :
    Relation.ReflTransGen g.Leads g.start a := by
  rcases (mem_keptList.1 h).2 with rfl | huseful
  · exact .refl
  · exact (isUseful_iff.1 huseful).2

theorem reach_of_prunedRule? (h : g.prunedRule? a = some i) :
    Relation.ReflTransGen g.Leads g.start a :=
  reach_of_mem_keptList (exists_prunedRule?_iff.1 ⟨i, h⟩)

theorem keptList_of_all (h : g.usefulness.all g.ruleCount = true) :
    g.keptList = List.range g.ruleCount := by
  refine List.filter_eq_self.2 fun a ha => ?_
  rw [keeps, List.all_eq_true.1 h a ha, Bool.or_true]

theorem prunedRule?_of_all (h : g.usefulness.all g.ruleCount = true) (ha : a < g.ruleCount) :
    g.prunedRule? a = some a := by
  rw [prunedRule?_eq_some_iff, keptList_of_all h, List.getElem?_range ha]

theorem prunedProductions_of_all (h : g.usefulness.all g.ruleCount = true) :
    g.prunedProductions = g.productions.toList := by
  have huseful : ∀ a < g.ruleCount, g.usefulness.isUseful a = true :=
    fun a ha => List.all_eq_true.1 h a (List.mem_range.2 ha)
  have hsame : ∀ p ∈ g.productions.toList,
      pruneProduction? g.usefulness (g.keptRules g.usefulness) p = some p := by
    rintro ⟨a, body⟩ hp
    obtain ⟨ha, hbody⟩ := g.inRange _ hp
    have hhead : (g.keptRules g.usefulness).new? a = some a := prunedRule?_of_all h ha
    cases body with
    | token t => simp [pruneProduction?, hhead]
    | pair b c =>
      have hleft : (g.keptRules g.usefulness).new? b = some b := prunedRule?_of_all h hbody.1
      have hright : (g.keptRules g.usefulness).new? c = some c := prunedRule?_of_all h hbody.2
      simp [pruneProduction?, hhead, hleft, hright, huseful b hbody.1, huseful c hbody.2]
  rw [prunedProductions, List.filterMap_congr hsame, List.filterMap_some]

theorem map_ruleName_range (g : Grammar) :
    (List.range g.ruleCount).map g.ruleName = g.ruleNames.toList := by
  refine List.ext_getElem (by simp [ruleCount]) fun i hi hi' => ?_
  have hlt : i < g.ruleNames.size := by simpa using hi'
  simp [ruleName, Array.getD, hlt]

theorem map_ruleSpan?_range (g : Grammar) :
    (List.range g.ruleCount).map g.ruleSpan? = g.ruleSpans.toList := by
  have hsize := g.size_ruleSpans
  refine List.ext_getElem (by simp [ruleCount, hsize]) fun i hi hi' => ?_
  have hlt : i < g.ruleSpans.size := by simpa using hi'
  simp [ruleSpan?, Array.getD, hlt]

theorem ruleNames_prune (g : Grammar) :
    g.prune.ruleNames.toList = g.keptList.map g.ruleName := by
  by_cases hall : g.usefulness.all g.ruleCount = true
  · rw [prune_of_all hall, keptList_of_all hall, map_ruleName_range]
  · have hnames : g.prune.ruleNames.toList =
        (g.keptRules g.usefulness).kept.toList.map g.ruleName := by
      unfold prune
      simp only [if_neg hall]
      rfl
    rw [hnames, keptRules, Renumbering.kept_eq, keptList]

theorem ruleSpans_prune (g : Grammar) :
    g.prune.ruleSpans.toList = g.keptList.map g.ruleSpan? := by
  by_cases hall : g.usefulness.all g.ruleCount = true
  · rw [prune_of_all hall, keptList_of_all hall, map_ruleSpan?_range]
  · have hspans : g.prune.ruleSpans.toList =
        (g.keptRules g.usefulness).kept.toList.map g.ruleSpan? := by
      unfold prune
      simp only [if_neg hall, withSpans, Array.toList_map]
      rfl
    rw [hspans, keptRules, Renumbering.kept_eq, keptList]

theorem ruleCount_prune (g : Grammar) : g.prune.ruleCount = g.keptList.length := by
  rw [ruleCount, ← Array.length_toList, ruleNames_prune, List.length_map]

theorem ruleName_prune (ha : g.prunedRule? a = some i) :
    i < g.prune.ruleCount ∧ g.prune.ruleName i = g.ruleName a := by
  have hget : g.prune.ruleNames[i]? = some (g.ruleName a) := by
    rw [← Array.getElem?_toList, ruleNames_prune, List.getElem?_map,
      prunedRule?_eq_some_iff.1 ha, Option.map_some]
  refine ⟨(Array.getElem?_eq_some_iff.1 hget).1, ?_⟩
  rw [ruleName, Array.getD_eq_getD_getElem?, hget, Option.getD_some]

theorem productions_prune (g : Grammar) : g.prune.productions.toList = g.prunedProductions := by
  by_cases hall : g.usefulness.all g.ruleCount = true
  · rw [prune_of_all hall, prunedProductions_of_all hall]
  · exact (prune_of_not_all hall).1

theorem prunedRule?_start (g : Grammar) : g.prunedRule? g.start = some g.prune.start := by
  by_cases hall : g.usefulness.all g.ruleCount = true
  · rw [prune_of_all hall]
    exact prunedRule?_of_all hall g.start_lt
  · obtain ⟨i, hi⟩ := exists_prunedRule?_iff.2 g.start_mem_keptList
    rw [(prune_of_not_all hall).2, hi, Option.getD_some]

theorem tokenNames_prune (g : Grammar) : g.prune.tokenNames = g.tokenNames :=
  Array.toList_inj.1 (tokenList_prune g)

theorem tokenSpans_prune (g : Grammar) : g.prune.tokenSpans = g.tokenSpans := by
  by_cases hall : g.usefulness.all g.ruleCount = true
  · rw [prune_of_all hall]
  · unfold prune
    simp only [if_neg hall]
    rfl

/-- All rules, tokens and productions of a grammar can be numbered. -/
structure Fits (g : Grammar) (w : Width) : Prop where
  rules_le : g.ruleCount ≤ w.maxIndex
  tokens_le : g.tokenCount ≤ w.maxIndex
  productions_le : g.productions.size ≤ w.maxIndex

theorem fits_of_ofParts {w : Width} {ruleNames tokenNames : List String} {start : Nat}
    {productions : List Production} (h : ofParts w ruleNames start tokenNames productions = .ok g) :
    g.Fits w := by
  obtain ⟨hrules, htokens, -, hproductions⟩ := names_of_ofParts h
  have hle : ¬ (w.maxIndex < ruleNames.length ∨ w.maxIndex < tokenNames.length ∨
      w.maxIndex < productions.length) := by
    intro hover
    rw [ofParts, if_pos hover] at h
    cases h
  rw [not_or, not_or, Nat.not_lt, Nat.not_lt, Nat.not_lt] at hle
  refine ⟨?_, ?_, ?_⟩
  · rw [ruleCount, hrules, List.size_toArray]
    exact hle.1
  · rw [tokenCount, htokens, List.size_toArray]
    exact hle.2.1
  · rw [hproductions, List.size_toArray]
    exact hle.2.2

theorem Fits.prune {w : Width} (h : g.Fits w) : g.prune.Fits w := by
  refine ⟨?_, ?_, ?_⟩
  · rw [ruleCount_prune, keptList]
    refine Nat.le_trans (List.length_filter_le _ _) ?_
    rw [List.length_range]
    exact h.rules_le
  · rw [tokenCount, tokenNames_prune]
    exact h.tokens_le
  · rw [← Array.length_toList, productions_prune, prunedProductions]
    refine Nat.le_trans (List.length_filterMap_le _ _) ?_
    rw [Array.length_toList]
    exact h.productions_le

theorem derives_prune_iff (ha : g.prunedRule? a = some i) :
    g.prune.Derives i v ↔ g.Derives a v := by
  by_cases hall : g.usefulness.all g.ruleCount = true
  · have hlt := (mem_keptList.1 (exists_prunedRule?_iff.1 ⟨i, ha⟩)).1
    obtain rfl : a = i := Option.some.inj ((prunedRule?_of_all hall hlt).symm.trans ha)
    rw [prune_of_all hall]
  · exact ⟨fun h => derives_of_prune hall h ha,
      fun h => prune_derives hall h (reach_of_prunedRule? ha) ha⟩

section

variable (h : ¬ ∃ v, g.IsSentence v)

include h

/-- Nothing can be completed on the way from a start rule that derives nothing. -/
theorem isUseful_eq_false_of_no_sentence (a : Nat) : g.usefulness.isUseful a = false := by
  rw [Bool.eq_false_iff]
  intro huseful
  obtain ⟨⟨w, hw⟩, hreach⟩ := isUseful_iff.1 huseful
  rcases hreach.cases_head with rfl | ⟨b, ⟨l, r, hp, -, ⟨v, hv⟩, w', hw'⟩, -⟩
  · exact h ⟨w, hw⟩
  · exact h ⟨_, .pair hp hv hw'⟩

theorem keptList_of_no_sentence : g.keptList = [g.start] := by
  refine (pairwise_keptList g).eq_of_mem_iff (List.pairwise_singleton _ _) fun a => ?_
  rw [mem_keptList, isUseful_eq_false_of_no_sentence h a, List.mem_singleton]
  constructor
  · rintro ⟨-, rfl | hfalse⟩
    · rfl
    · cases hfalse
  · rintro rfl
    exact ⟨g.start_lt, .inl rfl⟩

theorem prunedProductions_of_no_sentence : g.prunedProductions = [] := by
  refine List.eq_nil_iff_forall_not_mem.2 ?_
  rintro ⟨i, body⟩ hmem
  cases body with
  | token t =>
    obtain ⟨a, ha, hp⟩ := mem_prunedProductions_token.1 hmem
    have hstart := exists_prunedRule?_iff.1 ⟨i, ha⟩
    rw [keptList_of_no_sentence h, List.mem_singleton] at hstart
    subst hstart
    exact h ⟨_, .token hp⟩
  | pair j k =>
    obtain ⟨a, b, c, -, -, -, hb, -⟩ := mem_prunedProductions_pair.1 hmem
    rw [isUseful_eq_false_of_no_sentence h b] at hb
    cases hb

end

/-- A grammar is what it is made of. -/
theorem eq_of_parts (hruleNames : g.ruleNames = g'.ruleNames)
    (hruleSpans : g.ruleSpans = g'.ruleSpans) (hstart : g.start = g'.start) (htokenNames : g.tokenNames = g'.tokenNames)
    (htokenSpans : g.tokenSpans = g'.tokenSpans) (hproductions : g.productions = g'.productions) :
    g = g' := by
  have htables : g.tables = g'.tables := by
    rw [g.tables_eq, g'.tables_eq, hruleNames, htokenNames, hproductions]
  cases g
  cases g'
  simp only [mk.injEq]
  exact ⟨hruleNames, hruleSpans, hstart, htokenNames, htokenSpans, hproductions, htables⟩

theorem prune_eq_self (hkept : g.keptList = List.range g.ruleCount)
    (hproductions : g.prunedProductions = g.productions.toList) : g.prune = g := by
  have hstart := prunedRule?_eq_some_iff.1 (prunedRule?_start g)
  rw [hkept] at hstart
  refine eq_of_parts (Array.toList_inj.1 ?_) (Array.toList_inj.1 ?_) ?_ (tokenNames_prune g)
    (tokenSpans_prune g) (Array.toList_inj.1 ?_)
  · rw [ruleNames_prune, hkept, map_ruleName_range]
  · rw [ruleSpans_prune, hkept, map_ruleSpan?_range]
  · obtain ⟨hlt, hget⟩ := List.getElem?_eq_some_iff.1 hstart
    simpa using hget
  · rw [productions_prune, hproductions]

theorem prune_prune (g : Grammar) : g.prune.prune = g.prune := by
  by_cases hsentence : ∃ v, g.IsSentence v
  · refine prune_of_all (List.all_eq_true.2 fun i hi => ?_)
    exact isUseful_prune hsentence (List.mem_range.1 hi)
  · have hnone : ¬ ∃ v, g.prune.IsSentence v := by
      simpa only [isSentence_prune_iff] using hsentence
    have hcount : g.prune.ruleCount = 1 := by
      rw [ruleCount_prune, keptList_of_no_sentence hsentence, List.length_singleton]
    have hlt : g.prune.start < g.prune.ruleCount := g.prune.start_lt
    have hstart : g.prune.start = 0 := by omega
    refine prune_eq_self ?_ ?_
    · rw [keptList_of_no_sentence hnone, hstart, hcount]
      rfl
    · rw [prunedProductions_of_no_sentence hnone, productions_prune,
        prunedProductions_of_no_sentence hsentence]

end Grammar

end GrammarRepair
