import GrammarRepair.Proofs.Grammar.Kept

/-!
Complete derivations as trees that name the rule of every node. A rule occurs in a grammar if it
stands at a node of a derivation of a sentence. Main statements: the useful rules are those that
occur, and pruning keeps the rules that occur, the start rule, and nothing else.
-/

namespace GrammarRepair

inductive Derivation
  | token (rule token : Nat)
  | pair (rule : Nat) (left right : Derivation)
  deriving DecidableEq, Repr

namespace Derivation

def rule : Derivation → Nat
  | token a _ => a
  | pair a _ _ => a

def rules : Derivation → List Nat
  | token a _ => [a]
  | pair a left right => a :: (left.rules ++ right.rules)

def tokens : Derivation → List Nat
  | token _ t => [t]
  | pair _ left right => left.tokens ++ right.tokens

def Follows (g : Grammar) : Derivation → Prop
  | token a t => ⟨a, .token t⟩ ∈ g.productions.toList
  | pair a left right => ⟨a, .pair left.rule right.rule⟩ ∈ g.productions.toList ∧
      left.Follows g ∧ right.Follows g

variable {g : Grammar} {d : Derivation} {a b : Nat} {w : List Nat}

theorem rule_mem_rules (d : Derivation) : d.rule ∈ d.rules := by
  cases d with
  | token a t => exact List.mem_singleton_self a
  | pair a left right => exact List.mem_cons_self

theorem Follows.derives (h : d.Follows g) : g.Derives d.rule d.tokens := by
  induction d with
  | token a t => exact .token h
  | pair a left right ihl ihr => exact .pair h.1 (ihl h.2.1) (ihr h.2.2)

end Derivation

namespace Grammar

variable {g : Grammar} {a b i : Nat} {v w : List Nat}

theorem Derives.exists_derivation (h : g.Derives a w) :
    ∃ d : Derivation, d.Follows g ∧ d.rule = a ∧ d.tokens = w := by
  induction h with
  | @token a t hp => exact ⟨.token a t, hp, rfl, rfl⟩
  | @pair a b c v w hp _ _ ihv ihw =>
    obtain ⟨left, hleft, rfl, rfl⟩ := ihv
    obtain ⟨right, hright, rfl, rfl⟩ := ihw
    exact ⟨.pair a left right, ⟨hp, hleft, hright⟩, rfl, rfl⟩

theorem derives_iff_exists_derivation : g.Derives a w ↔
    ∃ d : Derivation, d.Follows g ∧ d.rule = a ∧ d.tokens = w := by
  refine ⟨Derives.exists_derivation, ?_⟩
  rintro ⟨d, hd, rfl, rfl⟩
  exact hd.derives

/-- `g.Under b a`: a complete derivation from rule `b` has a node of rule `a`. -/
def Under (g : Grammar) (b a : Nat) : Prop :=
  ∃ d : Derivation, d.Follows g ∧ d.rule = b ∧ a ∈ d.rules

/-- Rule `a` stands in a complete derivation from the start rule. -/
def Occurs (g : Grammar) (a : Nat) : Prop := g.Under g.start a

/-- Every node of a complete derivation is led to by its top and derives a part of its string. -/
theorem Under.derives_and_reach (h : g.Under b a) :
    (∃ w, g.Derives a w) ∧ Relation.ReflTransGen g.Leads b a := by
  obtain ⟨d, hd, rfl, ha⟩ := h
  induction d with
  | token b t =>
    obtain rfl := List.mem_singleton.1 ha
    exact ⟨⟨_, hd.derives⟩, .refl⟩
  | pair b left right ihl ihr =>
    have hleft := hd.2.1.derives
    have hright := hd.2.2.derives
    rcases List.mem_cons.1 ha with rfl | ha
    · exact ⟨⟨_, hd.derives⟩, .refl⟩
    · rcases List.mem_append.1 ha with ha | ha
      · obtain ⟨hw, hreach⟩ := ihl hd.2.1 ha
        exact ⟨hw, .head ⟨_, _, hd.1, .inl rfl, ⟨_, hleft⟩, _, hright⟩ hreach⟩
      · obtain ⟨hw, hreach⟩ := ihr hd.2.2 ha
        exact ⟨hw, .head ⟨_, _, hd.1, .inr rfl, ⟨_, hleft⟩, _, hright⟩ hreach⟩

theorem under_of_derives (h : g.Derives a w) : g.Under a a := by
  obtain ⟨d, hd, rfl, -⟩ := h.exists_derivation
  exact ⟨d, hd, rfl, d.rule_mem_rules⟩

/-- A derivation from a part of a production is a part of a derivation from its head. -/
theorem Under.of_leads {c : Nat} (hc : g.Under c a) (h : g.Leads b c) : g.Under b a := by
  obtain ⟨l, r, hp, hcase, ⟨v, hv⟩, w, hw⟩ := h
  obtain ⟨d, hd, hrule, ha⟩ := hc
  obtain ⟨left, hleft, hl, -⟩ := hv.exists_derivation
  obtain ⟨right, hright, hr, -⟩ := hw.exists_derivation
  rcases hcase with rfl | rfl
  · refine ⟨.pair b d right, ⟨?_, hd, hright⟩, rfl, ?_⟩
    · rwa [hrule, hr]
    · exact List.mem_cons_of_mem _ (List.mem_append_left _ ha)
  · refine ⟨.pair b left d, ⟨?_, hleft, hd⟩, rfl, ?_⟩
    · rwa [hrule, hl]
    · exact List.mem_cons_of_mem _ (List.mem_append_right _ ha)

theorem under_iff : g.Under b a ↔
    (∃ w, g.Derives a w) ∧ Relation.ReflTransGen g.Leads b a := by
  refine ⟨Under.derives_and_reach, ?_⟩
  rintro ⟨⟨w, hw⟩, hreach⟩
  induction hreach using Relation.ReflTransGen.head_induction_on with
  | refl => exact under_of_derives hw
  | head hstep _ ih => exact ih.of_leads hstep

theorem isUseful_iff_occurs : g.usefulness.isUseful a = true ↔ g.Occurs a := by
  rw [isUseful_iff, Occurs, under_iff]

theorem Occurs.lt (h : g.Occurs a) : a < g.ruleCount := by
  rcases (under_iff.1 h).2.cases_tail with rfl | ⟨b, -, hleads⟩
  · exact g.start_lt
  · exact hleads.lt

theorem mem_keptList_iff_occurs : a ∈ g.keptList ↔ a = g.start ∨ g.Occurs a := by
  rw [mem_keptList, isUseful_iff_occurs]
  constructor
  · exact fun h => h.2
  · rintro (rfl | h)
    · exact ⟨g.start_lt, .inl rfl⟩
    · exact ⟨h.lt, .inr h⟩

/-- After pruning every rule occurs, or there is nothing but the start rule, without productions. -/
theorem occurs_prune_or_empty (g : Grammar) :
    (∀ i < g.prune.ruleCount, g.prune.Occurs i) ∨
      g.prune.ruleCount = 1 ∧ g.prune.productions = #[] ∧ ¬ ∃ v, g.IsSentence v := by
  by_cases h : ∃ v, g.IsSentence v
  · exact .inl fun i hi => isUseful_iff_occurs.1 (isUseful_prune h hi)
  · refine .inr ⟨?_, ?_, h⟩
    · rw [ruleCount_prune, keptList_of_no_sentence h, List.length_singleton]
    · rw [← Array.toList_inj, productions_prune, prunedProductions_of_no_sentence h]

/-- Pruning leaves the listed rules: the start rule and those that occur in a complete derivation,
each with what it derived under its old number. -/
structure KeptBy (g : Grammar) (kept : List Nat) : Prop where
  ascending : kept.Pairwise (· < ·)
  mem_iff : ∀ a, a ∈ kept ↔ a = g.start ∨ g.Occurs a
  names : g.prune.ruleNames.toList = kept.map g.ruleName
  spans : g.prune.ruleSpans.toList = kept.map g.ruleSpan?
  start : kept[g.prune.start]? = some g.start
  derives_iff : ∀ i a, kept[i]? = some a → ∀ v, g.prune.Derives i v ↔ g.Derives a v

theorem keptBy_keptList (g : Grammar) : g.KeptBy g.keptList where
  ascending := g.pairwise_keptList
  mem_iff _ := mem_keptList_iff_occurs
  names := g.ruleNames_prune
  spans := g.ruleSpans_prune
  start := prunedRule?_eq_some_iff.1 g.prunedRule?_start
  derives_iff _ _ hi _ := derives_prune_iff (prunedRule?_eq_some_iff.2 hi)

/-- Pruning keeps the sentences, the tokens, the start rule and the rules that occur in a complete
derivation, in their order and with what they derive; no useless rule is left, unless the start rule
itself derives nothing; and pruning once is enough. -/
theorem prune_keeps_occurring_rules (g : Grammar) :
    (∀ v, g.prune.IsSentence v ↔ g.IsSentence v) ∧
    (∃ kept, g.KeptBy kept) ∧
    ((∀ i < g.prune.ruleCount, g.prune.Occurs i) ∨
      g.prune.ruleCount = 1 ∧ g.prune.productions = #[] ∧ ¬ ∃ v, g.IsSentence v) ∧
    g.prune.tokenNames = g.tokenNames ∧ g.prune.tokenSpans = g.tokenSpans ∧
    g.prune.prune = g.prune :=
  ⟨fun _ => isSentence_prune_iff, ⟨_, g.keptBy_keptList⟩, g.occurs_prune_or_empty,
    g.tokenNames_prune, g.tokenSpans_prune, g.prune_prune⟩

end Grammar

end GrammarRepair
