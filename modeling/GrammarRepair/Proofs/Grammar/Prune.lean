import GrammarRepair.Grammar.Prune
import GrammarRepair.Proofs.Grammar.Tokens
import GrammarRepair.Proofs.Grammar.Usefulness

/-!
What pruning keeps. The parts of a production that a useful rule needs for a string are useful
themselves, so they keep their places in the renumbered grammar. Main statement: a pruned grammar
has the sentences and the tokens of the grammar.
-/

namespace GrammarRepair

namespace Grammar

variable {g : Grammar} {a b c i j k t : Nat} {v : List Nat}

def prunedRule? (g : Grammar) (a : Nat) : Option Nat := (g.keptRules g.usefulness).new? a

def prunedProductions (g : Grammar) : List Production :=
  g.productions.toList.filterMap (pruneProduction? g.usefulness (g.keptRules g.usefulness))

theorem prune_of_all (h : g.usefulness.all g.ruleCount = true) : g.prune = g := if_pos h

theorem prune_of_not_all (h : ¬ g.usefulness.all g.ruleCount = true) :
    g.prune.productions.toList = g.prunedProductions ∧
      g.prune.start = (g.prunedRule? g.start).getD 0 := by
  unfold prune
  simp only [if_neg h]
  exact ⟨rfl, rfl⟩

@[simp] theorem tokenList_prune (g : Grammar) : g.prune.tokenList = g.tokenList := by
  unfold prune
  simp only
  split
  · rfl
  · rfl

theorem prunedRule?_injective (ha : g.prunedRule? a = some i) (hb : g.prunedRule? b = some i) :
    a = b := by
  have hkept := (Renumbering.new?_eq_some_iff _ _ _ _).1 ha
  exact Option.some.inj (hkept.symm.trans ((Renumbering.new?_eq_some_iff _ _ _ _).1 hb))

theorem exists_prunedRule? (ha : g.usefulness.isUseful a = true) (hlt : a < g.ruleCount) :
    ∃ i, g.prunedRule? a = some i := by
  refine Option.isSome_iff_exists.1 ((Renumbering.new?_isSome_iff _ _ _).2 ⟨hlt, ?_⟩)
  rw [keeps, ha, Bool.or_true]

theorem mem_prunedProductions_token : ⟨i, .token t⟩ ∈ g.prunedProductions ↔
    ∃ a, g.prunedRule? a = some i ∧ ⟨a, .token t⟩ ∈ g.productions.toList := by
  rw [prunedProductions, List.mem_filterMap]
  constructor
  · rintro ⟨⟨a, body⟩, hp, h⟩
    obtain ⟨i', hi, h⟩ := Option.bind_eq_some_iff.1 h
    cases body with
    | token t' =>
      cases h
      exact ⟨a, hi, hp⟩
    | pair b c =>
      simp only at h
      split at h
      · obtain ⟨j, -, h⟩ := Option.bind_eq_some_iff.1 h
        obtain ⟨k, -, h⟩ := Option.bind_eq_some_iff.1 h
        cases h
      · cases h
  · rintro ⟨a, hi, hp⟩
    exact ⟨_, hp, Option.bind_eq_some_iff.2 ⟨i, hi, rfl⟩⟩

theorem mem_prunedProductions_pair : ⟨i, .pair j k⟩ ∈ g.prunedProductions ↔
    ∃ a b c, g.prunedRule? a = some i ∧ g.prunedRule? b = some j ∧ g.prunedRule? c = some k ∧
      g.usefulness.isUseful b = true ∧ g.usefulness.isUseful c = true ∧
        ⟨a, .pair b c⟩ ∈ g.productions.toList := by
  rw [prunedProductions, List.mem_filterMap]
  constructor
  · rintro ⟨⟨a, body⟩, hp, h⟩
    obtain ⟨i', hi, h⟩ := Option.bind_eq_some_iff.1 h
    cases body with
    | token t' => cases h
    | pair b c =>
      simp only at h
      split at h
      · next huseful =>
        obtain ⟨j', hj, h⟩ := Option.bind_eq_some_iff.1 h
        obtain ⟨k', hk, h⟩ := Option.bind_eq_some_iff.1 h
        cases h
        rw [Bool.and_eq_true] at huseful
        exact ⟨a, b, c, hi, hj, hk, huseful.1, huseful.2, hp⟩
      · cases h
  · rintro ⟨a, b, c, hi, hj, hk, hb, hc, hp⟩
    refine ⟨_, hp, Option.bind_eq_some_iff.2 ⟨i, hi, ?_⟩⟩
    simp only [hb, hc, Bool.and_self, if_true]
    exact Option.bind_eq_some_iff.2 ⟨j, hj, Option.bind_eq_some_iff.2 ⟨k, hk, rfl⟩⟩

/-- A pair that a useful rule produces stays, if both its parts derive something. -/
theorem exists_prunedPair (hall : ¬ g.usefulness.all g.ruleCount = true)
    (hp : ⟨a, .pair b c⟩ ∈ g.productions.toList) (hb : ∃ v, g.Derives b v)
    (hc : ∃ w, g.Derives c w) (hreach : Relation.ReflTransGen g.Leads g.start a)
    (ha : g.prunedRule? a = some i) : ∃ j k, g.prunedRule? b = some j ∧
      g.prunedRule? c = some k ∧ ⟨i, .pair j k⟩ ∈ g.prune.productions.toList := by
  have hleft : g.Leads a b := ⟨b, c, hp, .inl rfl, hb, hc⟩
  have hright : g.Leads a c := ⟨b, c, hp, .inr rfl, hb, hc⟩
  have hb' := isUseful_iff.2 ⟨hb, hreach.tail hleft⟩
  have hc' := isUseful_iff.2 ⟨hc, hreach.tail hright⟩
  obtain ⟨j, hj⟩ := exists_prunedRule? hb' hleft.lt
  obtain ⟨k, hk⟩ := exists_prunedRule? hc' hright.lt
  refine ⟨j, k, hj, hk, ?_⟩
  rw [(prune_of_not_all hall).1]
  exact mem_prunedProductions_pair.2 ⟨a, b, c, ha, hj, hk, hb', hc', hp⟩

/-- What a useful rule derives, its number derives after pruning. -/
theorem prune_derives (hall : ¬ g.usefulness.all g.ruleCount = true) (h : g.Derives a v)
    (hreach : Relation.ReflTransGen g.Leads g.start a) (ha : g.prunedRule? a = some i) :
    g.prune.Derives i v := by
  induction h generalizing i with
  | token hp =>
    refine .token ?_
    rw [(prune_of_not_all hall).1]
    exact mem_prunedProductions_token.2 ⟨_, ha, hp⟩
  | @pair a b c v w hp hv hw ihv ihw =>
    obtain ⟨j, k, hj, hk, hmem⟩ := exists_prunedPair hall hp ⟨v, hv⟩ ⟨w, hw⟩ hreach ha
    exact .pair hmem (ihv (hreach.tail ⟨b, c, hp, .inl rfl, ⟨v, hv⟩, w, hw⟩) hj)
      (ihw (hreach.tail ⟨b, c, hp, .inr rfl, ⟨v, hv⟩, w, hw⟩) hk)

theorem derives_of_prune (hall : ¬ g.usefulness.all g.ruleCount = true)
    (h : g.prune.Derives i v) (ha : g.prunedRule? a = some i) : g.Derives a v := by
  have hproductions := (prune_of_not_all hall).1
  induction h generalizing a with
  | token hp =>
    rw [hproductions] at hp
    obtain ⟨a', ha', hp⟩ := mem_prunedProductions_token.1 hp
    obtain rfl := prunedRule?_injective ha ha'
    exact .token hp
  | pair hp _ _ ihv ihw =>
    rw [hproductions] at hp
    obtain ⟨a', b, c, ha', hb, hc, -, -, hp⟩ := mem_prunedProductions_pair.1 hp
    obtain rfl := prunedRule?_injective ha ha'
    exact .pair hp (ihv hb) (ihw hc)

theorem isSentence_prune_iff : g.prune.IsSentence v ↔ g.IsSentence v := by
  by_cases hall : g.usefulness.all g.ruleCount = true
  · rw [prune_of_all hall]
  · obtain ⟨i, hi, -⟩ := g.keptRules_start g.usefulness
    have hstart : g.prune.start = i := by
      rw [(prune_of_not_all hall).2, show g.prunedRule? g.start = some i from hi]
      rfl
    rw [IsSentence, hstart]
    constructor
    · intro h
      exact derives_of_prune hall h hi
    · intro h
      exact prune_derives hall h .refl hi

end Grammar

end GrammarRepair
