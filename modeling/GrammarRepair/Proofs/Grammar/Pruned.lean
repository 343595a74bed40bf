import GrammarRepair.Proofs.Grammar.Prune

/-!
Which rules a pruned grammar has. The chain of productions by which the start rule leads to a useful
rule is kept link by link, since both parts of every link derive something. Main statement: if the
start rule derives anything, then all rules of the pruned grammar are useful.
-/

namespace GrammarRepair

namespace Grammar

variable {g : Grammar} {a b i : Nat}

/-- Rules that stay have numbers, and numbers belong to rules that stay. -/
theorem exists_rule_of_lt (hall : ¬ g.usefulness.all g.ruleCount = true)
    (hi : i < g.prune.ruleCount) :
    ∃ a, g.prunedRule? a = some i ∧ (a = g.start ∨ g.usefulness.isUseful a = true) := by
  have hsize : g.prune.ruleCount = (g.keptRules g.usefulness).kept.size := by
    unfold prune
    simp only [if_neg hall]
    simp [ruleCount, assemble, withSpans]
  rw [hsize] at hi
  have hkept := Array.getElem?_eq_getElem hi
  obtain ⟨-, hkeeps⟩ := (Renumbering.new?_isSome_iff (g.keeps g.usefulness) g.ruleCount _).1
    (Option.isSome_iff_exists.2 ⟨i, (Renumbering.new?_eq_some_iff _ _ _ _).2 hkept⟩)
  refine ⟨_, (Renumbering.new?_eq_some_iff _ _ _ _).2 hkept, ?_⟩
  simpa [keeps] using hkeeps

theorem Leads.exists_prune (hall : ¬ g.usefulness.all g.ruleCount = true) (h : g.Leads a b)
    (hreach : Relation.ReflTransGen g.Leads g.start a) (ha : g.prunedRule? a = some i) :
    ∃ j, g.prunedRule? b = some j ∧ g.prune.Leads i j := by
  obtain ⟨l, r, hp, hb, hv, hw⟩ := h
  obtain ⟨j, k, hj, hk, hmem⟩ := exists_prunedPair hall hp hv hw hreach ha
  have hl := hreach.tail ⟨l, r, hp, .inl rfl, hv, hw⟩
  have hr := hreach.tail ⟨l, r, hp, .inr rfl, hv, hw⟩
  obtain ⟨v, hv⟩ := hv
  obtain ⟨w, hw⟩ := hw
  have hv' := prune_derives hall hv hl hj
  have hw' := prune_derives hall hw hr hk
  rcases hb with rfl | rfl
  · exact ⟨j, hj, j, k, hmem, .inl rfl, ⟨v, hv'⟩, w, hw'⟩
  · exact ⟨k, hk, j, k, hmem, .inr rfl, ⟨v, hv'⟩, w, hw'⟩

theorem exists_reach_prune (hall : ¬ g.usefulness.all g.ruleCount = true)
    (hreach : Relation.ReflTransGen g.Leads g.start a) : ∃ i, g.prunedRule? a = some i ∧
      Relation.ReflTransGen g.prune.Leads g.prune.start i := by
  induction hreach with
  | refl =>
    obtain ⟨i, hi, -⟩ := g.keptRules_start g.usefulness
    have hstart : g.prune.start = i := by
      rw [(prune_of_not_all hall).2, show g.prunedRule? g.start = some i from hi]
      rfl
    exact ⟨i, hi, hstart ▸ .refl⟩
  | tail hreach hstep ih =>
    obtain ⟨i, hi, hchain⟩ := ih
    obtain ⟨j, hj, hleads⟩ := hstep.exists_prune hall hreach hi
    exact ⟨j, hj, hchain.tail hleads⟩

/-- A grammar with a sentence is left with useful rules only. -/
theorem isUseful_prune (h : ∃ v, g.IsSentence v) (hi : i < g.prune.ruleCount) :
    g.prune.usefulness.isUseful i = true := by
  by_cases hall : g.usefulness.all g.ruleCount = true
  · rw [prune_of_all hall] at hi ⊢
    exact List.all_eq_true.1 hall i (List.mem_range.2 hi)
  · obtain ⟨a, ha, hkept⟩ := exists_rule_of_lt hall hi
    have huseful : (∃ v, g.Derives a v) ∧ Relation.ReflTransGen g.Leads g.start a := by
      rcases hkept with rfl | hkept
      · exact ⟨h, .refl⟩
      · exact isUseful_iff.1 hkept
    obtain ⟨⟨v, hv⟩, hreach⟩ := huseful
    obtain ⟨j, hj, hchain⟩ := exists_reach_prune hall hreach
    obtain rfl := Option.some.inj (ha.symm.trans hj)
    exact isUseful_iff.2 ⟨⟨v, prune_derives hall hv hreach ha⟩, hchain⟩

end Grammar

end GrammarRepair
