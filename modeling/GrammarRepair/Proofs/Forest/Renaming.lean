import GrammarRepair.Proofs.Forest.Kept
import GrammarRepair.Proofs.Grammar.Kept

/-!
The constituents of a pruned grammar. Every table of the pruned grammar is the old one with the rules
renamed and the useless ones left out, and so is the list of constituents in the order of their
creation. Main statements: what is needed keeps its rule, a pruned grammar needs the renamed
constituents that the grammar needs, and in the same order.
-/

namespace GrammarRepair

theorem flatMap_filterMap {α β γ : Type} (f : α → Option β) (block : β → List γ) (xs : List α) :
    (xs.filterMap f).flatMap block = xs.flatMap fun x => (f x).elim [] block := by
  induction xs with
  | nil => rfl
  | cons x xs ih =>
    rw [List.filterMap_cons, List.flatMap_cons, ← ih]
    cases f x <;> rfl

namespace Grammar

variable {g : Grammar} {a b c i x : Nat}

def prunedPair? (g : Grammar) (pair : Nat × Nat × Nat) : Option (Nat × Nat × Nat) := do
  let head ← g.prunedRule? pair.1
  if g.usefulness.isUseful pair.2.1 && g.usefulness.isUseful pair.2.2 then
    pure (head, ← g.prunedRule? pair.2.1, ← g.prunedRule? pair.2.2)
  else none

theorem prunedPair?_eq_some_iff {j k : Nat} : g.prunedPair? (a, b, c) = some (i, j, k) ↔
    g.prunedRule? a = some i ∧ g.prunedRule? b = some j ∧ g.prunedRule? c = some k ∧
      g.usefulness.isUseful b = true ∧ g.usefulness.isUseful c = true := by
  unfold prunedPair?
  cases g.prunedRule? a with
  | none => simp
  | some i' =>
    cases g.usefulness.isUseful b with
    | false => simp
    | true =>
      cases g.usefulness.isUseful c with
      | false => simp
      | true =>
        cases g.prunedRule? b <;> cases g.prunedRule? c <;> simp

theorem pruneProduction?_token (a x : Nat) :
    pruneProduction? g.usefulness (g.keptRules g.usefulness) ⟨a, .token x⟩ =
      (g.prunedRule? a).map (⟨·, .token x⟩) := by
  unfold pruneProduction? prunedRule?
  cases (g.keptRules g.usefulness).new? a <;> rfl

theorem pruneProduction?_pair (a b c : Nat) :
    pruneProduction? g.usefulness (g.keptRules g.usefulness) ⟨a, .pair b c⟩ =
      (g.prunedPair? (a, b, c)).map fun pair => ⟨pair.1, .pair pair.2.1 pair.2.2⟩ := by
  unfold pruneProduction? prunedPair? prunedRule?
  dsimp only
  cases (g.keptRules g.usefulness).new? a with
  | none => rfl
  | some i =>
    cases (g.usefulness.isUseful b && g.usefulness.isUseful c) with
    | false => rfl
    | true =>
      cases (g.keptRules g.usefulness).new? b <;> cases (g.keptRules g.usefulness).new? c <;> rfl

theorem pairs_prune (g : Grammar) : g.prune.pairs = g.pairs.filterMap g.prunedPair? := by
  rw [pairs_eq, pairs_eq, productions_prune, prunedProductions, List.filterMap_filterMap,
    List.filterMap_filterMap]
  refine List.filterMap_congr fun p _ => ?_
  obtain ⟨a, body⟩ := p
  cases body with
  | token x =>
    rw [pruneProduction?_token]
    cases g.prunedRule? a <;> rfl
  | pair b c =>
    rw [pruneProduction?_pair]
    change _ = g.prunedPair? (a, b, c)
    cases g.prunedPair? (a, b, c) <;> rfl

theorem rulesOf_prune (g : Grammar) (x : Nat) :
    g.prune.rulesOf x = (g.rulesOf x).filterMap g.prunedRule? := by
  rw [rulesOf_eq, rulesOf_eq, ← distinct_filterMap fun _ _ _ => prunedRule?_injective,
    productions_prune, prunedProductions, List.filterMap_filterMap, List.filterMap_filterMap]
  congr 1
  refine List.filterMap_congr fun p _ => ?_
  obtain ⟨a, body⟩ := p
  cases body with
  | token y =>
    rw [pruneProduction?_token]
    by_cases hy : y = x
    · cases ha : g.prunedRule? a <;> simp [Production.headOf?, hy, ha]
    · cases g.prunedRule? a <;> simp [Production.headOf?, hy]
  | pair b c =>
    rw [pruneProduction?_pair]
    cases g.prunedPair? (a, b, c) <;> rfl

theorem mem_productions_prune_token : ⟨i, .token x⟩ ∈ g.prune.productions.toList ↔
    ∃ a, g.prunedRule? a = some i ∧ ⟨a, .token x⟩ ∈ g.productions.toList := by
  rw [productions_prune, mem_prunedProductions_token]

theorem mem_productions_prune_pair {j k : Nat} :
    ⟨i, .pair j k⟩ ∈ g.prune.productions.toList ↔
      ∃ a b c, g.prunedPair? (a, b, c) = some (i, j, k) ∧
        ⟨a, .pair b c⟩ ∈ g.productions.toList := by
  simp only [productions_prune, mem_prunedProductions_pair, prunedPair?_eq_some_iff, and_assoc]

/-- What a useful rule stands over, its number stands over after pruning. -/
theorem spans_prune_iff {aut : Automaton} {p q : Nat} (ha : g.prunedRule? a = some i) :
    g.prune.Spans aut p i q ↔ g.Spans aut p a q := by
  simp only [Spans, derives_prune_iff ha]

end Grammar

namespace Constituent

variable {g : Grammar} {aut : Automaton} {t u t' u' l r l' r' : Constituent} {v : Visit} {d : Nat}

def renamed? (g : Grammar) (t : Constituent) : Option Constituent :=
  (g.prunedRule? t.rule).map fun i => ⟨t.source, i, t.target⟩

theorem renamed?_eq_some_iff : renamed? g t = some t' ↔
    t'.source = t.source ∧ t'.target = t.target ∧ g.prunedRule? t.rule = some t'.rule := by
  rw [renamed?, Option.map_eq_some_iff]
  constructor
  · rintro ⟨i, hi, rfl⟩
    exact ⟨rfl, rfl, hi⟩
  · rintro ⟨hsource, htarget, hi⟩
    exact ⟨t'.rule, hi, by rw [← hsource, ← htarget]⟩

theorem renamed?_mk {a i p q : Nat} (ha : g.prunedRule? a = some i) :
    renamed? g ⟨p, a, q⟩ = some ⟨p, i, q⟩ :=
  renamed?_eq_some_iff.2 ⟨rfl, rfl, ha⟩

theorem renamed?_injective (ht : renamed? g t = some t') (hu : renamed? g u = some t') : t = u := by
  obtain ⟨hsource, htarget, ht⟩ := renamed?_eq_some_iff.1 ht
  obtain ⟨hsource', htarget', hu⟩ := renamed?_eq_some_iff.1 hu
  obtain ⟨p, a, q⟩ := t
  obtain ⟨p', a', q'⟩ := u
  obtain rfl := hsource.symm.trans hsource'
  obtain rfl := htarget.symm.trans htarget'
  obtain rfl := Grammar.prunedRule?_injective ht hu
  rfl

theorem spanned_renamed_iff (ht : renamed? g t = some t') :
    t'.Spanned g.prune aut ↔ t.Spanned g aut := by
  obtain ⟨hsource, htarget, hrule⟩ := renamed?_eq_some_iff.1 ht
  rw [Spanned, Spanned, hsource, htarget, Grammar.spans_prune_iff hrule]

theorem Splits.leads (h : t.Splits g aut l r) :
    g.Leads t.rule l.rule ∧ g.Leads t.rule r.rule := by
  obtain ⟨b, c, m, hp, rfl, rfl, ⟨v, hv, -⟩, w, hw, -⟩ := h
  exact ⟨⟨b, c, hp, .inl rfl, ⟨v, hv⟩, w, hw⟩, ⟨b, c, hp, .inr rfl, ⟨v, hv⟩, w, hw⟩⟩

/-- The rule of whatever is needed is useful. -/
theorem Needed.isUseful (h : t.Needed g aut) : g.usefulness.isUseful t.rule = true := by
  have hreach : Relation.ReflTransGen g.Leads g.start t.rule := by
    induction h with
    | start hp hq h => exact .refl
    | part h hy ih =>
      obtain ⟨l, r, hsplits, rfl | rfl⟩ := hy
      · exact ih.tail hsplits.leads.1
      · exact ih.tail hsplits.leads.2
  obtain ⟨w, hw, -⟩ := h.spanned
  exact Grammar.isUseful_iff.2 ⟨⟨w, hw⟩, hreach⟩

theorem Needed.exists_renamed (h : t.Needed g aut) : ∃ t', renamed? g t = some t' := by
  have hlt : t.rule < g.ruleCount := by
    obtain ⟨w, hw, -⟩ := h.spanned
    cases hw with
    | token hp => exact (g.inRange _ hp).1
    | pair hp => exact (g.inRange _ hp).1
  obtain ⟨i, hi⟩ := Grammar.exists_prunedRule? h.isUseful hlt
  exact ⟨_, renamed?_mk hi⟩

theorem Splits.prune (h : t.Splits g aut l r) (ht : renamed? g t = some t')
    (hl : g.usefulness.isUseful l.rule = true) (hr : g.usefulness.isUseful r.rule = true)
    (hl' : renamed? g l = some l') (hr' : renamed? g r = some r') :
    t'.Splits g.prune aut l' r' := by
  have hspanl : l.Spanned g aut → l'.Spanned g.prune aut := (spanned_renamed_iff hl').2
  have hspanr : r.Spanned g aut → r'.Spanned g.prune aut := (spanned_renamed_iff hr').2
  obtain ⟨hsource, htarget, hrule⟩ := renamed?_eq_some_iff.1 ht
  obtain ⟨b, c, m, hp, rfl, rfl, hb, hc⟩ := h
  obtain ⟨j, hj, rfl⟩ := Option.map_eq_some_iff.1 hl'
  obtain ⟨k, hk, rfl⟩ := Option.map_eq_some_iff.1 hr'
  refine ⟨j, k, m, Grammar.mem_productions_prune_pair.2 ⟨t.rule, b, c, ?_, hp⟩, ?_, ?_, hspanl hb,
    hspanr hc⟩
  · exact Grammar.prunedPair?_eq_some_iff.2 ⟨hrule, hj, hk, hl, hr⟩
  · rw [hsource]
  · rw [htarget]

theorem Splits.of_prune (h : t'.Splits g.prune aut l' r') (ht : renamed? g t = some t') :
    ∃ l r, renamed? g l = some l' ∧ renamed? g r = some r' ∧ t.Splits g aut l r := by
  obtain ⟨hsource, htarget, hrule⟩ := renamed?_eq_some_iff.1 ht
  obtain ⟨j, k, m, hp, rfl, rfl, hb, hc⟩ := h
  obtain ⟨a, b, c, hpair, hp⟩ := Grammar.mem_productions_prune_pair.1 hp
  obtain ⟨ha, hj, hk, -, -⟩ := Grammar.prunedPair?_eq_some_iff.1 hpair
  obtain rfl := Grammar.prunedRule?_injective hrule ha
  have hl : renamed? g ⟨t.source, b, m⟩ = some ⟨t'.source, j, m⟩ := by
    rw [hsource]
    exact renamed?_mk hj
  have hr : renamed? g ⟨m, c, t.target⟩ = some ⟨m, k, t'.target⟩ := by
    rw [htarget]
    exact renamed?_mk hk
  exact ⟨_, _, hl, hr, b, c, m, hp, rfl, rfl, (spanned_renamed_iff hl).1 hb,
    (spanned_renamed_iff hr).1 hc⟩

theorem Needed.prune (h : t.Needed g aut) :
    ∀ t', renamed? g t = some t' → t'.Needed g.prune aut := by
  induction h with
  | @start p q hp hq hspans =>
    intro t' ht
    rw [renamed?_mk (Grammar.prunedRule?_start g)] at ht
    cases ht
    exact .start hp hq ((Grammar.spans_prune_iff (Grammar.prunedRule?_start g)).2 hspans)
  | @part t y h hy ih =>
    intro y' hy'
    obtain ⟨t', ht⟩ := h.exists_renamed
    obtain ⟨l, r, hsplits, hpart⟩ := hy
    have hl := h.part ⟨l, r, hsplits, .inl rfl⟩
    have hr := h.part ⟨l, r, hsplits, .inr rfl⟩
    obtain ⟨l', hl'⟩ := hl.exists_renamed
    obtain ⟨r', hr'⟩ := hr.exists_renamed
    refine (ih t' ht).part ⟨l', r', hsplits.prune ht hl.isUseful hr.isUseful hl' hr', ?_⟩
    rcases hpart with rfl | rfl
    · exact .inl (Option.some.inj (hy'.symm.trans hl'))
    · exact .inr (Option.some.inj (hy'.symm.trans hr'))

theorem Needed.of_prune (h : t'.Needed g.prune aut) :
    ∃ t, renamed? g t = some t' ∧ t.Needed g aut := by
  induction h with
  | start hp hq hspans =>
    exact ⟨_, renamed?_mk (Grammar.prunedRule?_start g),
      .start hp hq ((Grammar.spans_prune_iff (Grammar.prunedRule?_start g)).1 hspans)⟩
  | part h hy ih =>
    obtain ⟨t, ht, hneeded⟩ := ih
    obtain ⟨l', r', hsplits, hpart⟩ := hy
    obtain ⟨l, r, hl, hr, hold⟩ := hsplits.of_prune ht
    rcases hpart with rfl | rfl
    · exact ⟨l, hl, hneeded.part ⟨l, r, hold, .inl rfl⟩⟩
    · exact ⟨r, hr, hneeded.part ⟨l, r, hold, .inr rfl⟩⟩

theorem needed_renamed_iff (ht : renamed? g t = some t') :
    t'.Needed g.prune aut ↔ t.Needed g aut := by
  constructor
  · intro h
    obtain ⟨u, hu, hneeded⟩ := h.of_prune
    rwa [renamed?_injective ht hu]
  · exact fun h => h.prune t' ht

theorem isNeeded_renamed (ht : renamed? g t = some t') :
    isNeeded g.prune aut t' = isNeeded g aut t := by
  rw [Bool.eq_iff_iff, isNeeded_iff, isNeeded_iff, needed_renamed_iff ht]

theorem exists_needed_prune_iff (g : Grammar) (aut : Automaton) :
    (∃ t, Needed g.prune aut t) ↔ ∃ t, Needed g aut t := by
  constructor
  · rintro ⟨t', h⟩
    obtain ⟨t, -, h⟩ := h.of_prune
    exact ⟨t, h⟩
  · rintro ⟨t, h⟩
    obtain ⟨t', ht⟩ := h.exists_renamed
    exact ⟨t', h.prune t' ht⟩

end Constituent

end GrammarRepair
