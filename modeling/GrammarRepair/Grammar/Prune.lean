import GrammarRepair.Grammar.Usefulness
import GrammarRepair.Renumbering

/-!
Removing the rules of a grammar that no sentence needs. The start rule always stays, even if it is
left without productions; tokens are never touched.
-/

namespace GrammarRepair

namespace Grammar

def keeps (g : Grammar) (u : Usefulness) (rule : Nat) : Bool := rule == g.start || u.isUseful rule

/-- The new numbers of the rules that stay. -/
def keptRules (g : Grammar) (u : Usefulness) : Renumbering :=
  Renumbering.ofKeep g.ruleCount (g.keeps u)

/-- A production of a rule that stays; a pair stays only if both its rules are useful. -/
def pruneProduction? (u : Usefulness) (r : Renumbering) (p : Production) : Option Production := do
  let head ← r.new? p.head
  match p.body with
  | .token t => pure ⟨head, .token t⟩
  | .pair b c =>
    if u.isUseful b && u.isUseful c then pure ⟨head, .pair (← r.new? b) (← r.new? c)⟩ else none

theorem keptRules_start (g : Grammar) (u : Usefulness) :
    ∃ i, (g.keptRules u).new? g.start = some i ∧ i < (g.keptRules u).kept.size := by
  have h : ((g.keptRules u).new? g.start).isSome :=
    (Renumbering.new?_isSome_iff _ _ _).2 ⟨g.start_lt, by simp [keeps]⟩
  obtain ⟨i, hi⟩ := Option.isSome_iff_exists.1 h
  exact ⟨i, hi, Renumbering.new?_lt _ hi⟩

theorem pruneProduction?_inRange {g : Grammar} {u : Usefulness} {p q : Production}
    (hp : p.InRange g.ruleCount g.tokenCount)
    (h : pruneProduction? u (g.keptRules u) p = some q) :
    q.InRange (g.keptRules u).kept.size g.tokenCount := by
  unfold pruneProduction? at h
  obtain ⟨head, hhead, h⟩ := Option.bind_eq_some_iff.1 h
  have hlt := Renumbering.new?_lt _ hhead
  cases hb : p.body with
  | token t =>
    rw [hb] at h
    cases h
    have := hp.2
    rw [hb] at this
    exact ⟨hlt, this⟩
  | pair b c =>
    rw [hb] at h
    simp only at h
    split at h
    · obtain ⟨b', hb', h⟩ := Option.bind_eq_some_iff.1 h
      obtain ⟨c', hc', h⟩ := Option.bind_eq_some_iff.1 h
      cases h
      exact ⟨hlt, Renumbering.new?_lt _ hb', Renumbering.new?_lt _ hc'⟩
    · cases h

theorem nodup_keptNames (g : Grammar) (u : Usefulness) :
    ((g.keptRules u).kept.toList.map g.ruleName).Nodup := by
  have hkept : (g.keptRules u).kept.toList = (List.range g.ruleCount).filter (g.keeps u) :=
    Renumbering.kept_eq _ _
  have hnd : (g.keptRules u).kept.toList.Nodup := by
    rw [hkept]
    exact List.nodup_range.filter _
  have hlt : ∀ i ∈ (g.keptRules u).kept.toList, i < g.ruleNames.size := by
    intro i hi
    rw [hkept] at hi
    simpa [ruleCount] using (List.mem_filter.1 hi).1
  rw [List.Nodup, List.pairwise_map]
  refine List.Pairwise.imp_of_mem ?_ hnd
  intro i j hi hj hij heq
  have hi' := hlt i hi
  have hj' := hlt j hj
  have hnames := g.nodup_ruleNames
  rw [List.Nodup, List.pairwise_iff_getElem] at hnames
  simp only [ruleName, Array.getD_eq_getD_getElem?, Array.getElem?_eq_getElem hi',
    Array.getElem?_eq_getElem hj', Option.getD_some] at heq
  rcases Nat.lt_or_gt_of_ne hij with h | h
  · exact hnames i j (by simpa using hi') (by simpa using hj') h (by simpa using heq)
  · exact hnames j i (by simpa using hj') (by simpa using hi') h (by simpa using heq.symm)

/-- The grammar of the useful rules and the start rule, renumbered in their old order. -/
def prune (g : Grammar) : Grammar :=
  let u := g.usefulness
  if u.all g.ruleCount then g
  else
    let r := g.keptRules u
    let productions := g.productions.toList.filterMap (pruneProduction? u r)
    let pruned := assemble (r.kept.toList.map g.ruleName) ((r.new? g.start).getD 0)
      g.tokenNames.toList productions (g.nodup_keptNames u) g.nodup_tokenNames
      (by
        obtain ⟨i, hi, hlt⟩ := g.keptRules_start u
        simpa [r, hi] using hlt)
      (by
        intro q hq
        obtain ⟨p, hp, hpq⟩ := List.mem_filterMap.1 hq
        simpa [tokenCount] using pruneProduction?_inRange (g.inRange p hp) hpq)
    pruned.withSpans (r.kept.map fun rule => g.ruleSpans.getD rule none) g.tokenSpans
      (by simp [pruned, assemble])
      (by simp [pruned, assemble, g.size_tokenSpans])

end Grammar

end GrammarRepair
