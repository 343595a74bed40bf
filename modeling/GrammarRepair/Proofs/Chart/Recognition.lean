import GrammarRepair.Proofs.Chart.Fill
import GrammarRepair.Proofs.Intersection.Language

/-!
What the full chart answers when it is asked, and what recognition makes of it. The ball of radius
0 around a string accepts that string alone. Main statement: the full chart answers for all states
and rules, it has an entry exactly when the rule derives a string between the states, no cell is
there without an entry, and a string is recognised exactly when it is a sentence.
-/

namespace GrammarRepair

theorem Grammar.Spans.rule_lt {g : Grammar} {aut : Automaton} {p a q : Nat}
    (h : g.Spans aut p a q) : a < g.ruleCount := by
  rcases h.cases with ⟨e, -, -, -, ha⟩ | ⟨b, c, r, ha, -, -⟩
  · exact (g.inRange _ ha).1
  · exact (g.inRange _ ha).1

namespace Chart

variable {g : Grammar} {aut : Automaton} {c : Chart} {n p q a : Nat}

theorem rules_sow (g : Grammar) (aut : Automaton) : (sow g aut).rules = g.ruleCount := by
  rw [sow_eq]
  refine List.foldlRecOn (motive := fun c : Chart => c.rules = g.ruleCount) aut.edges _ rfl ?_
  intro c hc e _
  exact List.foldlRecOn (motive := fun c : Chart => c.rules = g.ruleCount) (g.rulesOf e.token) _ hc
    fun _ hc _ _ => hc

theorem rules_sweepStratum (c : Chart) (s : Stratum) : (c.sweepStratum g s).rules = c.rules :=
  List.foldlRecOn (motive := fun c' : Chart => c'.rules = c.rules) s.visits _ rfl fun _ hc _ _ => hc

theorem rules_fullChart (g : Grammar) (aut : Automaton) :
    (fullChart g aut).value.rules = g.ruleCount :=
  List.foldlRecOn (motive := fun c : Chart => c.rules = g.ruleCount) aut.strata _ (rules_sow g aut)
    fun c hc s _ => (rules_sweepStratum c s).trans hc

theorem Fits.inBounds (h : c.Fits n) (hp : p < n) (hq : q < n) : c.inBounds p q = true := by
  rw [Chart.inBounds, h.size_eq, ← h.states_eq, decide_eq_true_eq]
  exact slot_lt (by rwa [h.states_eq]) (by rwa [h.states_eq])

theorem Fits.has?_eq (h : c.Fits n) (hp : p < n) (ha : a < c.rules) (hq : q < n) :
    c.has? p a q = .ok (c.has p a q) := by
  have hcovers : c.covers p a q = true := by simp [covers, h.inBounds hp hq, ha]
  rw [has?, if_pos hcovers]

theorem Fits.cell?_eq (h : c.Fits n) (hp : p < n) (hq : q < n) :
    c.cell? p q = .ok (if (c.cell p q).isEmpty then none else some (c.members p q)) := by
  rw [cell?, if_pos (h.inBounds hp hq)]

theorem isEmpty_cell_iff : (c.cell p q).isEmpty = true ↔ ∀ a, c.has p a q = false :=
  NatSet.isEmpty_iff _

theorem mem_members : a ∈ c.members p q ↔ a < c.rules ∧ c.has p a q = true :=
  NatSet.mem_below _ _ _

end Chart

variable {g : Grammar} {aut : Automaton} {p q a : Nat}

theorem accepts_ball_zero_iff {tokens alphabet w : List Nat} :
    (ball tokens 0 alphabet).value.accepts w = true ↔ tokens = w := by
  rw [accepts_ball_iff]
  constructor
  · rintro ⟨n, hn, h⟩
    obtain rfl := Nat.le_zero.1 hn
    exact Alignment.zero_iff.1 h
  · intro h
    exact ⟨0, Nat.le_refl 0, Alignment.zero_iff.2 h⟩

theorem value_recognise_iff {w : List Nat} : (recognise g w).value = true ↔ g.IsSentence w := by
  have hvalue : (recognise g w).value = (nonempty g (ball w 0 w).value).value := rfl
  rw [hvalue, nonempty_iff]
  simp [accepts_ball_zero_iff]

theorem has?_fullChart (hp : p < aut.stateCount) (ha : a < g.ruleCount) (hq : q < aut.stateCount) :
    ∃ found, (fullChart g aut).value.has? p a q = .ok found ∧
      (found = true ↔ g.Spans aut p a q) := by
  have hfits := (filling_fullChart g aut).fits
  refine ⟨_, hfits.has?_eq hp ?_ hq, has_fullChart_iff hq⟩
  rwa [Chart.rules_fullChart]

/-- The entries of a cell are among the rules of the grammar, so a cell that has any lists one. -/
theorem cell?_fullChart (hp : p < aut.stateCount) (hq : q < aut.stateCount) :
    ∃ cell, (fullChart g aut).value.cell? p q = .ok cell ∧
      (cell.isSome = true ↔ ∃ a, g.Spans aut p a q) ∧
      ∀ rules, cell = some rules → ∀ a, a ∈ rules ↔ g.Spans aut p a q := by
  have hfits := (filling_fullChart g aut).fits
  refine ⟨_, hfits.cell?_eq hp hq, ?_, ?_⟩
  · have hempty := Chart.isEmpty_cell_iff (c := (fullChart g aut).value) (p := p) (q := q)
    simp only [← Bool.not_eq_true, has_fullChart_iff hq] at hempty
    split
    · next h => simpa using hempty.1 h
    · next h => simpa [hempty] using h
  · intro rules hrules a
    split at hrules
    · cases hrules
    · obtain rfl := Option.some.inj hrules
      rw [Chart.mem_members, has_fullChart_iff hq, Chart.rules_fullChart]
      exact and_iff_right_of_imp Grammar.Spans.rule_lt

/-- The full chart answers for all states and rules: it has an entry exactly when the rule derives
a string that leads from the one state to the other, and a cell is there exactly when it has an
entry. So a string, whatever its tokens are, is recognised exactly when the start rule derives
it. -/
theorem fullChart_holds_spans (g : Grammar) (aut : Automaton) :
    (∀ p a q, p < aut.stateCount → a < g.ruleCount → q < aut.stateCount →
      ∃ found, (fullChart g aut).value.has? p a q = .ok found ∧
        (found = true ↔ ∃ w, g.Derives a w ∧ aut.Path p w q)) ∧
    (∀ p q, p < aut.stateCount → q < aut.stateCount →
      ∃ cell, (fullChart g aut).value.cell? p q = .ok cell ∧
        (cell.isSome = true ↔ ∃ a < g.ruleCount, (fullChart g aut).value.has? p a q = .ok true) ∧
        ∀ rules, cell = some rules → ∀ a, a ∈ rules ↔
          a < g.ruleCount ∧ (fullChart g aut).value.has? p a q = .ok true) ∧
    ∀ w, (recognise g w).value = true ↔ g.Derives g.start w := by
  have hentry : ∀ p a q, p < aut.stateCount → q < aut.stateCount →
      (a < g.ruleCount ∧ (fullChart g aut).value.has? p a q = .ok true ↔ g.Spans aut p a q) := by
    intro p a q hp hq
    constructor
    · rintro ⟨ha, hhas⟩
      obtain ⟨found, hfound, hspans⟩ := has?_fullChart (g := g) hp ha hq
      rw [hfound] at hhas
      exact hspans.1 (Except.ok.inj hhas)
    · intro hspans
      obtain ⟨found, hfound, hiff⟩ := has?_fullChart (g := g) hp hspans.rule_lt hq
      exact ⟨hspans.rule_lt, by rw [hfound, hiff.2 hspans]⟩
  refine ⟨fun p a q hp ha hq => has?_fullChart hp ha hq, ?_, fun w => value_recognise_iff⟩
  intro p q hp hq
  obtain ⟨cell, hcell, hsome, hmem⟩ := cell?_fullChart (g := g) hp hq
  refine ⟨cell, hcell, ?_, fun rules hrules a => ?_⟩
  · rw [hsome]
    exact exists_congr fun a => (hentry p a q hp hq).symm
  · rw [hmem rules hrules, hentry p a q hp hq]

/-- The automaton over three states that reads `'a' 'b'` and `'b' 'b'`. -/
def threeStates : Automaton where
  labels := #[.plain 0, .plain 1, .plain 2]
  edges := [⟨0, 0, 1⟩, ⟨0, 1, 1⟩, ⟨1, 1, 2⟩]
  initials := [0]
  finals := [2]
  nodup_labels := by decide
  source_lt_target := by decide
  target_lt := by decide
  initial_lt := by decide
  final_lt := by decide

theorem fullChart_holds_spans_threeStates :
    (0 < threeStates.stateCount ∧ 0 < twoTokens.ruleCount ∧ 2 < threeStates.stateCount) ∧
      (fullChart twoTokens threeStates).value.has? 0 0 2 = .ok true ∧
      (recognise twoTokens [0, 7]).value = false := by
  obtain ⟨hhas, -, hrecognise⟩ := fullChart_holds_spans twoTokens threeStates
  obtain ⟨found, hfound, hiff⟩ := hhas 0 0 2 (by decide) (by decide) (by decide)
  have hpath : threeStates.Path 0 [0, 1] 2 :=
    .step (e := ⟨0, 0, 1⟩) (by decide) (.step (e := ⟨1, 1, 2⟩) (by decide) (.stop 2))
  have hderives : twoTokens.Derives 0 [0, 1] := isSentence_twoTokens_iff.2 rfl
  refine ⟨by decide, ?_, ?_⟩
  · rw [hfound, hiff.2 ⟨[0, 1], hderives, hpath⟩]
  · rw [← Bool.not_eq_true, hrecognise]
    exact fun h => absurd (isSentence_twoTokens_iff.1 h) (by decide)

end GrammarRepair
