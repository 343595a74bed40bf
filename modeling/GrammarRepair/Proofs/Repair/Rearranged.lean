import GrammarRepair.Proofs.Automaton.Rearranged
import GrammarRepair.Repair.Basic

/-!
Searches with the same alphabet. A search looks at its alphabet only through the balls that it makes,
and a ball does not remember how its alphabet was listed. Main statement: whatever climbs the grid
makes the same automaton in any order, and charts, forests, intersections and searches over balls
are the same, events included, for alphabets with the same tokens.
-/

namespace GrammarRepair

namespace RepairSettings

/-- Settings that lead to the same balls and do the same with them. -/
structure SearchesAlike (s s' : RepairSettings) (g : Grammar) : Prop where
  maxRadius_eq : s.maxRadius = s'.maxRadius
  strategy_eq : s.strategy = s'.strategy
  templated_eq : s.templated = s'.templated
  ballAround_eq : s.ballAround g = s'.ballAround g

namespace SearchesAlike

variable {s s' : RepairSettings} {g : Grammar}

theorem tryRadius_eq (h : s.SearchesAlike s' g) (input : List Nat) (radius : Nat) :
    s.tryRadius g input radius = s'.tryRadius g input radius := by
  rw [tryRadius, tryRadius, h.ballAround_eq, h.strategy_eq]

theorem searchFrom_eq (h : s.SearchesAlike s' g) (input : List Nat) (steps radius : Nat) :
    s.searchFrom g input steps radius = s'.searchFrom g input steps radius := by
  induction steps generalizing radius with
  | zero => rfl
  | succ steps ih => rw [searchFrom, searchFrom, h.tryRadius_eq, ih]

theorem nearest_eq (h : s.SearchesAlike s' g) : s.nearest g = s'.nearest g := by
  funext input
  rw [nearest, nearest, h.maxRadius_eq, h.searchFrom_eq]

theorem led_eq (h : s.SearchesAlike s' g) : s.led g = s'.led g := by
  funext w names
  rw [led, led, h.nearest_eq, h.maxRadius_eq]

theorem repairs_eq (h : s.SearchesAlike s' g) : s.repairs g = s'.repairs g := by
  have hforest : s.forestOver g = s'.forestOver g := by
    funext aut
    rw [forestOver, forestOver, h.templated_eq]
  funext input
  rw [repairs, repairs, h.nearest_eq, h.ballAround_eq, hforest]

end SearchesAlike

theorem searchesAlike_of_sameItems {alphabet alphabet' : List Nat}
    (h : SameItems alphabet alphabet') (s : RepairSettings) (g : Grammar) :
    { s with alphabet := some alphabet }.SearchesAlike { s with alphabet := some alphabet' } g :=
  ⟨rfl, rfl, rfl, funext fun input => funext fun radius => ball_rearranged h input radius⟩

end RepairSettings

open Automaton in
/-- Transitions that climb the grid make an automaton, the same in any order and with any
repetitions; and alphabets with the same tokens make the same balls, over which everything is the
same. -/
theorem rearranged_automata_and_balls_agree :
    (∀ {ts ts' : List Transition} {initials initials' finals finals' : List Label},
      SameItems ts ts' → SameItems initials initials' → SameItems finals finals' →
      (∀ t ∈ ts, t.Climbs) → (∀ l ∈ initials, l.isGrid = true) → (∀ l ∈ finals, l.isGrid = true) →
        ofTransitions ts initials finals = ofTransitions ts' initials' finals' ∧
          (initials ≠ [] → ∃ built, ofTransitions ts initials finals = .ok built)) ∧
    ∀ {alphabet alphabet' : List Nat}, SameItems alphabet alphabet' →
      (∀ tokens radius, ball tokens radius alphabet = ball tokens radius alphabet' ∧
        ∀ g : Grammar,
          let aut := (ball tokens radius alphabet).value
          let aut' := (ball tokens radius alphabet').value
          intersect g aut = intersect g aut' ∧ fullChart g aut = fullChart g aut' ∧
            ∀ template, forest g aut template = forest g aut' template) ∧
      ∀ (s : RepairSettings) (g : Grammar),
        { s with alphabet := some alphabet }.led g =
            { s with alphabet := some alphabet' }.led g ∧
          { s with alphabet := some alphabet }.repairs g =
            { s with alphabet := some alphabet' }.repairs g := by
  refine ⟨fun hts hinitials hfinals hclimbs hi hf => ?_, fun h => ⟨fun tokens radius => ?_, ?_⟩⟩
  · have hgrid := Transition.followsGrid_of_climbs hclimbs hi hf
    exact ⟨ofTransitions_rearranged hts hinitials hfinals hgrid,
      fun hsome => ⟨_, ofTransitions_of_followsGrid hsome hgrid⟩⟩
  · have hball := ball_rearranged h tokens radius
    refine ⟨hball, fun g => ?_⟩
    rw [hball]
    exact ⟨rfl, rfl, fun template => rfl⟩
  · intro s g
    have halike := RepairSettings.searchesAlike_of_sameItems h s g
    exact ⟨halike.led_eq, halike.repairs_eq⟩

/-- Two transitions to one point in either order, one of them once more, and final states likewise. -/
theorem rearranged_automata_and_balls_agree_corner :
    let ts : List Transition := [⟨.grid 0 1, 5, .grid 1 1⟩, ⟨.grid 0 0, 5, .grid 1 1⟩]
    let ts' : List Transition :=
      [⟨.grid 0 0, 5, .grid 1 1⟩, ⟨.grid 0 1, 5, .grid 1 1⟩, ⟨.grid 0 0, 5, .grid 1 1⟩]
    let initials := [Label.grid 0 0]
    let finals := [Label.grid 1 1, .grid 0 1]
    let finals' := [Label.grid 0 1, .grid 1 1, .grid 0 1]
    (SameItems ts ts' ∧ SameItems finals finals' ∧ (∀ t ∈ ts, t.Climbs) ∧
      (∀ l ∈ initials, l.isGrid = true) ∧ (∀ l ∈ finals, l.isGrid = true) ∧ initials ≠ [] ∧
      Automaton.ofTransitions ts initials finals = Automaton.ofTransitions ts' initials finals' ∧
      ∃ built, Automaton.ofTransitions ts initials finals = .ok built) ∧
    SameItems [3, 4] [4, 3, 4] ∧ ball [7] 1 [3, 4] = ball [7] 1 [4, 3, 4] := by
  intro ts ts' initials finals finals'
  have hts : SameItems ts ts' := by
    intro t
    simp only [ts, ts', List.mem_cons]
    tauto
  have hfinals : SameItems finals finals' := by
    intro l
    simp only [finals, finals', List.mem_cons]
    tauto
  have hclimbs : ∀ t ∈ ts, t.Climbs := by
    simp only [ts, List.forall_mem_cons]
    exact ⟨⟨0, 1, 1, 1, rfl, rfl, .inl (by decide)⟩, ⟨0, 0, 1, 1, rfl, rfl, .inl (by decide)⟩,
      List.forall_mem_nil _⟩
  have halphabet : SameItems [3, 4] [4, 3, 4] := by
    intro t
    simp only [List.mem_cons]
    tauto
  have hi : ∀ l ∈ initials, l.isGrid = true := by decide
  have hf : ∀ l ∈ finals, l.isGrid = true := by decide
  have hsome : initials ≠ [] := List.cons_ne_nil _ _
  obtain ⟨hsame, hbuilt⟩ := rearranged_automata_and_balls_agree.1 hts (fun _ => Iff.rfl) hfinals
    hclimbs hi hf
  obtain ⟨hballs, -⟩ := rearranged_automata_and_balls_agree.2 halphabet
  exact ⟨⟨hts, hfinals, hclimbs, hi, hf, hsome, hsame, hbuilt hsome⟩, halphabet,
    (hballs [7] 1).1⟩

end GrammarRepair
