import GrammarRepair.Proofs.Chart.Template
import GrammarRepair.Proofs.Forest.Kept
import GrammarRepair.Repair.Basic
import Mathlib.Data.List.TakeWhile

/-!
Forests made in one pass and in two. A template holds what is needed, and without a template all that
derives something is let in; a forest keeps the same of both. Main statements: making a forest without
a template or with that of the full chart never fails, and both ways give the same forest, so the
repairs of an input do not depend on the way either.
-/

namespace GrammarRepair

open Constituent

variable {g : Grammar} {aut : Automaton} {template : Option Chart} {inside : Constituent → Bool}

/-- What a search for a forest ought to find: nothing if nothing is needed, and the forest of all that
is needed otherwise. -/
structure Forest.Found (g : Grammar) (aut : Automaton) (found : Option Forest) : Prop where
  isSome_iff : found.isSome = true ↔ ∃ t, Needed g aut t
  isFull : ∀ f, found = some f → f.IsFull g aut

theorem Forest.Found.unique {found found' : Option Forest} (h : Found g aut found)
    (h' : Found g aut found') : found = found' := by
  have hsome : found.isSome = found'.isSome := by
    rw [Bool.eq_iff_iff, h.isSome_iff, h'.isSome_iff]
  cases found with
  | none =>
    cases found' with
    | none => rfl
    | some f' => cases hsome
  | some f =>
    cases found' with
    | none => cases hsome
    | some f' => rw [(h.isFull f rfl).unique (h'.isFull f' rfl)]

theorem starts_grow_isEmpty_iff {a : Arena}
    (h : a.Lists g aut inside (creationOrder g aut inside)) (hclosed : PartClosed g aut inside)
    (hneeded : ∀ t : Constituent, t.Needed g aut → inside t = true) :
    (a.starts g aut).isEmpty = true ↔ ¬ ∃ t, Needed g aut t := by
  rw [h.starts_eq fun t => hclosed.mem_creationOrder, List.isEmpty_iff, List.map_eq_nil_iff,
    List.eq_nil_iff_forall_not_mem]
  constructor
  · rintro hnone ⟨t, ht⟩
    obtain ⟨p, hp, q, hq, hspans⟩ := ht.exists_start
    exact hnone _ (mem_startLabels.2 ⟨hneeded _ (.start hp hq hspans), p, hp, q, hq, rfl⟩)
  · rintro hnone t ht
    obtain ⟨hinside, p, hp, q, hq, rfl⟩ := mem_startLabels.1 ht
    exact hnone ⟨_, .start hp hq (hclosed.spanned _ hinside)⟩

/-- A search for a forest sweeps all strata and finds what it ought to, if its template can answer all
that is asked and lets in all that is needed. -/
theorem exists_forest_eq (hedges : edgesCovered g aut template = true)
    (hstrata : ∀ s ∈ aut.strata, stratumCovered g template s = true)
    (hclosed : PartClosed g aut inside)
    (hallowed : ∀ t : Constituent, t.Spanned g aut → allowedBy template t = inside t)
    (hneeded : ∀ t : Constituent, t.Needed g aut → inside t = true) :
    ∃ found, forest g aut template = ⟨aut.strata.map (·.event), .ok found⟩ ∧
      Forest.Found g aut found := by
  have hall : aut.strata.takeWhile (stratumCovered g template) = aut.strata :=
    List.takeWhile_eq_self_iff.2 hstrata
  have hlists := Arena.lists_grow (hclosed.admits hallowed)
  have hempty := starts_grow_isEmpty_iff hlists hclosed hneeded
  unfold forest
  rw [if_pos hedges]
  simp only [hall, Nat.lt_irrefl, if_false]
  refine ⟨_, rfl, ?_⟩
  split
  · next hnone =>
    refine ⟨by simp [hempty.1 hnone], fun f hf => ?_⟩
    cases hf
  · next hsome =>
    refine ⟨iff_of_true rfl (not_not.1 fun h => hsome (hempty.2 h)), fun f hf => ?_⟩
    rw [← Option.some.inj hf]
    exact Forest.isFull_ofArena hlists hclosed hneeded

open Classical in
theorem exists_forest_none (g : Grammar) (aut : Automaton) :
    ∃ found, forest g aut none = ⟨aut.strata.map (·.event), .ok found⟩ ∧
      Forest.Found g aut found := by
  have hclosed : PartClosed g aut fun t => decide (t.Spanned g aut) := by
    constructor
    · intro t ht
      exact of_decide_eq_true ht
    · intro t l r _ hsplits
      exact ⟨decide_eq_true (HasPart.spanned ⟨l, r, hsplits, .inl rfl⟩),
        decide_eq_true (HasPart.spanned ⟨l, r, hsplits, .inr rfl⟩)⟩
  refine exists_forest_eq ?_ (fun s _ => ?_) hclosed (fun t ht => ?_) fun t ht => ?_
  · simp [edgesCovered, coveredBy]
  · simp [stratumCovered, coveredBy]
  · rw [allowedBy, decide_eq_true ht]
  · exact decide_eq_true ht.spanned

/-- A chart that could be the template of a grammar over an automaton answers all that is asked. -/
theorem coveredBy_of_fits {c : Chart} {t : Constituent} (hfits : c.Fits aut.stateCount)
    (hrules : c.rules = g.ruleCount) (hsource : t.source < aut.stateCount)
    (hrule : t.rule < g.ruleCount) (htarget : t.target < aut.stateCount) :
    coveredBy (some c) t = true := by
  simp [coveredBy, Chart.covers, hfits.inBounds hsource htarget, hrules, hrule]

theorem exists_forest_some {c : Chart} (hfits : c.Fits aut.stateCount)
    (hrules : c.rules = g.ruleCount)
    (hholds : ∀ t : Constituent, t.target < aut.stateCount → (c.Holds t ↔ t.Needed g aut)) :
    ∃ found, forest g aut (some c) = ⟨aut.strata.map (·.event), .ok found⟩ ∧
      Forest.Found g aut found := by
  refine exists_forest_eq ?_ (fun s hs => ?_) (partClosed_isNeeded g aut) (fun t ht => ?_)
    fun t ht => isNeeded_iff.2 ht
  · simp only [edgesCovered, List.all_eq_true]
    intro e he a ha
    have htarget := aut.target_lt e he
    have hrule := (g.inRange _ (Grammar.mem_rulesOf.1 ha)).1
    exact coveredBy_of_fits hfits hrules (Nat.lt_trans (aut.source_lt_target e he) htarget) hrule
      htarget
  · obtain ⟨d, -, rfl⟩ := List.mem_map.1 hs
    simp only [stratumCovered, List.all_eq_true]
    rintro v hv ⟨a, b, b'⟩ hpair
    have hvisit := (Chart.mem_visits_iff.1 hv).1
    have hrule := (g.inRange _ (Grammar.mem_pairs.1 hpair)).1
    exact coveredBy_of_fits hfits hrules hvisit.source_lt_stateCount hrule hvisit.target_lt
  · rw [Bool.eq_iff_iff, isNeeded_iff, ← hholds t ht.lt.2]
    rfl

/-- The template of the full chart makes no difference to the forest. -/
theorem forest_template_eq {c : Chart} (hfull : Chart.IsFull g aut c) :
    ∃ t found, c.template g aut = .ok t ∧ (forest g aut none).value = .ok found ∧
      forest g aut (some t) = forest g aut none := by
  obtain ⟨t, ht, hfits, hrules, hholds⟩ := hfull.template
  obtain ⟨found, hforest, hfound⟩ := exists_forest_none g aut
  obtain ⟨found', hforest', hfound'⟩ := exists_forest_some hfits hrules hholds
  refine ⟨t, found, ht, by rw [hforest], ?_⟩
  rw [hforest, hforest', hfound.unique hfound']

namespace RepairSettings

variable {s : RepairSettings} {input : List Nat}

theorem value_forestOver (templated : Bool) :
    ({ s with templated }.forestOver g aut).value = (forest g aut none).value := by
  obtain ⟨t, -, ht, -, hsame⟩ := forest_template_eq (Chart.isFull_fullChart g aut)
  cases templated with
  | false => rfl
  | true => simp [forestOver, ht, hsame]

theorem searchFrom_templated (templated : Bool) (steps r : Nat) :
    { s with templated }.searchFrom g input steps r = s.searchFrom g input steps r := by
  induction steps generalizing r with
  | zero => rfl
  | succ steps ih =>
    simp only [searchFrom, ih]
    rfl

theorem exists_value_repairs (s : RepairSettings) (g : Grammar) (input : List Nat) :
    ∃ found, ∀ templated, ({ s with templated }.repairs g input).value = .ok found := by
  have hnearest : ∀ templated, { s with templated }.nearest g input = s.nearest g input :=
    fun templated => searchFrom_templated templated _ _
  simp only [repairs, Traced.value_bind, hnearest]
  cases (s.nearest g input).value with
  | none => exact ⟨none, fun _ => rfl⟩
  | some radius =>
    obtain ⟨found, hforest, -⟩ := exists_forest_none g (s.ballAround g input radius).value
    have hover : ∀ templated, ({ s with templated }.forestOver g
        (s.ballAround g input radius).value).value = .ok found := by
      intro templated
      rw [value_forestOver, hforest]
    have hball : ∀ templated, { s with templated }.ballAround g input radius =
        s.ballAround g input radius := fun _ => rfl
    refine ⟨found.map fun f => ⟨input, radius, f⟩, fun templated => ?_⟩
    simp only [Traced.value_bind, hball, hover]
    cases found <;> rfl

end RepairSettings

/-- The forest made in two passes, with the template of the full chart, is the forest made in one, down
to the order of its nodes, their numbers and the events on the way. So the repairs of an input are the
same with a template and without. -/
theorem forest_of_template (g : Grammar) :
    (∀ aut, ∃ t found, (fullChart g aut).value.template g aut = .ok t ∧
      (forest g aut none).value = .ok found ∧ forest g aut (some t) = forest g aut none) ∧
    ∀ (s : RepairSettings) (input : List Nat), ∃ found, ∀ templated,
      ({ s with templated }.repairs g input).value = .ok found :=
  ⟨fun _ => forest_template_eq (Chart.isFull_fullChart g _), fun s => s.exists_value_repairs g⟩

end GrammarRepair
