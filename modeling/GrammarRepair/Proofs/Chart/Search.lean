import GrammarRepair.Proofs.Chart.Recognition
import GrammarRepair.Proofs.Sorted

/-!
The search that stops as soon as a sentence is found, next to the full chart. It sweeps the same
strata, so what it reports is the beginning of what the full sweep reports, and all of it when
nothing is found. What a stratum reports is a number of pairs of states, which the automaton alone
settles. Main statement: the search answers as the full chart does and reports the same distances
with the same numbers, up to the one that it stops at.
-/

namespace GrammarRepair

variable {g : Grammar} {aut : Automaton} {p q r d : Nat}

/-- The state lies on a path between two others, with an edge before and behind it. -/
def Automaton.StrictlyBetween (aut : Automaton) (p r q : Nat) : Prop :=
  (∃ v, v ≠ [] ∧ aut.Path p v r) ∧ ∃ w, w ≠ [] ∧ aut.Path r w q

theorem Automaton.mem_midpoints_iff_strictlyBetween :
    r ∈ aut.reach.midpoints p q ↔ aut.StrictlyBetween p r q := by
  rw [mem_midpoints_iff, reaches_iff, reaches_iff, StrictlyBetween]

theorem map_source_visits (r : Reach) (d : Nat) (ps : List Nat) :
    (ps.filterMap (Automaton.visit? r d)).map (·.source) =
      ps.filter fun p => !(r.midpoints p (p + d)).isEmpty := by
  induction ps with
  | nil => rfl
  | cons p ps ih =>
    unfold Automaton.visit? at ih ⊢
    cases h : r.midpoints p (p + d) with
    | nil => simp [h, ih]
    | cons m ms => simp [h, ih]

theorem nodup_source_visits (aut : Automaton) (d : Nat) :
    ((aut.stratum aut.reach d).visits.map (·.source)).Nodup := by
  rw [Automaton.stratum, map_source_visits]
  exact List.nodup_range.filter _

theorem mem_source_visits_iff :
    p ∈ (aut.stratum aut.reach d).visits.map (·.source) ↔ ∃ r, aut.StrictlyBetween p r (p + d) := by
  simp only [← Automaton.mem_midpoints_iff_strictlyBetween]
  rw [Automaton.stratum, map_source_visits, List.mem_filter, List.mem_range, Bool.not_eq_true',
    List.isEmpty_eq_false_iff_exists_mem]
  refine and_iff_right_of_imp ?_
  rintro ⟨r, hr⟩
  have hlt := (Automaton.lt_of_reaches (Automaton.mem_midpoints_iff.1 hr).2).2
  omega

theorem event_stratum (aut : Automaton) (d : Nat) : (aut.stratum aut.reach d).event =
    .distanceSwept d {p | ∃ r, aut.StrictlyBetween p r (p + d)}.ncard := by
  rw [ncard_eq_length (nodup_source_visits aut d) fun p => mem_source_visits_iff, List.length_map]
  rfl

theorem events_fullChart (g : Grammar) (aut : Automaton) :
    (fullChart g aut).events = (List.range' 1 (aut.stateCount - 1)).map fun d =>
      .distanceSwept d {p | ∃ r, aut.StrictlyBetween p r (p + d)}.ncard := by
  have hevents : (fullChart g aut).events = aut.strata.map (·.event) := rfl
  rw [hevents, Automaton.strata, List.map_map]
  exact List.map_congr_left fun d _ => event_stratum aut d

theorem events_searchStrata_prefix (strata : List Stratum) (c : Chart) :
    (searchStrata g aut strata c).events <+: strata.map (·.event) := by
  induction strata generalizing c with
  | nil => exact List.nil_prefix
  | cons s strata ih =>
    simp only [searchStrata, Traced.events_bind, Traced.events_emit, List.map_cons,
      List.singleton_append, List.cons_prefix_cons, true_and]
    split
    · exact List.nil_prefix
    · exact ih _

theorem events_searchStrata_of_false (strata : List Stratum) (c : Chart)
    (hnone : (searchStrata g aut strata c).value = false) :
    (searchStrata g aut strata c).events = strata.map (·.event) := by
  induction strata generalizing c with
  | nil => rfl
  | cons s strata ih =>
    simp only [searchStrata, Traced.value_bind, Traced.events_bind, Traced.events_emit,
      List.map_cons, List.singleton_append] at hnone ⊢
    split at hnone
    · cases hnone
    · next hacc => rw [if_neg hacc, ih _ hnone]

theorem events_nonempty_prefix (g : Grammar) (aut : Automaton) :
    (nonempty g aut).events <+: (fullChart g aut).events := by
  unfold nonempty
  simp only
  split
  · exact List.nil_prefix
  · exact events_searchStrata_prefix aut.strata _

theorem events_nonempty_of_false (hnone : (nonempty g aut).value = false) :
    (nonempty g aut).events = (fullChart g aut).events := by
  unfold nonempty at hnone ⊢
  simp only at hnone ⊢
  split at hnone
  · cases hnone
  · next hacc =>
    rw [if_neg hacc]
    exact events_searchStrata_of_false aut.strata _ hnone

theorem has?_start_fullChart (hp : p ∈ aut.initials) (hq : q ∈ aut.finals) :
    (fullChart g aut).value.has? p g.start q = .ok true ↔
      (fullChart g aut).value.has p g.start q = true := by
  have hfits := (filling_fullChart g aut).fits
  have hstart : g.start < (fullChart g aut).value.rules := by
    rw [Chart.rules_fullChart]
    exact g.start_lt
  rw [hfits.has?_eq (aut.initial_lt p hp) hstart (aut.final_lt q hq), Except.ok.injEq]

/-- The search finds something exactly when the full chart has an entry for the start rule between
an initial and a final state. What it reports is the beginning of what is reported for the full
chart, all of it if nothing is found; and each distance is reported with the number of states from
which something lies in between, so the grammar has no part in it. -/
theorem nonempty_stops_early (g : Grammar) (aut : Automaton) :
    ((nonempty g aut).value = true ↔ ∃ p ∈ aut.initials, ∃ q ∈ aut.finals,
        (fullChart g aut).value.has? p g.start q = .ok true) ∧
      (nonempty g aut).events <+: (fullChart g aut).events ∧
      ((nonempty g aut).value = false → (nonempty g aut).events = (fullChart g aut).events) ∧
      (fullChart g aut).events = (List.range' 1 (aut.stateCount - 1)).map fun d =>
        .distanceSwept d {p | ∃ r, aut.StrictlyBetween p r (p + d)}.ncard := by
  refine ⟨?_, events_nonempty_prefix g aut, events_nonempty_of_false, events_fullChart g aut⟩
  rw [nonempty_eq_accepting, Chart.accepting_iff]
  exact exists_congr fun p => and_congr_right fun hp => exists_congr fun q =>
    and_congr_right fun hq => (has?_start_fullChart hp hq).symm

/-- Nothing that the automaton reads is the one sentence, so all its distances are reported. Only
the last has states in between. -/
theorem nonempty_stops_early_diamond :
    (nonempty twoTokens diamond).value = false ∧
      (nonempty twoTokens diamond).events =
        [.distanceSwept 1 0, .distanceSwept 2 0, .distanceSwept 3 0, .distanceSwept 4 1] := by
  have hnone : (nonempty twoTokens diamond).value = false := by decide +kernel
  obtain ⟨-, -, hevents, -⟩ := nonempty_stops_early twoTokens diamond
  refine ⟨hnone, (hevents hnone).trans ?_⟩
  decide +kernel

end GrammarRepair
