import GrammarRepair.Chart.Fill
import GrammarRepair.Proofs.Grammar.Spans

/-!
What a chart holds. The sweep goes by growing distance, and a span over a distance is put together
from spans over lesser ones, so after each stratum the chart is complete up to its distance. Main
statements: the full chart holds exactly the spans, and the search for a sentence finds one exactly
when the full chart does.
-/

namespace GrammarRepair

namespace Chart

variable {g : Grammar} {aut : Automaton} {c : Chart} {n p q p' q' a : Nat} {s : NatSet}

structure Fits (c : Chart) (n : Nat) : Prop where
  states_eq : c.states = n
  size_eq : c.cells.size = n * n

theorem fits_blank (n rules : Nat) : (blank n rules).Fits n := by
  constructor
  · rfl
  · simp [blank]

theorem has_blank (n rules : Nat) : (blank n rules).has p a q = false := by
  have hcell : (blank n rules).cell p q = .empty := by
    simp only [cell, blank, Array.getD_eq_getD_getElem?, Array.getElem?_replicate]
    split <;> rfl
  rw [has, hcell, NatSet.has_empty]

theorem Fits.setCell (h : c.Fits n) : (c.setCell p q s).Fits n := by
  constructor
  · exact h.states_eq
  · simpa [Chart.setCell] using h.size_eq

theorem Fits.put (h : c.Fits n) : (c.put p a q).Fits n := h.setCell

theorem slot_inj (h : c.Fits n) (hq : q < n) (hq' : q' < n) :
    c.slot p q = c.slot p' q' ↔ p = p' ∧ q = q' := by
  rw [slot, slot, h.states_eq]
  constructor
  · intro heq
    have hmod := congrArg (· % n) heq
    simp only [Nat.mul_comm _ n, Nat.mul_add_mod, Nat.mod_eq_of_lt hq, Nat.mod_eq_of_lt hq'] at hmod
    subst hmod
    have hmul : p * n = p' * n := by omega
    exact ⟨Nat.eq_of_mul_eq_mul_right (by omega) hmul, rfl⟩
  · rintro ⟨rfl, rfl⟩
    rfl

theorem cell_setCell (h : c.Fits n) (hp : p < n) (hq : q < n) (hq' : q' < n) :
    (c.setCell p q s).cell p' q' = if p' = p ∧ q' = q then s else c.cell p' q' := by
  have hslot : c.slot p q < c.cells.size := by
    rw [h.size_eq, ← h.states_eq]
    exact slot_lt (by rwa [h.states_eq]) (by rwa [h.states_eq])
  have hget : (c.setCell p q s).cell p' q' =
      (c.cells.setIfInBounds (c.slot p q) s).getD (c.slot p' q') .empty := rfl
  rw [hget, Reach.getD_setIfInBounds hslot]
  exact if_congr (slot_inj h hq' hq) rfl rfl

theorem has_setCell (h : c.Fits n) (hp : p < n) (hq : q < n) (hq' : q' < n) :
    (c.setCell p q s).has p' a q' = true ↔
      if p' = p ∧ q' = q then s.has a = true else c.has p' a q' = true := by
  rw [has, cell_setCell h hp hq hq']
  split <;> rfl

theorem has_put {b : Nat} (h : c.Fits n) (hp : p < n) (hq : q < n) (hq' : q' < n) :
    (c.put p a q).has p' b q' = true ↔ c.has p' b q' = true ∨ p' = p ∧ b = a ∧ q' = q := by
  rw [put, has_setCell h hp hq hq']
  by_cases hpq : p' = p ∧ q' = q
  · obtain ⟨rfl, rfl⟩ := hpq
    have hcomm : a = b ↔ b = a := eq_comm
    simp [has, hcomm]
  · have hnot : ¬ (p' = p ∧ b = a ∧ q' = q) := fun he => hpq ⟨he.1, he.2.2⟩
    simp [hpq, hnot]

theorem Fits.foldl_put (rules : List Nat) (h : c.Fits n) :
    (rules.foldl (fun c a => c.put p a q) c).Fits n :=
  List.foldlRecOn (motive := (Fits · n)) rules _ h fun _ hc _ _ => hc.put

theorem has_foldl_put {b : Nat} (rules : List Nat) (h : c.Fits n) (hp : p < n) (hq : q < n)
    (hq' : q' < n) : (rules.foldl (fun c a => c.put p a q) c).has p' b q' = true ↔
      c.has p' b q' = true ∨ p' = p ∧ b ∈ rules ∧ q' = q := by
  induction rules generalizing c with
  | nil => simp
  | cons a rules ih =>
    rw [List.foldl_cons, ih h.put, has_put h hp hq hq', or_assoc, List.mem_cons]
    refine or_congr_right ?_
    rw [or_and_right, and_or_left]

def sowEdge (g : Grammar) (c : Chart) (e : Edge) : Chart :=
  (g.rulesOf e.token).foldl (fun c a => c.put e.source a e.target) c

theorem sow_eq (g : Grammar) (aut : Automaton) :
    sow g aut = aut.edges.foldl (sowEdge g) (blank aut.stateCount g.ruleCount) := rfl

theorem fits_sow (g : Grammar) (aut : Automaton) : (sow g aut).Fits aut.stateCount := by
  rw [sow_eq]
  exact List.foldlRecOn (motive := (Fits · aut.stateCount)) aut.edges _ (fits_blank _ _)
    fun _ hc e _ => hc.foldl_put _

theorem has_foldl_sowEdge (es : List Edge) (h : c.Fits n)
    (hes : ∀ e ∈ es, e.source < n ∧ e.target < n) (hq : q < n) :
    (es.foldl (sowEdge g) c).has p a q = true ↔ c.has p a q = true ∨
      ∃ e ∈ es, e.source = p ∧ e.target = q ∧ a ∈ g.rulesOf e.token := by
  induction es generalizing c with
  | nil => simp
  | cons e es ih =>
    obtain ⟨hsource, htarget⟩ := hes e (by simp)
    have hfits : (sowEdge g c e).Fits n := h.foldl_put _
    rw [List.foldl_cons, ih hfits fun e he => hes e (by simp [he]), sowEdge,
      has_foldl_put _ h hsource htarget hq, or_assoc, List.exists_mem_cons_iff]
    refine or_congr_right (or_congr_left ?_)
    constructor
    · rintro ⟨rfl, ha, rfl⟩
      exact ⟨rfl, rfl, ha⟩
    · rintro ⟨rfl, rfl, ha⟩
      exact ⟨rfl, ha, rfl⟩

theorem has_sow (hq : q < aut.stateCount) : (sow g aut).has p a q = true ↔
    ∃ e ∈ aut.edges, e.source = p ∧ e.target = q ∧ ⟨a, .token e.token⟩ ∈ g.productions.toList := by
  have hes : ∀ e ∈ aut.edges, e.source < aut.stateCount ∧ e.target < aut.stateCount := by
    intro e he
    have htarget := aut.target_lt e he
    exact ⟨Nat.lt_trans (aut.source_lt_target e he) htarget, htarget⟩
  rw [sow_eq, has_foldl_sowEdge _ (fits_blank _ _) hes hq, has_blank]
  simp [Grammar.mem_rulesOf]

theorem meets_iff {v : Visit} {b d : Nat} : c.meets v b d = true ↔
    ∃ r ∈ v.midpoints, c.has v.source b r = true ∧ c.has r d v.target = true := by
  simp [meets]

theorem has_grown {v : Visit} : (c.grown g v).has a = true ↔
    c.has v.source a v.target = true ∨ ∃ b d, (a, b, d) ∈ g.pairs ∧ c.meets v b d = true := by
  have hfold : ∀ (pairs : List (Nat × Nat × Nat)) (s : NatSet),
      (pairs.foldl (fun s p => if s.has p.1 then s else if c.meets v p.2.1 p.2.2 then s.insert p.1
        else s) s).has a = true ↔
          s.has a = true ∨ ∃ b d, (a, b, d) ∈ pairs ∧ c.meets v b d = true := by
    intro pairs
    induction pairs with
    | nil => simp
    | cons x pairs ih =>
      intro s
      obtain ⟨a', b', d'⟩ := x
      rw [List.foldl_cons, ih]
      by_cases hs : s.has a' = true
      · simp only [if_pos hs, List.mem_cons, Prod.mk.injEq]
        grind
      · by_cases hm : c.meets v b' d' = true
        · simp only [if_neg hs, if_pos hm, NatSet.has_insert, List.mem_cons, Prod.mk.injEq]
          grind
        · simp only [if_neg hs, if_neg hm, List.mem_cons, Prod.mk.injEq]
          grind
  exact hfold g.pairs _

theorem has_sweepVisit {v : Visit} (h : c.Fits n) (hs : v.source < n) (ht : v.target < n)
    (hq : q < n) : (c.sweepVisit g v).has p a q = true ↔ c.has p a q = true ∨
      p = v.source ∧ q = v.target ∧ ∃ b d, (a, b, d) ∈ g.pairs ∧ c.meets v b d = true := by
  rw [sweepVisit, has_setCell h hs ht hq, has_grown]
  by_cases hpq : p = v.source ∧ q = v.target
  · obtain ⟨rfl, rfl⟩ := hpq
    simp
  · rw [if_neg hpq]
    constructor
    · exact Or.inl
    · rintro (hhas | ⟨hp, hq, -⟩)
      · exact hhas
      · exact absurd ⟨hp, hq⟩ hpq

/-- A chart on the way: whatever edges give is there, and nothing but spans. -/
structure Filling (g : Grammar) (aut : Automaton) (c : Chart) : Prop where
  fits : c.Fits aut.stateCount
  sown : ∀ p a q, (sow g aut).has p a q = true → q < aut.stateCount → c.has p a q = true
  sound : ∀ p a q, c.has p a q = true → q < aut.stateCount → g.Spans aut p a q

theorem filling_sow (g : Grammar) (aut : Automaton) : Filling g aut (sow g aut) := by
  refine ⟨fits_sow g aut, fun _ _ _ h _ => h, ?_⟩
  intro p a q h hq
  obtain ⟨e, he, rfl, rfl, ha⟩ := (has_sow hq).1 h
  exact Grammar.spans_of_edge he ha

/-- A visit that the automaton allows. -/
structure IsVisit (aut : Automaton) (v : Visit) : Prop where
  target_lt : v.target < aut.stateCount
  midpoints_eq : v.midpoints = aut.reach.midpoints v.source v.target
  midpoints_ne_nil : v.midpoints ≠ []

theorem IsVisit.source_lt {v : Visit} (h : IsVisit aut v) : v.source < v.target := by
  obtain ⟨r, hr⟩ := List.exists_mem_of_ne_nil _ h.midpoints_ne_nil
  rw [h.midpoints_eq, Automaton.mem_midpoints_iff] at hr
  exact (Automaton.lt_of_reaches (Automaton.reaches_trans hr.1 hr.2)).1

theorem IsVisit.source_lt_stateCount {v : Visit} (h : IsVisit aut v) :
    v.source < aut.stateCount :=
  Nat.lt_trans h.source_lt h.target_lt

theorem IsVisit.midpoint {v : Visit} {r : Nat} (h : IsVisit aut v) (hr : r ∈ v.midpoints) :
    v.source < r ∧ r < v.target := by
  rw [h.midpoints_eq, Automaton.mem_midpoints_iff] at hr
  exact ⟨(Automaton.lt_of_reaches hr.1).1, (Automaton.lt_of_reaches hr.2).1⟩

theorem Filling.has_sweepVisit_of_has {v : Visit} (h : Filling g aut c) (hv : IsVisit aut v)
    (hq : q < aut.stateCount) (hhas : c.has p a q = true) : (c.sweepVisit g v).has p a q = true :=
  (has_sweepVisit h.fits hv.source_lt_stateCount hv.target_lt hq).2 (.inl hhas)

theorem Filling.sweepVisit {v : Visit} (h : Filling g aut c) (hv : IsVisit aut v) :
    Filling g aut (c.sweepVisit g v) := by
  refine ⟨h.fits.setCell, ?_, ?_⟩
  · intro p a q hhas hq
    exact h.has_sweepVisit_of_has hv hq (h.sown p a q hhas hq)
  · intro p a q hhas hq
    rw [has_sweepVisit h.fits hv.source_lt_stateCount hv.target_lt hq] at hhas
    rcases hhas with hhas | ⟨rfl, rfl, b, d, hpair, hmeets⟩
    · exact h.sound p a q hhas hq
    · obtain ⟨r, hr, hb, hd⟩ := meets_iff.1 hmeets
      have hlt := (hv.midpoint hr).2
      exact Grammar.spans_of_pair (Grammar.mem_pairs.1 hpair)
        (h.sound _ _ _ hb (Nat.lt_trans hlt hq)) (h.sound _ _ _ hd hq)

theorem Filling.foldl_sweepVisit {vs : List Visit} (h : Filling g aut c)
    (hvs : ∀ v ∈ vs, IsVisit aut v) : Filling g aut (vs.foldl (Chart.sweepVisit g) c) :=
  List.foldlRecOn (motive := Filling g aut) vs _ h fun _ hc v hv => hc.sweepVisit (hvs v hv)

theorem Filling.has_foldl_of_has {vs : List Visit} (h : Filling g aut c)
    (hvs : ∀ v ∈ vs, IsVisit aut v) (hq : q < aut.stateCount) (hhas : c.has p a q = true) :
    (vs.foldl (Chart.sweepVisit g) c).has p a q = true := by
  induction vs generalizing c with
  | nil => exact hhas
  | cons v vs ih =>
    have hv := hvs v (by simp)
    exact ih (h.sweepVisit hv) (fun v hmem => hvs v (by simp [hmem]))
      (h.has_sweepVisit_of_has hv hq hhas)

def CompleteBelow (g : Grammar) (aut : Automaton) (d : Nat) (c : Chart) : Prop :=
  ∀ p a q, q < p + d → g.Spans aut p a q → c.has p a q = true

/-- A visit completes its pair of states, if all lesser distances are complete. -/
theorem CompleteBelow.has_sweepVisit {v : Visit} {d : Nat} (hc : CompleteBelow g aut d c)
    (h : Filling g aut c) (hv : IsVisit aut v) (hd : v.target ≤ v.source + d)
    (hspans : g.Spans aut v.source a v.target) :
    (c.sweepVisit g v).has v.source a v.target = true := by
  rw [Chart.has_sweepVisit h.fits hv.source_lt_stateCount hv.target_lt hv.target_lt]
  rcases hspans.cases with ⟨e, he, hsource, htarget, ha⟩ | ⟨b, d, r, hpair, hb, hd'⟩
  · have hsown := (has_sow hv.target_lt).2 ⟨e, he, hsource, htarget, ha⟩
    exact .inl (h.sown _ _ _ hsown hv.target_lt)
  · refine .inr ⟨rfl, rfl, b, d, Grammar.mem_pairs.2 hpair, meets_iff.2 ⟨r, ?_, ?_, ?_⟩⟩
    · rw [hv.midpoints_eq, Automaton.mem_midpoints_iff]
      exact ⟨hb.reaches, hd'.reaches⟩
    · have hlt := hd'.lt.1
      exact hc _ _ _ (by omega) hb
    · have hlt := hb.lt.1
      exact hc _ _ _ (by omega) hd'

theorem CompleteBelow.sweepVisit {v : Visit} {d : Nat} (hc : CompleteBelow g aut d c)
    (h : Filling g aut c) (hv : IsVisit aut v) :
    CompleteBelow g aut d (c.sweepVisit g v) := by
  intro p a q hlt hspans
  exact h.has_sweepVisit_of_has hv hspans.lt.2 (hc p a q hlt hspans)

theorem CompleteBelow.has_foldl_of_mem {vs : List Visit} {v : Visit} {d : Nat}
    (hc : CompleteBelow g aut d c) (h : Filling g aut c) (hvs : ∀ v ∈ vs, IsVisit aut v)
    (hv : v ∈ vs) (hd : v.target ≤ v.source + d) (hspans : g.Spans aut v.source a v.target) :
    (vs.foldl (Chart.sweepVisit g) c).has v.source a v.target = true := by
  induction vs generalizing c with
  | nil => cases hv
  | cons u vs ih =>
    have hu := hvs u (by simp)
    have hvs' : ∀ v ∈ vs, IsVisit aut v := fun v hmem => hvs v (by simp [hmem])
    rcases List.mem_cons.1 hv with rfl | hv
    · exact (h.sweepVisit hu).has_foldl_of_has hvs' hu.target_lt
        (hc.has_sweepVisit h hu hd hspans)
    · exact ih (hc.sweepVisit h hu) (h.sweepVisit hu) hvs' hv

theorem visit?_eq_some_iff {r : Reach} {d : Nat} {v : Visit} :
    Automaton.visit? r d p = some v ↔ v.source = p ∧ v.target = p + d ∧
      v.midpoints = r.midpoints p (p + d) ∧ v.midpoints ≠ [] := by
  obtain ⟨source, target, midpoints⟩ := v
  unfold Automaton.visit?
  cases h : r.midpoints p (p + d) with
  | nil =>
    simp only [reduceCtorEq, false_iff]
    rintro ⟨-, -, hnil, hne⟩
    exact hne hnil
  | cons m ms =>
    simp only [Option.some.injEq, Visit.mk.injEq]
    constructor
    · rintro ⟨rfl, rfl, rfl⟩
      exact ⟨rfl, rfl, rfl, List.cons_ne_nil m ms⟩
    · rintro ⟨rfl, rfl, rfl, -⟩
      exact ⟨rfl, rfl, rfl⟩

theorem mem_visits_iff {d : Nat} {v : Visit} : v ∈ (aut.stratum aut.reach d).visits ↔
    IsVisit aut v ∧ v.target = v.source + d := by
  simp only [Automaton.stratum, List.mem_filterMap, List.mem_range, visit?_eq_some_iff]
  constructor
  · rintro ⟨p, hp, rfl, htarget, hmidpoints, hne⟩
    exact ⟨⟨by omega, by rw [hmidpoints, htarget], hne⟩, htarget⟩
  · rintro ⟨hv, htarget⟩
    have hlt := hv.target_lt
    refine ⟨v.source, by omega, rfl, htarget, ?_, hv.midpoints_ne_nil⟩
    rw [hv.midpoints_eq, htarget]

theorem Filling.sweepStratum {d : Nat} (h : Filling g aut c) :
    Filling g aut (c.sweepStratum g (aut.stratum aut.reach d)) :=
  h.foldl_sweepVisit fun _ hv => (mem_visits_iff.1 hv).1

theorem Filling.has_sweepStratum_of_has {d : Nat} (h : Filling g aut c) (hq : q < aut.stateCount)
    (hhas : c.has p a q = true) :
    (c.sweepStratum g (aut.stratum aut.reach d)).has p a q = true :=
  h.has_foldl_of_has (fun _ hv => (mem_visits_iff.1 hv).1) hq hhas

/-- Each stratum completes its distance. A pair of states that is not visited has nothing in
between, so what spans it comes from an edge. -/
theorem CompleteBelow.sweepStratum {d : Nat} (hc : CompleteBelow g aut d c)
    (h : Filling g aut c) :
    CompleteBelow g aut (d + 1) (c.sweepStratum g (aut.stratum aut.reach d)) := by
  intro p a q hlt hspans
  have hq := hspans.lt.2
  by_cases hd : q < p + d
  · exact h.has_sweepStratum_of_has hq (hc p a q hd hspans)
  · rcases hspans.cases with ⟨e, he, hsource, htarget, ha⟩ | ⟨b, b', r, hpair, hb, hb'⟩
    · have hsown := (has_sow hq).2 ⟨e, he, hsource, htarget, ha⟩
      exact h.has_sweepStratum_of_has hq (h.sown p a q hsown hq)
    · have hr := Automaton.mem_midpoints_iff.2 ⟨hb.reaches, hb'.reaches⟩
      have hdist : q = p + d := by omega
      let v : Visit := ⟨p, q, aut.reach.midpoints p q⟩
      have hv : IsVisit aut v := ⟨hq, rfl, List.ne_nil_of_mem hr⟩
      have hmem : v ∈ (aut.stratum aut.reach d).visits := mem_visits_iff.2 ⟨hv, hdist⟩
      have hvisits : ∀ v ∈ (aut.stratum aut.reach d).visits, IsVisit aut v :=
        fun v hv => (mem_visits_iff.1 hv).1
      exact hc.has_foldl_of_mem (v := v) h hvisits hmem (Nat.le_of_eq hdist) hspans

theorem filling_strata (g : Grammar) (aut : Automaton) (k : Nat) :
    Filling g aut (((List.range' 1 k).map (aut.stratum aut.reach)).foldl
        (Chart.sweepStratum g) (sow g aut)) ∧
      CompleteBelow g aut (k + 1) (((List.range' 1 k).map (aut.stratum aut.reach)).foldl
        (Chart.sweepStratum g) (sow g aut)) := by
  induction k with
  | zero =>
    refine ⟨filling_sow g aut, ?_⟩
    intro p a q hlt hspans
    have hpq := hspans.lt.1
    omega
  | succ k ih =>
    obtain ⟨hfilling, hcomplete⟩ := ih
    rw [List.range'_1_concat, List.map_append, List.foldl_append, Nat.add_comm 1 k]
    exact ⟨hfilling.sweepStratum, hcomplete.sweepStratum hfilling⟩

theorem accepting_iff : c.accepting g aut = true ↔
    ∃ p ∈ aut.initials, ∃ q ∈ aut.finals, c.has p g.start q = true := by
  simp [accepting]

/-- More entries never hurt. -/
theorem Filling.accepting_sweepStratum {d : Nat} (h : Filling g aut c)
    (hc : c.accepting g aut = true) :
    (c.sweepStratum g (aut.stratum aut.reach d)).accepting g aut = true := by
  obtain ⟨p, hp, q, hq, hhas⟩ := accepting_iff.1 hc
  exact accepting_iff.2 ⟨p, hp, q, hq, h.has_sweepStratum_of_has (aut.final_lt q hq) hhas⟩

theorem Filling.accepting_foldl {ds : List Nat} (h : Filling g aut c)
    (hc : c.accepting g aut = true) :
    ((ds.map (aut.stratum aut.reach)).foldl (Chart.sweepStratum g) c).accepting g aut = true := by
  induction ds generalizing c with
  | nil => exact hc
  | cons d ds ih => exact ih h.sweepStratum (h.accepting_sweepStratum hc)

end Chart

variable {g : Grammar} {aut : Automaton} {c : Chart} {p q a : Nat}

theorem filling_fullChart (g : Grammar) (aut : Automaton) :
    Chart.Filling g aut (fullChart g aut).value :=
  (Chart.filling_strata g aut (aut.stateCount - 1)).1

theorem has_fullChart_iff (hq : q < aut.stateCount) :
    (fullChart g aut).value.has p a q = true ↔ g.Spans aut p a q := by
  constructor
  · intro h
    exact (filling_fullChart g aut).sound p a q h hq
  · intro h
    exact (Chart.filling_strata g aut (aut.stateCount - 1)).2 p a q (by omega) h

/-- Stopping at the first accepting chart makes no difference to the answer. -/
theorem searchStrata_eq_accepting {ds : List Nat} (h : Chart.Filling g aut c)
    (hc : c.accepting g aut = false) :
    (searchStrata g aut (ds.map (aut.stratum aut.reach)) c).value =
      ((ds.map (aut.stratum aut.reach)).foldl (Chart.sweepStratum g) c).accepting g aut := by
  induction ds generalizing c with
  | nil => simp [searchStrata, hc]
  | cons d ds ih =>
    simp only [List.map_cons, searchStrata, List.foldl_cons, Traced.value_bind]
    cases hacc : (c.sweepStratum g (aut.stratum aut.reach d)).accepting g aut with
    | true =>
      rw [h.sweepStratum.accepting_foldl hacc]
      simp
    | false =>
      rw [← ih h.sweepStratum hacc]
      simp

theorem nonempty_eq_accepting (g : Grammar) (aut : Automaton) :
    (nonempty g aut).value = (fullChart g aut).value.accepting g aut := by
  have hfilling := Chart.filling_sow g aut
  unfold nonempty
  simp only
  cases hacc : (Chart.sow g aut).accepting g aut with
  | true =>
    have hfull : (fullChart g aut).value.accepting g aut = true := hfilling.accepting_foldl hacc
    simp [hfull]
  | false =>
    simp only [Bool.false_eq_true, if_false]
    exact searchStrata_eq_accepting hfilling hacc

theorem nonempty_iff : (nonempty g aut).value = true ↔
    ∃ w, g.IsSentence w ∧ aut.accepts w = true := by
  rw [nonempty_eq_accepting, Chart.accepting_iff, Grammar.exists_sentence_accepted_iff]
  refine exists_congr fun p => and_congr_right fun _ => exists_congr fun q =>
    and_congr_right fun hq => ?_
  exact has_fullChart_iff (aut.final_lt q hq)

end GrammarRepair
