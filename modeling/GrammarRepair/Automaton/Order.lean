import GrammarRepair.Automaton.Label
import GrammarRepair.Roster

/-!
Putting the states of an acyclic automaton in order, so that every transition leads forward. Grid
points are read by antidiagonals if that will do; otherwise states follow as soon as all states
before them are placed. Main statements: the orders have no repetition and every transition leads
forward in them.
-/

namespace GrammarRepair

structure Transition where
  source : Label
  token : Nat
  target : Label
  deriving DecidableEq, Repr

namespace Transition

def mentioned (ts : List Transition) (initials finals : List Label) : List Label :=
  distinct (ts.flatMap (fun t => [t.source, t.target]) ++ initials ++ finals)

theorem source_mem_mentioned {ts : List Transition} {initials finals : List Label} {t : Transition}
    (h : t ∈ ts) : t.source ∈ mentioned ts initials finals := by
  simp only [mentioned, mem_distinct, List.mem_append, List.mem_flatMap]
  exact Or.inl (Or.inl ⟨t, h, by simp⟩)

theorem target_mem_mentioned {ts : List Transition} {initials finals : List Label} {t : Transition}
    (h : t ∈ ts) : t.target ∈ mentioned ts initials finals := by
  simp only [mentioned, mem_distinct, List.mem_append, List.mem_flatMap]
  exact Or.inl (Or.inl ⟨t, h, by simp⟩)

theorem initial_mem_mentioned {ts : List Transition} {initials finals : List Label} {l : Label}
    (h : l ∈ initials) : l ∈ mentioned ts initials finals := by
  simp [mentioned, h]

theorem final_mem_mentioned {ts : List Transition} {initials finals : List Label} {l : Label}
    (h : l ∈ finals) : l ∈ mentioned ts initials finals := by
  simp [mentioned, h]

def Forward (ts : List Transition) (order : List Label) : Prop :=
  ∀ t ∈ ts, t.target ∈ order ∧ order.idxOf t.source < order.idxOf t.target

def gridOrder (labels : List Label) : List Label := labels.mergeSort Label.notSweptAfter

def followsGrid (ts : List Transition) (labels : List Label) : Bool :=
  labels.all (·.isGrid) && ts.all fun t => t.source.sweptBefore t.target

theorem mem_gridOrder {labels : List Label} {l : Label} : l ∈ gridOrder labels ↔ l ∈ labels :=
  List.mem_mergeSort

theorem nodup_gridOrder {labels : List Label} (h : labels.Nodup) : (gridOrder labels).Nodup :=
  (List.mergeSort_perm labels _).nodup_iff.2 h

theorem idxOf_gridOrder_lt {labels : List Label} {a b : Label} (ha : a ∈ labels) (hb : b ∈ labels)
    (h : a.sweptBefore b = true) : (gridOrder labels).idxOf a < (gridOrder labels).idxOf b := by
  have hsorted : (gridOrder labels).Pairwise fun x y => Label.notSweptAfter x y = true :=
    List.pairwise_mergeSort Label.notSweptAfter_trans Label.notSweptAfter_total labels
  have ha' := List.idxOf_lt_length_iff.2 (mem_gridOrder.2 ha)
  have hb' := List.idxOf_lt_length_iff.2 (mem_gridOrder.2 hb)
  rcases Nat.lt_trichotomy ((gridOrder labels).idxOf a) ((gridOrder labels).idxOf b) with
    hlt | heq | hgt
  · exact hlt
  · have hab : a = b := by
      have e1 := List.getElem_idxOf ha'
      have e2 := List.getElem_idxOf hb'
      rw [← e1, ← e2]
      exact getElem_congr_idx heq
    subst hab
    rw [Label.sweptBefore_iff] at h
    omega
  · have := List.pairwise_iff_getElem.1 hsorted _ _ hb' ha' hgt
    rw [List.getElem_idxOf, List.getElem_idxOf, Label.notSweptAfter, h] at this
    cases this

theorem forward_gridOrder {ts : List Transition} {labels : List Label}
    (hs : ∀ t ∈ ts, t.source ∈ labels) (ht : ∀ t ∈ ts, t.target ∈ labels)
    (h : followsGrid ts labels = true) : Forward ts (gridOrder labels) := by
  intro t htt
  refine ⟨mem_gridOrder.2 (ht t htt), idxOf_gridOrder_lt (hs t htt) (ht t htt) ?_⟩
  rw [followsGrid, Bool.and_eq_true] at h
  exact List.all_eq_true.1 h.2 t htt

def ready (ts : List Transition) (placed : List Label) (l : Label) : Bool :=
  ts.all fun t => t.target != l || placed.contains t.source

theorem ready_iff {ts : List Transition} {placed : List Label} {l : Label} :
    ready ts placed l = true ↔ ∀ t ∈ ts, t.target = l → t.source ∈ placed := by
  simp only [ready, List.all_eq_true, Bool.or_eq_true, bne_iff_ne, List.contains_iff_mem]
  constructor
  · intro h t ht hl
    exact (h t ht).resolve_left (fun hne => hne hl)
  · intro h t ht
    by_cases hl : t.target = l
    · exact Or.inr (h t ht hl)
    · exact Or.inl hl

/-- The states that become ready when `l` is the last state placed, in the order of the last
transition from `l` to each. -/
def released (ts : List Transition) (placed : List Label) (l : Label) : List Label :=
  (distinct ((ts.filter (·.source == l)).map (·.target)).reverse).reverse.filter (ready ts placed)

theorem mem_released {ts : List Transition} {placed : List Label} {l m : Label} :
    m ∈ released ts placed l ↔
      (∃ t ∈ ts, t.source = l ∧ t.target = m) ∧ ready ts placed m = true := by
  simp only [released, List.mem_filter, List.mem_reverse, mem_distinct, List.mem_map]
  constructor
  · rintro ⟨⟨t, ⟨ht, hl⟩, hm⟩, hr⟩
    exact ⟨⟨t, ht, by simpa using hl, hm⟩, hr⟩
  · rintro ⟨⟨t, ht, hl, hm⟩, hr⟩
    exact ⟨⟨t, ⟨ht, by simpa using hl⟩, hm⟩, hr⟩

theorem nodup_released (ts : List Transition) (placed : List Label) (l : Label) :
    (released ts placed l).Nodup :=
  (((List.reverse_perm _).nodup_iff).2 (nodup_distinct _)).filter _

/-- Places the states that wait in line, and behind them those that they release. -/
def place (ts : List Transition) : (steps : Nat) → (line placed : List Label) → List Label
  | 0, _, _ => []
  | _ + 1, [], _ => []
  | steps + 1, l :: line, placed =>
    l :: place ts steps (line ++ released ts (l :: placed) l) (l :: placed)

def topologicalOrder (ts : List Transition) (labels : List Label) : List Label :=
  place ts labels.length (labels.filter (ready ts [])) []

/-- Whoever waits in line is ready and not placed, and whoever is placed has been ready. -/
structure InLine (ts : List Transition) (line placed : List Label) : Prop where
  nodup : line.Nodup
  fresh : ∀ l ∈ line, l ∉ placed
  ready : ∀ l ∈ line, ∀ t ∈ ts, t.target = l → t.source ∈ placed
  closed : ∀ l ∈ placed, ∀ t ∈ ts, t.target = l → t.source ∈ placed

theorem InLine.step {ts : List Transition} {l : Label} {line placed : List Label}
    (h : InLine ts (l :: line) placed) :
    InLine ts (line ++ released ts (l :: placed) l) (l :: placed) := by
  have hl : l ∉ placed := h.fresh l (by simp)
  have hnd := List.nodup_cons.1 h.nodup
  refine ⟨?_, ?_, ?_, ?_⟩
  · refine List.nodup_append.2 ⟨hnd.2, nodup_released _ _ _, ?_⟩
    rintro m hm m' hm' rfl
    obtain ⟨⟨t, ht, hs, htm⟩, -⟩ := mem_released.1 hm'
    exact hl (hs ▸ h.ready m (by simp [hm]) t ht htm)
  · intro m hm
    rw [List.mem_cons, not_or]
    rcases List.mem_append.1 hm with hm' | hm'
    · refine ⟨?_, h.fresh m (by simp [hm'])⟩
      rintro rfl
      exact hnd.1 hm'
    · obtain ⟨⟨t, ht, hs, htm⟩, -⟩ := mem_released.1 hm'
      constructor
      · rintro rfl
        exact hl (hs ▸ h.ready m (by simp) t ht htm)
      · intro hmp
        exact hl (hs ▸ h.closed m hmp t ht htm)
  · intro m hm t ht htm
    rcases List.mem_append.1 hm with hm | hm
    · exact List.mem_cons_of_mem _ (h.ready m (by simp [hm]) t ht htm)
    · exact ready_iff.1 (mem_released.1 hm).2 t ht htm
  · intro m hm t ht htm
    rcases List.mem_cons.1 hm with rfl | hm
    · exact List.mem_cons_of_mem _ (h.ready m (by simp) t ht htm)
    · exact List.mem_cons_of_mem _ (h.closed m hm t ht htm)

theorem nodup_place {ts : List Transition} {steps : Nat} {line placed : List Label}
    (h : InLine ts line placed) :
    (place ts steps line placed).Nodup ∧ ∀ l ∈ place ts steps line placed, l ∉ placed := by
  induction steps generalizing line placed with
  | zero => simp [place]
  | succ steps ih =>
    cases line with
    | nil => simp [place]
    | cons l line =>
      obtain ⟨hnd, hfresh⟩ := ih h.step
      simp only [place, List.nodup_cons, List.forall_mem_cons]
      refine ⟨⟨fun hmem => hfresh l hmem (by simp), hnd⟩, h.fresh l (by simp), ?_⟩
      intro m hm hmp
      exact hfresh m hm (List.mem_cons_of_mem _ hmp)

theorem idxOf_place_lt {ts : List Transition} {steps : Nat} {line placed : List Label}
    (h : InLine ts line placed) {t : Transition} (ht : t ∈ ts)
    (hmem : t.target ∈ place ts steps line placed) :
    t.source ∈ placed ∨ (place ts steps line placed).idxOf t.source <
      (place ts steps line placed).idxOf t.target := by
  induction steps generalizing line placed with
  | zero => simp [place] at hmem
  | succ steps ih =>
    cases line with
    | nil => simp [place] at hmem
    | cons l line =>
      rw [place] at hmem ⊢
      by_cases htl : t.target = l
      · exact Or.inl (h.ready l (by simp) t ht htl)
      · have hmem' := (List.mem_cons.1 hmem).resolve_left htl
        have hbne : (l == t.target) = false := by simpa using fun e => htl e.symm
        by_cases hsl : t.source = l
        · right
          simp only [List.idxOf_cons, hsl, hbne, beq_self_eq_true, cond_true, cond_false]
          omega
        · have hbne' : (l == t.source) = false := by simpa using fun e => hsl e.symm
          rcases ih h.step hmem' with hin | hlt
          · exact Or.inl ((List.mem_cons.1 hin).resolve_left hsl)
          · right
            simp only [List.idxOf_cons, hbne, hbne', cond_false]
            omega

theorem inLine_start (ts : List Transition) {labels : List Label} (h : labels.Nodup) :
    InLine ts (labels.filter (ready ts [])) [] := by
  refine ⟨h.filter _, by simp, ?_, by simp⟩
  intro l hl t ht htl
  exact ready_iff.1 (List.mem_filter.1 hl).2 t ht htl

theorem nodup_topologicalOrder (ts : List Transition) {labels : List Label} (h : labels.Nodup) :
    (topologicalOrder ts labels).Nodup :=
  (nodup_place (inLine_start ts h)).1

theorem forward_topologicalOrder {ts : List Transition} {labels : List Label} (h : labels.Nodup)
    (hall : ∀ l ∈ labels, l ∈ topologicalOrder ts labels) (ht : ∀ t ∈ ts, t.target ∈ labels) :
    Forward ts (topologicalOrder ts labels) := by
  intro t htt
  have hmem := hall _ (ht t htt)
  refine ⟨hmem, ?_⟩
  rcases idxOf_place_lt (inLine_start ts h) htt hmem with hin | hlt
  · cases hin
  · exact hlt

end Transition

end GrammarRepair
