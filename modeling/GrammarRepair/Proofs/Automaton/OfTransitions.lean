import GrammarRepair.Proofs.Automaton.Cycles
import GrammarRepair.Proofs.Automaton.Language
import Mathlib.Data.Set.Function

/-!
Building an automaton from labelled transitions. The order in which the labels are put numbers them,
and the edges, sorted and each taken once, lie together state by state. Main statement: an automaton
is built exactly if no transitions go in a circle, it then numbers the labels so that every edge
leads forward and accepts what the transitions spell, and otherwise the labels on and behind cycles
are counted.
-/

namespace GrammarRepair

namespace Edge

variable {e f k : Edge}

theorem before_iff : e.before f = true ↔ e.source < f.source ∨ e.source = f.source ∧
    (e.token < f.token ∨ e.token = f.token ∧ e.target ≤ f.target) := by
  simp [before]

theorem before_trans (hef : e.before f = true) (hfk : f.before k = true) : e.before k = true := by
  rw [before_iff] at *
  omega

theorem before_total (e f : Edge) : (e.before f || f.before e) = true := by
  rw [Bool.or_eq_true, before_iff, before_iff]
  omega

theorem before_antisymm (hef : e.before f = true) (hfe : f.before e = true) : e = f := by
  rw [before_iff] at *
  cases e
  cases f
  rw [mk.injEq]
  simp only at hef hfe
  omega

theorem ascending_sortedDistinct_before (es : List Edge) :
    (sortedDistinct before es).Pairwise fun e f => e.before f = true ∧ e ≠ f := by
  apply pairwise_sortedDistinct
  · intro e f k hef hfk
    exact before_trans hef hfk
  · exact before_total
  · intro e f hef hfe
    exact before_antisymm hef hfe

end Edge

namespace Automaton

/-- Where the edges of each of the next states begin, when the edges are counted off from a position
on, and where the last of them end. -/
def blockStarts (edges : List Edge) : (steps state position : Nat) → List Nat
  | 0, _, position => [position]
  | steps + 1, state, position =>
    position :: blockStarts edges steps (state + 1)
      (position + ((edges.drop position).takeWhile (·.source == state)).length)

/-- Where the edges of each state begin, and at last how many edges there are. -/
def edgeStarts (aut : Automaton) : List Nat := blockStarts aut.edges aut.stateCount 0 0

def slice (edges : List Edge) (starts : List Nat) (state : Nat) : List Edge :=
  (edges.drop (starts.getD state 0)).take (starts.getD (state + 1) 0 - starts.getD state 0)

/-- If no edge leaves an earlier state, those of the state come first. -/
theorem takeWhile_source_eq {es : List Edge} {p : Nat} (h : es.Pairwise (·.source ≤ ·.source))
    (hle : ∀ e ∈ es, p ≤ e.source) : es.takeWhile (·.source == p) = es.filter (·.source == p) ∧
      ∀ e ∈ es.dropWhile (·.source == p), p < e.source := by
  induction es with
  | nil => simp
  | cons e es ih =>
    obtain ⟨hfirst, hrest⟩ := List.pairwise_cons.1 h
    rw [List.forall_mem_cons] at hle
    by_cases hp : e.source = p
    · obtain ⟨htake, hdrop⟩ := ih hrest hle.2
      simp only [List.takeWhile_cons, List.filter_cons, List.dropWhile_cons, hp, beq_self_eq_true,
        if_true, htake, true_and]
      exact hdrop
    · have hlt : p < e.source := Nat.lt_of_le_of_ne hle.1 (Ne.symm hp)
      have hnone : es.filter (·.source == p) = [] := by
        refine List.filter_eq_nil_iff.2 fun f hf => ?_
        have hef := hfirst f hf
        simp only [beq_iff_eq]
        omega
      simp only [List.takeWhile_cons, List.filter_cons, List.dropWhile_cons, beq_iff_eq, hp,
        if_false, hnone, List.forall_mem_cons, true_and]
      exact ⟨hlt, fun f hf => Nat.lt_of_lt_of_le hlt (hfirst f hf)⟩

theorem slice_blockStarts {edges : List Edge} (h : edges.Pairwise (·.source ≤ ·.source))
    {steps p position i : Nat} (hbefore : ∀ e ∈ edges.take position, e.source < p)
    (hafter : ∀ e ∈ edges.drop position, p ≤ e.source) (hi : i < steps) :
    slice edges (blockStarts edges steps p position) i = edges.filter (·.source == p + i) := by
  induction steps generalizing p position i with
  | zero => exact absurd hi (Nat.not_lt_zero i)
  | succ steps ih =>
    obtain ⟨htake, hdrop⟩ := takeWhile_source_eq (h.drop (i := position)) hafter
    have hsplit := List.takeWhile_append_dropWhile (p := (·.source == p)) (l := edges.drop position)
    obtain ⟨block, hblock⟩ : ∃ block, (edges.drop position).takeWhile (·.source == p) = block :=
      ⟨_, rfl⟩
    obtain ⟨rest, hrest⟩ : ∃ rest, (edges.drop position).dropWhile (·.source == p) = rest :=
      ⟨_, rfl⟩
    rw [hrest] at hdrop hsplit
    rw [hblock] at htake hsplit
    rw [slice, blockStarts, hblock]
    cases i with
    | zero =>
      have hnone : (edges.take position).filter (·.source == p) = [] := by
        refine List.filter_eq_nil_iff.2 fun e he => ?_
        have hlt := hbefore e he
        simp only [beq_iff_eq]
        omega
      have hfilter : edges.filter (·.source == p) = block := by
        conv_lhs => rw [← List.take_append_drop position edges]
        rw [List.filter_append, hnone, ← htake, List.nil_append]
      have hnext : (blockStarts edges steps (p + 1) (position + block.length)).getD 0 0 =
          position + block.length := by
        cases steps <;> rfl
      rw [List.getD_cons_succ, List.getD_cons_zero, hnext, Nat.add_sub_cancel_left, Nat.add_zero,
        hfilter, ← hsplit]
      exact List.take_left
    | succ i =>
      have hslice : slice edges (blockStarts edges steps (p + 1) (position + block.length)) i =
          edges.filter (·.source == p + 1 + i) :=
        ih (fun e he => ?_) (fun e he => ?_) (by omega)
      · rw [List.getD_cons_succ, List.getD_cons_succ, ← slice, hslice, Nat.add_assoc,
          Nat.add_comm 1 i]
      · rw [List.take_add, ← hsplit, List.take_left] at he
        rcases List.mem_append.1 he with he | he
        · exact Nat.lt_succ_of_lt (hbefore e he)
        · rw [htake] at he
          have hsource := beq_iff_eq.1 (List.mem_filter.1 he).2
          omega
      · rw [← List.drop_drop, ← hsplit, List.drop_left] at he
        exact hdrop e he

/-- In an automaton with ascending edges those of a state lie between two starts. -/
theorem edgesFrom_eq_slice {aut : Automaton} (h : aut.edges.Pairwise (·.source ≤ ·.source))
    {p : Nat} (hp : p < aut.stateCount) : aut.edgesFrom p = slice aut.edges aut.edgeStarts p := by
  rw [edgeStarts, slice_blockStarts h (by simp) (by simp) hp, Nat.zero_add, edgesFrom]

theorem label_of_lt {aut : Automaton} {p : Nat} (hp : p < aut.labels.size) :
    aut.label p = aut.labels[p] := by
  rw [label, Array.getD_eq_getD_getElem?, Array.getElem?_eq_getElem hp, Option.getD_some]

theorem stateOf?_eq_some_iff {aut : Automaton} {l : Label} {p : Nat} :
    aut.stateOf? l = some p ↔ p < aut.stateCount ∧ aut.label p = l := by
  rw [stateOf?, ← aut.labels.toArray_toList, List.idxOf?_toArray, List.idxOf?_eq_some_iff]
  constructor
  · rintro ⟨hp, hl, -⟩
    exact ⟨hp, (label_of_lt hp).trans hl⟩
  · rintro ⟨hp, rfl⟩
    refine ⟨hp, (label_of_lt hp).symm, fun i hi heq => ?_⟩
    exact Nat.ne_of_lt hi (aut.nodup_labels.getElem_inj_iff.1 (heq.trans (label_of_lt hp)))

/-- The numbers below the number of states stand for the labels, each for one. -/
theorem bijOn_label (aut : Automaton) :
    Set.BijOn aut.label {p | p < aut.stateCount} {l | l ∈ aut.labels} := by
  refine ⟨fun p hp => ?_, fun p hp q hq heq => ?_, fun l hl => ?_⟩
  · rw [label_of_lt hp]
    exact Array.getElem_mem hp
  · have hp' := stateOf?_eq_some_iff.2 ⟨hp, rfl⟩
    have hq' := stateOf?_eq_some_iff.2 ⟨hq, rfl⟩
    rw [heq] at hp'
    exact Option.some.inj (hp'.symm.trans hq')
  · obtain ⟨p, hp, rfl⟩ := Array.mem_iff_getElem.1 hl
    exact ⟨p, hp, label_of_lt hp⟩

/-- The automaton has a number for every label that is mentioned, and what is said of labels by the
transitions is said of their numbers by the edges. -/
structure Numbers (aut : Automaton) (ts : List Transition) (initials finals : List Label) :
    Prop where
  bijOn_label : Set.BijOn aut.label {p | p < aut.stateCount}
    {l | (∃ t ∈ ts, t.source = l ∨ t.target = l) ∨ l ∈ initials ∨ l ∈ finals}
  stateOf?_eq_some_iff : ∀ l p, aut.stateOf? l = some p ↔ p < aut.stateCount ∧ aut.label p = l
  source_lt_target : ∀ e ∈ aut.edges, e.source < e.target
  mem_edges_iff : ∀ e : Edge, e ∈ aut.edges ↔ ∃ t ∈ ts, aut.stateOf? t.source = some e.source ∧
    t.token = e.token ∧ aut.stateOf? t.target = some e.target
  ascending_edges : aut.edges.Pairwise fun e f => e.before f = true ∧ e ≠ f
  edgesFrom_eq_slice : ∀ p < aut.stateCount, aut.edgesFrom p = slice aut.edges aut.edgeStarts p
  mem_edgesFrom_iff : ∀ p e, e ∈ aut.edgesFrom p ↔ e ∈ aut.edges ∧ e.source = p
  mem_initials_iff : ∀ p, p ∈ aut.initials ↔ ∃ l ∈ initials, aut.stateOf? l = some p
  mem_finals_iff : ∀ p, p ∈ aut.finals ↔ ∃ l ∈ finals, aut.stateOf? l = some p
  accepts_iff : ∀ w, aut.accepts w = true ↔
    ∃ l ∈ initials, ∃ m ∈ finals, Transition.Path ts l w m

section OfOrder

variable {order : List Label} {ts : List Transition} {initials finals : List Label}
  (hnodup : order.Nodup) (hforward : Transition.Forward ts order)
  (hinitials : ∀ l ∈ initials, l ∈ order) (hfinals : ∀ l ∈ finals, l ∈ order)

theorem stateOf?_ofOrder {l : Label} (hl : l ∈ order) :
    (ofOrder order ts initials finals hnodup hforward hinitials hfinals).stateOf? l =
      some (order.idxOf l) :=
  stateOf?_eq_some_iff.2 ⟨List.idxOf_lt_length_iff.2 hl, label_ofOrder _ _ _ _ hl⟩

theorem numbers_ofOrder (hmentioned : ∀ l, l ∈ order ↔
      (∃ t ∈ ts, t.source = l ∨ t.target = l) ∨ l ∈ initials ∨ l ∈ finals) :
    (ofOrder order ts initials finals hnodup hforward hinitials hfinals).Numbers ts initials
      finals := by
  have hstate := fun l (hl : l ∈ order) =>
    stateOf?_ofOrder hnodup hforward hinitials hfinals hl
  have hnumbers : ∀ ls : List Label, (∀ l ∈ ls, l ∈ order) → ∀ p,
      p ∈ sortedDistinct (· ≤ ·) (ls.map order.idxOf) ↔ ∃ l ∈ ls,
        (ofOrder order ts initials finals hnodup hforward hinitials hfinals).stateOf? l = some p := by
    intro ls hls p
    rw [mem_sortedDistinct, List.mem_map]
    refine exists_congr fun l => and_congr_right fun hl => ?_
    rw [hstate l (hls l hl), Option.some.injEq]
  have hascending :
      (ofOrder order ts initials finals hnodup hforward hinitials hfinals).edges.Pairwise
        fun e f => e.before f = true ∧ e ≠ f := Edge.ascending_sortedDistinct_before _
  have hsources := hascending.imp fun {e f} h => show e.source ≤ f.source by
    have hbefore := Edge.before_iff.1 h.1
    omega
  refine ⟨?_, fun l p => stateOf?_eq_some_iff, source_lt_target _, fun e => ?_, hascending,
    fun p => edgesFrom_eq_slice hsources, fun p e => ?_, hnumbers initials hinitials,
    hnumbers finals hfinals, fun w => accepts_ofOrder_iff hnodup hforward hinitials hfinals⟩
  · convert bijOn_label (ofOrder order ts initials finals hnodup hforward hinitials hfinals)
      using 1
    ext l
    rw [Set.mem_ofPred_eq, ← hmentioned, Set.mem_ofPred_eq, ofOrder, List.mem_toArray]
  · rw [mem_edges_ofOrder]
    refine exists_congr fun t => and_congr_right fun ht => ?_
    rw [hstate _ (source_mem_of_forward hforward ht), hstate _ (hforward t ht).1]
    cases e
    rw [Edge.mk.injEq, Option.some.injEq, Option.some.injEq]
  · rw [edgesFrom, List.mem_filter, beq_iff_eq]

end OfOrder

section OfTransitions

open Transition

variable {ts : List Transition} {initials finals : List Label} {built : Traced Automaton}

theorem mem_mentioned_iff {l : Label} : l ∈ mentioned ts initials finals ↔
    (∃ t ∈ ts, t.source = l ∨ t.target = l) ∨ l ∈ initials ∨ l ∈ finals := by
  simp only [mentioned, mem_distinct, List.mem_append, List.mem_flatMap, List.mem_cons,
    List.not_mem_nil, or_false, or_assoc, eq_comm (a := l)]

/-- All that can come of transitions with an initial state: an automaton made from an order of all
that is mentioned, or a report of the labels that could not be placed. -/
theorem ofTransitions_cases (ts : List Transition) (finals : List Label)
    (hinitials : initials ≠ []) :
    (∃ order hnodup hforward hi hf how, ofTransitions ts initials finals =
        .ok ((ofOrder order ts initials finals hnodup hforward hi hf).announce how) ∧
      ∀ l, l ∈ order ↔ l ∈ mentioned ts initials finals) ∨
    ofTransitions ts initials finals = .error (.cyclic ((mentioned ts initials finals).length -
        (topologicalOrder ts (mentioned ts initials finals)).length)) ∧
      ∃ l ∈ mentioned ts initials finals,
        l ∉ topologicalOrder ts (mentioned ts initials finals) := by
  have hsome : ¬ initials.isEmpty = true := fun h => hinitials (List.isEmpty_iff.1 h)
  unfold ofTransitions
  rw [if_neg hsome]
  dsimp only
  split
  · next hgrid =>
    exact .inl ⟨_, nodup_gridOrder (nodup_distinct _),
      forward_gridOrder (fun _ => source_mem_mentioned) (fun _ => target_mem_mentioned) hgrid,
      fun _ hl => mem_gridOrder.2 (initial_mem_mentioned hl),
      fun _ hl => mem_gridOrder.2 (final_mem_mentioned hl), .grid, rfl, fun l => mem_gridOrder⟩
  · split
    · next hall =>
      refine .inl ⟨_, nodup_topologicalOrder ts (nodup_distinct _),
        forward_topologicalOrder (nodup_distinct _) hall fun _ => target_mem_mentioned,
        fun _ hl => hall _ (initial_mem_mentioned hl), fun _ hl => hall _ (final_mem_mentioned hl),
        .topological, rfl, fun l => ⟨fun hl => ?_, hall l⟩⟩
      exact place_subset (fun _ => target_mem_mentioned) (List.filter_subset_self _) hl
    · next hleft =>
      push Not at hleft
      exact .inr ⟨rfl, hleft⟩

end OfTransitions

end Automaton

open Automaton Transition

/-- Transitions with an initial state make an automaton exactly if they have no cycle. It numbers
the labels that are mentioned; otherwise the labels on cycles and behind them are reported. -/
theorem ofTransitions_ok_iff_acyclic (ts : List Transition) {initials : List Label}
    (finals : List Label) (hinitials : initials ≠ []) :
    ((ofTransitions ts initials finals).isOk = true ↔ ∀ c, ¬ OnCycle ts c) ∧
      (∀ built, ofTransitions ts initials finals = .ok built →
        built.value.Numbers ts initials finals) ∧
      ∀ e, ofTransitions ts initials finals = .error e →
        e = .cyclic {l | BehindCycle ts l}.ncard := by
  rcases ofTransitions_cases ts finals hinitials with
    ⟨order, hnodup, hforward, hi, hf, how, hok, hmem⟩ | ⟨herror, l, hl, hleft⟩
  · rw [hok]
    refine ⟨iff_of_true rfl hforward.not_onCycle, fun built hbuilt => ?_, fun e he => ?_⟩
    · obtain rfl := Except.ok.inj hbuilt
      refine numbers_ofOrder hnodup hforward hi hf fun l => ?_
      rw [hmem, mem_mentioned_iff]
    · cases he
  · have hnodup : (mentioned ts initials finals).Nodup := nodup_distinct _
    have hcycle : ∃ c, OnCycle ts c := by
      by_contra hnone
      refine hleft ((mem_topologicalOrder_iff hnodup (fun _ => source_mem_mentioned)
        fun _ => target_mem_mentioned).2 ⟨hl, ?_⟩)
      rintro ⟨c, hc, -⟩
      exact hnone ⟨c, hc⟩
    rw [herror, length_sub_length_topologicalOrder hnodup (fun _ => source_mem_mentioned)
      fun _ => target_mem_mentioned]
    refine ⟨iff_of_false Bool.false_ne_true fun h => ?_, fun built hbuilt => ?_, fun e he => ?_⟩
    · obtain ⟨c, hc⟩ := hcycle
      exact h c hc
    · cases hbuilt
    · exact (Except.error.inj he).symm

/-- Of four labels two are on a cycle and one is behind it; that from which the cycle is reached is
not counted. -/
theorem ofTransitions_of_cycle :
    [Label.plain 3] ≠ [] ∧ ofTransitions [⟨.plain 0, 7, .plain 1⟩, ⟨.plain 1, 7, .plain 0⟩,
      ⟨.plain 1, 8, .plain 2⟩, ⟨.plain 3, 7, .plain 0⟩] [.plain 3] [.plain 2] =
        .error (.cyclic 3) := by
  let ts : List Transition := [⟨.plain 0, 7, .plain 1⟩, ⟨.plain 1, 7, .plain 0⟩,
    ⟨.plain 1, 8, .plain 2⟩, ⟨.plain 3, 7, .plain 0⟩]
  have hthere : Leads ts (.plain 0) (.plain 1) := ⟨_, List.mem_cons_self, rfl, rfl⟩
  have hback : Leads ts (.plain 1) (.plain 0) := ⟨⟨.plain 1, 7, .plain 0⟩, by decide, rfl, rfl⟩
  have hon : Leads ts (.plain 1) (.plain 2) := ⟨⟨.plain 1, 8, .plain 2⟩, by decide, rfl, rfl⟩
  have hcycle : OnCycle ts (.plain 0) := .tail (.single hthere) hback
  have hbehind : {l | BehindCycle ts l} =
      (({.plain 0, .plain 1, .plain 2} : Finset Label) : Set Label) := by
    ext l
    simp only [Set.mem_ofPred_eq, Finset.coe_insert, Finset.coe_singleton, Set.mem_insert_iff,
      Set.mem_singleton_iff]
    constructor
    · intro h
      have htargets : ∀ t ∈ ts,
          t.target = .plain 0 ∨ t.target = .plain 1 ∨ t.target = .plain 2 := by
        decide
      obtain ⟨t, ht, rfl⟩ := h.exists_target
      exact htargets t ht
    · rintro (rfl | rfl | rfl)
      · exact hcycle.behind
      · exact hcycle.behind.step hthere
      · exact (hcycle.behind.step hthere).step hon
  have hinitials : [Label.plain 3] ≠ [] := List.cons_ne_nil _ _
  obtain ⟨hok, -, herror⟩ := ofTransitions_ok_iff_acyclic ts [.plain 2] hinitials
  refine ⟨hinitials, ?_⟩
  cases h : ofTransitions ts [.plain 3] [.plain 2] with
  | ok built => exact absurd hcycle (hok.1 (by rw [h]; rfl) _)
  | error e =>
    rw [herror e h, hbehind, Set.ncard_coe_finset]
    rfl

end GrammarRepair
