import GrammarRepair.Proofs.Forest.Language
import Mathlib.Combinatorics.Enumerative.Catalan.Basic
import Mathlib.Data.List.Range

/-!
A family of forests with many derivations: one rule that is a token or two of itself, over a line of
states. Every way to bracket the tokens of the line is a derivation of its own. Main statement: a rule
over `d + 1` edges of the line has as many trees as the `d`-th Catalan number says.
-/

namespace GrammarRepair

open Constituent

/-- `S: S S | 'a'` -/
def bracketing : Grammar :=
  .assemble ["S"] 0 ["a"] [⟨0, .pair 0 0⟩, ⟨0, .token 0⟩] (by decide) (by decide) (by decide)
    (by simp [Production.InRange])

/-- The states from 0 to `n`, each with an edge to the next. -/
def line (n : Nat) (finals : List Nat) (hfinals : ∀ q ∈ finals, q ≤ n) : Automaton where
  labels := ((List.range (n + 1)).map Label.plain).toArray
  edges := (List.range n).map fun i => ⟨i, 0, i + 1⟩
  initials := [0]
  finals := finals
  nodup_labels := by
    simpa using List.nodup_range.map fun i j hij => Label.plain.inj hij
  source_lt_target := by simp
  target_lt := by simp
  initial_lt := by simp
  final_lt := by
    intro q hq
    simpa [Nat.lt_succ_iff] using hfinals q hq

section

variable {n : Nat} {finals : List Nat} {hfinals : ∀ q ∈ finals, q ≤ n} {p q d : Nat}

theorem stateCount_line : (line n finals hfinals).stateCount = n + 1 := by
  simp [line, Automaton.stateCount]

theorem mem_edges_line {e : Edge} :
    e ∈ (line n finals hfinals).edges ↔ e.source < n ∧ e = ⟨e.source, 0, e.source + 1⟩ := by
  simp only [line, List.mem_map, List.mem_range]
  constructor
  · rintro ⟨i, hi, rfl⟩
    exact ⟨hi, rfl⟩
  · rintro ⟨hi, he⟩
    exact ⟨e.source, hi, he.symm⟩

theorem pair_mem_bracketing : ⟨0, .pair 0 0⟩ ∈ bracketing.productions.toList := by decide

theorem token_mem_bracketing : ⟨0, .token 0⟩ ∈ bracketing.productions.toList := by decide

theorem spans_line (hq : p + d + 1 ≤ n) :
    bracketing.Spans (line n finals hfinals) p 0 (p + d + 1) := by
  induction d with
  | zero =>
    exact Grammar.spans_of_edge (e := ⟨p, 0, p + 1⟩) (mem_edges_line.2 ⟨hq, rfl⟩) token_mem_bracketing
  | succ d ih =>
    refine Grammar.spans_of_pair pair_mem_bracketing (ih (by omega)) ?_
    exact Grammar.spans_of_edge (e := ⟨p + d + 1, 0, p + d + 1 + 1⟩)
      (mem_edges_line.2 ⟨hq, rfl⟩) token_mem_bracketing

theorem spans_line_iff :
    bracketing.Spans (line n finals hfinals) p 0 q ↔ p < q ∧ q ≤ n := by
  constructor
  · intro h
    have hlt := h.lt
    rw [stateCount_line] at hlt
    exact ⟨hlt.1, Nat.le_of_lt_succ hlt.2⟩
  · rintro ⟨hlt, hle⟩
    obtain ⟨d, rfl⟩ := Nat.exists_eq_add_of_lt hlt
    exact spans_line hle

theorem splits_line {m : Nat} (hm : p < m) (hq : m < q) (hle : q ≤ n) :
    Splits bracketing (line n finals hfinals) ⟨p, 0, q⟩ ⟨p, 0, m⟩ ⟨m, 0, q⟩ :=
  ⟨0, 0, m, pair_mem_bracketing, rfl, rfl,
    spans_line_iff.2 ⟨hm, Nat.le_of_lt (Nat.lt_of_lt_of_le hq hle)⟩, spans_line_iff.2 ⟨hq, hle⟩⟩

theorem needed_line (hfinal : n ∈ finals) (hlt : p < q) (hle : q ≤ n) :
    Needed bracketing (line n finals hfinals) ⟨p, 0, q⟩ := by
  have hinitial : 0 ∈ (line n finals hfinals).initials := List.mem_singleton_self 0
  have hall : Needed bracketing (line n finals hfinals) ⟨0, 0, n⟩ :=
    .start hinitial hfinal (spans_line_iff.2 ⟨by omega, Nat.le_refl n⟩)
  have hfirst : Needed bracketing (line n finals hfinals) ⟨0, 0, q⟩ := by
    rcases Nat.eq_or_lt_of_le hle with rfl | hq
    · exact hall
    · exact hall.part ⟨_, _, splits_line (by omega) hq (Nat.le_refl n), .inl rfl⟩
  rcases Nat.eq_zero_or_pos p with rfl | hp
  · exact hfirst
  · exact hfirst.part ⟨_, _, splits_line hp hlt hle, .inr rfl⟩

theorem midpoints_line (hle : q ≤ n) : (line n finals hfinals).reach.midpoints p q =
    List.range' (p + 1) (q - (p + 1)) := by
  have hascending : ((line n finals hfinals).reach.midpoints p q).Pairwise (· < ·) :=
    ((List.pairwise_lt_range.filter _).filter _)
  have hreaches : ∀ {p q}, (line n finals hfinals).reach.reaches p q = true ↔ p < q ∧ q ≤ n := by
    intro p q
    constructor
    · intro h
      have hlt := Automaton.lt_of_reaches h
      rw [stateCount_line] at hlt
      exact ⟨hlt.1, Nat.le_of_lt_succ hlt.2⟩
    · intro h
      exact (spans_line_iff.2 h).reaches
  refine hascending.eq_of_mem_iff List.pairwise_lt_range' fun m => ?_
  rw [Automaton.mem_midpoints_iff, hreaches, hreaches, List.mem_range'_1]
  omega

theorem length_leavesOf_line (hle : q ≤ n) :
    (Arena.leavesOf bracketing (line n finals hfinals) ⟨p, 0, q⟩).length =
      if q = p + 1 then 1 else 0 := by
  have hrules : (bracketing.rulesOf 0).contains 0 = true :=
    List.contains_iff_mem.2 (Grammar.mem_rulesOf.2 token_mem_bracketing)
  have hedges : (fun i => ((⟨i, 0, i + 1⟩ : Edge).source == p && (⟨i, 0, i + 1⟩ : Edge).target == q &&
      (bracketing.rulesOf (⟨i, 0, i + 1⟩ : Edge).token).contains 0)) =
        fun i => i == p && decide (q = p + 1) := by
    funext i
    rw [hrules, Bool.and_true, Bool.eq_iff_iff]
    simp only [Bool.and_eq_true, beq_iff_eq, decide_eq_true_eq]
    omega
  rw [Arena.leavesOf, List.length_map, line, List.filter_map, List.length_map]
  simp only [Function.comp_def]
  rw [hedges]
  split
  · next h =>
    have hp : p ∈ List.range n := List.mem_range.2 (by omega)
    simp [h, List.filter_beq, List.count_eq_one_of_mem List.nodup_range hp]
  · next h => simp [h]

theorem partsOf_line (hfinal : n ∈ finals) (hle : q ≤ n) :
    partsOf bracketing (line n finals hfinals)
      (isNeeded bracketing (line n finals hfinals)) ⟨p, 0, q⟩ =
      (List.range' (p + 1) (q - (p + 1))).map fun m => (⟨p, 0, m⟩, ⟨m, 0, q⟩) := by
  have hpairs : bracketing.pairs.filter (·.1 == 0) = [(0, 0, 0)] := by decide
  rw [partsOf, hpairs, List.flatMap_singleton, partsOver, visit, midpoints_line hle]
  refine List.filter_eq_self.2 fun x hx => ?_
  obtain ⟨m, hm, rfl⟩ := List.mem_map.1 hx
  have hm : p + 1 ≤ m ∧ m < p + 1 + (q - (p + 1)) := List.mem_range'_1.1 hm
  have hbetween : p < m ∧ m < q := by omega
  rw [Bool.and_eq_true, isNeeded_iff, isNeeded_iff]
  exact ⟨needed_line hfinal hbetween.1 (Nat.le_of_lt (Nat.lt_of_lt_of_le hbetween.2 hle)),
    needed_line hfinal hbetween.2 hle⟩

/-- The trees over a stretch of the line are as many as the ways to bracket its tokens. -/
theorem length_treesFor_line {f : Forest} (h : f.IsFull bracketing (line n finals hfinals))
    (hfinal : n ∈ finals) (hle : p + d + 1 ≤ n) :
    (f.treesFor bracketing (line n finals hfinals) ⟨p, 0, p + d + 1⟩).length = catalan d := by
  induction d using Nat.strongRecOn generalizing p with
  | ind d ih =>
    rw [h.treesFor_eq (needed_line hfinal (by omega) hle), List.length_append, List.length_map,
      length_leavesOf_line hle, partsOf_line hfinal hle, List.flatMap_map,
      List.length_flatMap, List.range'_eq_map_range, List.map_map]
    cases d with
    | zero => simp
    | succ d =>
      have hparts : ∀ i ∈ List.range (d + 1),
          ((f.treesFor bracketing (line n finals hfinals) ⟨p, 0, p + 1 + i⟩).flatMap fun left =>
            (f.treesFor bracketing (line n finals hfinals)
              ⟨p + 1 + i, 0, p + (d + 1) + 1⟩).map (Tree.branch left)).length =
          catalan i * catalan (d - i) := by
        intro i hi
        have hi := List.mem_range.1 hi
        have hleft := ih i (by omega) (p := p) (by omega)
        have hright := ih (d - i) (by omega) (p := p + 1 + i) (by omega)
        rw [show p + i + 1 = p + 1 + i by omega] at hleft
        rw [show p + 1 + i + (d - i) + 1 = p + (d + 1) + 1 by omega] at hright
        rw [List.length_flatMap]
        simp [hleft, hright]
      rw [if_neg (by omega), Nat.zero_add, catalan_succ',
        Finset.Nat.sum_antidiagonal_eq_sum_range_succ fun i j => catalan i * catalan j,
        ← List.toFinset_range, List.sum_toFinset _ List.nodup_range,
        show p + (d + 1) + 1 - (p + 1) = d + 1 by omega]
      exact congrArg List.sum (List.map_congr_left hparts)

theorem roots_line {f : Forest} (h : f.IsFull bracketing (line n finals hfinals))
    (hfinal : n ∈ finals) (hnodup : finals.Nodup) (hpos : ∀ q ∈ finals, 0 < q) :
    f.roots.Perm (finals.map fun q =>
      (neededOrder bracketing (line n finals hfinals)).idxOf ⟨0, 0, q⟩) := by
  have hneeded : ∀ q ∈ finals, Needed bracketing (line n finals hfinals) ⟨0, 0, q⟩ :=
    fun q hq => needed_line hfinal (hpos q hq) (hfinals q hq)
  have hroots : f.roots.Nodup := h.roots_ascending.imp Nat.ne_of_lt
  refine (List.perm_ext_iff_of_nodup hroots ?_).2 fun x => ?_
  · refine hnodup.map_on fun q hq q' _ heq => ?_
    exact congrArg Constituent.target
      ((List.idxOf_inj (mem_neededOrder.2 (hneeded q hq))).1 heq)
  · rw [h.mem_roots, List.mem_map]
    constructor
    · rintro ⟨p, hp, q, hq, -, rfl⟩
      obtain rfl := List.mem_singleton.1 hp
      exact ⟨q, hq, rfl⟩
    · rintro ⟨q, hq, rfl⟩
      exact ⟨0, List.mem_singleton_self 0, q, hq, hneeded q hq, rfl⟩

variable (n finals hfinals) in
theorem exists_forest_line (hfinal : n ∈ finals) (hn : 0 < n) :
    ∃ f, (forest bracketing (line n finals hfinals) none).value = .ok (some f) ∧
      f.IsFull bracketing (line n finals hfinals) := by
  obtain ⟨found, hforest, hfound⟩ := exists_forest_none bracketing (line n finals hfinals)
  obtain ⟨f, rfl⟩ := Option.isSome_iff_exists.1
    (hfound.isSome_iff.2 ⟨_, needed_line hfinal hn (Nat.le_refl n)⟩)
  exact ⟨f, by rw [hforest], hfound.isFull f rfl⟩

end

end GrammarRepair
