import GrammarRepair.Proofs.Forest.Order

/-!
What the arena of a grammar over an automaton holds. A node is made when everything over lesser
distances is there, so the parts of a constituent are found exactly if they are let in, and their
numbers never change. Main statement: growing an arena makes one node for each constituent that is
let in, in the order of creation.
-/

namespace GrammarRepair

namespace Arena

open Constituent

variable {g : Grammar} {aut : Automaton} {allowed inside : Constituent → Bool} {a : Arena}
  {ls : List Constituent} {t : Constituent} {v : Visit} {d : Nat}

def nodeOf (g : Grammar) (aut : Automaton) (inside : Constituent → Bool) (ls : List Constituent)
    (t : Constituent) : Node :=
  ⟨t, leavesOf g aut t, (partsOf g aut inside t).map fun p => (ls.idxOf p.1, ls.idxOf p.2)⟩

/-- The nodes of an arena are those of a list of constituents, and all parts are on the list. -/
structure Lists (g : Grammar) (aut : Automaton) (inside : Constituent → Bool) (a : Arena)
    (ls : List Constituent) : Prop where
  nodup : ls.Nodup
  number?_eq : ∀ t, a.number? t = if t ∈ ls then some (ls.idxOf t) else none
  nodes_eq : a.nodes.toList = ls.map (nodeOf g aut inside ls)
  parts_mem : ∀ t ∈ ls, ∀ p ∈ partsOf g aut inside t, p.1 ∈ ls ∧ p.2 ∈ ls

theorem lists_empty : empty.Lists g aut inside [] := by
  constructor
  · exact List.nodup_nil
  · simp [number?, empty]
  · simp [empty]
  · simp

theorem Lists.size_eq (h : a.Lists g aut inside ls) : a.nodes.size = ls.length := by
  simpa using congrArg List.length h.nodes_eq

/-- Nodes that come later leave the numbers of the parts as they are. -/
theorem nodeOf_append (more : List Constituent)
    (hparts : ∀ p ∈ partsOf g aut inside t, p.1 ∈ ls ∧ p.2 ∈ ls) :
    nodeOf g aut inside (ls ++ more) t = nodeOf g aut inside ls t := by
  unfold nodeOf
  congr 1
  refine List.map_congr_left fun p hp => ?_
  rw [List.idxOf_append_of_mem (hparts p hp).1, List.idxOf_append_of_mem (hparts p hp).2]

theorem number?_push {node : Node} (hlt : ∀ b ∈ node.branches, b.1 < a.size ∧ b.2 < a.size)
    (y : Constituent) : (a.push node hlt).number? y =
      if node.label = y then some a.nodes.size else a.number? y := by
  simp only [number?, Arena.push, Std.HashMap.getElem?_insert, beq_iff_eq]

theorem Lists.push (h : a.Lists g aut inside ls) (ht : t ∉ ls)
    (hparts : ∀ p ∈ partsOf g aut inside t, p.1 ∈ ls ∧ p.2 ∈ ls) {node : Node}
    (hlt : ∀ b ∈ node.branches, b.1 < a.size ∧ b.2 < a.size)
    (hnode : node = nodeOf g aut inside ls t) :
    (a.push node hlt).Lists g aut inside (ls ++ [t]) := by
  have hlabel : node.label = t := by rw [hnode, nodeOf]
  constructor
  · refine List.nodup_append.2 ⟨h.nodup, by simp, ?_⟩
    rintro y hy z hz rfl
    exact ht (List.mem_singleton.1 hz ▸ hy)
  · intro y
    rw [number?_push, hlabel, h.size_eq, h.number?_eq]
    by_cases hy : t = y
    · subst hy
      simp [List.idxOf_append_of_notMem ht]
    · have hy' : y ≠ t := fun heq => hy heq.symm
      by_cases hmem : y ∈ ls
      · simp [hy, hmem, List.idxOf_append_of_mem hmem]
      · simp [hy, hy', hmem]
  · have hnodes : (a.push node hlt).nodes.toList = a.nodes.toList ++ [node] := by
      simp [Arena.push]
    rw [hnodes, h.nodes_eq, hnode, List.map_append, List.map_singleton, nodeOf_append _ hparts]
    congr 1
    exact List.map_congr_left fun y hy => (nodeOf_append _ (h.parts_mem y hy)).symm
  · intro y hy p hp
    simp only [List.mem_append]
    rcases List.mem_append.1 hy with hy | hy
    · have hmem := h.parts_mem y hy p hp
      exact ⟨.inl hmem.1, .inl hmem.2⟩
    · obtain rfl := List.mem_singleton.1 hy
      exact ⟨.inl (hparts p hp).1, .inl (hparts p hp).2⟩

/-- Over lesser distances exactly what is let in is listed. -/
def Settled (inside : Constituent → Bool) (ls : List Constituent) (d : Nat) : Prop :=
  ∀ y : Constituent, y.target - y.source < d → (y ∈ ls ↔ inside y = true)

theorem Settled.append {more : List Constituent} (h : Settled inside ls d)
    (hmore : ∀ y ∈ more, y.target = y.source + d) : Settled inside (ls ++ more) d := by
  intro y hy
  have hnot : y ∉ more := by
    intro hmem
    have := hmore y hmem
    omega
  rw [List.mem_append, h y hy]
  exact or_iff_left hnot

theorem Settled.parts_mem (h : Settled inside ls d) (hd : t.target = t.source + d) :
    ∀ p ∈ partsOf g aut inside t, p.1 ∈ ls ∧ p.2 ∈ ls := by
  rintro ⟨l, r⟩ hp
  obtain ⟨⟨hlessl, hl⟩, hlessr, hr⟩ := of_mem_partsOf hp
  exact ⟨(h l (by omega)).2 hl, (h r (by omega)).2 hr⟩

theorem Lists.split?_eq (h : a.Lists g aut inside ls) (hs : Settled inside ls d)
    (hd : v.target = v.source + d) (pair : Nat × Nat × Nat) {m : Nat} (hsource : v.source < m)
    (htarget : m < v.target) : a.split? v pair m =
      if inside (halves v pair m).1 && inside (halves v pair m).2 then
        some ⟨pair.1, ls.idxOf (halves v pair m).1, ls.idxOf (halves v pair m).2⟩
      else none := by
  have hl := hs (halves v pair m).1 (show m - v.source < d by omega)
  have hr := hs (halves v pair m).2 (show v.target - m < d by omega)
  have heq : a.split? v pair m = (a.number? (halves v pair m).1).bind fun left =>
      (a.number? (halves v pair m).2).bind fun right => some ⟨pair.1, left, right⟩ := rfl
  rw [heq, h.number?_eq, h.number?_eq]
  simp only [hl, hr]
  cases inside (halves v pair m).1 <;> cases inside (halves v pair m).2 <;> rfl

/-- The splits found are those into parts that are let in. -/
theorem Lists.splits_eq (h : a.Lists g aut inside ls) (hs : Settled inside ls d)
    (hd : v.target = v.source + d) (hmid : ∀ m ∈ v.midpoints, v.source < m ∧ m < v.target)
    (pairs : List (Nat × Nat × Nat)) : a.splits v pairs = pairs.flatMap fun pair =>
      (partsOver inside v pair).map fun p => ⟨pair.1, ls.idxOf p.1, ls.idxOf p.2⟩ := by
  refine List.flatMap_congr fun pair _ => ?_
  rw [partsOver, List.filter_map, List.map_map, ← List.filterMap_eq_map, List.filterMap_filter]
  exact List.filterMap_congr fun m hm => h.split?_eq hs hd pair (hmid m hm).1 (hmid m hm).2

theorem Lists.branchesOf_eq (h : a.Lists g aut inside ls) (hs : Settled inside ls d)
    (hd : t.target = t.source + d) (may : Nat × Nat × Nat → Bool)
    (hmay : ∀ pair : Nat × Nat × Nat, pair.1 = t.rule → may pair = true) :
    branchesOf (a.splits (visit aut t) (g.pairs.filter may)) t.rule =
      (nodeOf g aut inside ls t).branches := by
  have hmid : ∀ m ∈ (visit aut t).midpoints, t.source < m ∧ m < t.target := by
    intro m hm
    obtain ⟨hl, hr⟩ := Automaton.mem_midpoints_iff.1 hm
    exact ⟨(Automaton.lt_of_reaches hl).1, (Automaton.lt_of_reaches hr).1⟩
  rw [h.splits_eq hs hd hmid, branchesOf, nodeOf, partsOf, List.filter_flatMap, List.map_flatMap,
    List.map_flatMap]
  refine flatMap_filter_congr fun pair _ => ?_
  by_cases hrule : pair.1 = t.rule
  · simp [hrule, hmay pair hrule, List.filter_map, Function.comp_def]
  · simp [hrule, List.filter_map, Function.comp_def]

theorem Lists.addLeaf (h : a.Lists g aut inside ls) (hs : Settled inside ls d)
    (ht : t ∉ ls) (hd : t.target = t.source + d) :
    (addLeaf g aut aut.reach a t).Lists g aut inside (ls ++ [t]) := by
  refine h.push ht (hs.parts_mem hd) (branchesOf_lt fun _ hs => splits_lt hs) ?_
  have hbranches := h.branchesOf_eq hs hd (·.1 == t.rule) fun pair hrule => by simp [hrule]
  rw [nodeOf, Node.mk.injEq]
  exact ⟨rfl, rfl, hbranches⟩

theorem Lists.foldl_addLeaf {ts : List Constituent} (h : a.Lists g aut inside ls)
    (hs : Settled inside ls d) (hts : ∀ t ∈ ts, t.target = t.source + d)
    (hnodup : (ls ++ ts).Nodup) :
    (ts.foldl (Arena.addLeaf g aut aut.reach) a).Lists g aut inside (ls ++ ts) := by
  induction ts generalizing a ls with
  | nil => simpa using h
  | cons t ts ih =>
    have hd := hts t (by simp)
    rw [List.append_cons] at hnodup ⊢
    have hnew : t ∉ ls := fun hmem =>
      (List.nodup_append.1 (List.nodup_append.1 hnodup).1).2.2 t hmem t (by simp) rfl
    refine ih (h.addLeaf hs hnew hd) (hs.append ?_) (fun y hy => hts y (by simp [hy])) hnodup
    simpa using hd

/-- Constituents that are not tokens are added one by one; their branches were found before. -/
theorem Lists.addPairs {splits : List Split} {rules : List Nat} (h : a.Lists g aut inside ls)
    (hlt : ∀ s ∈ splits, s.left < a.size ∧ s.right < a.size)
    (hparts : ∀ rule ∈ rules, ∀ p ∈ partsOf g aut inside (ofVisit v rule), p.1 ∈ ls ∧ p.2 ∈ ls)
    (hnode : ∀ rule ∈ rules,
      ⟨ofVisit v rule, [], branchesOf splits rule⟩ = nodeOf g aut inside ls (ofVisit v rule))
    (hnodup : (ls ++ rules.map (ofVisit v)).Nodup) :
    (addPairs v splits rules a hlt).Lists g aut inside (ls ++ rules.map (ofVisit v)) := by
  induction rules generalizing a ls with
  | nil => simpa [Arena.addPairs] using h
  | cons rule rules ih =>
    rw [List.map_cons, List.append_cons] at hnodup ⊢
    have hnew : ofVisit v rule ∉ ls := fun hmem =>
      (List.nodup_append.1 (List.nodup_append.1 hnodup).1).2.2 _ hmem _ (by simp) rfl
    refine ih (h.push hnew (hparts rule (by simp)) _ (hnode rule (by simp))) _ ?_ ?_ hnodup
    · intro rule' hrule' p hp
      have hmem := hparts rule' (by simp [hrule']) p hp
      exact ⟨List.mem_append_left _ hmem.1, List.mem_append_left _ hmem.2⟩
    · intro rule' hrule'
      rw [nodeOf_append _ (hparts rule' (by simp [hrule']))]
      exact hnode rule' (by simp [hrule'])

theorem pairwise_visits (aut : Automaton) (d : Nat) :
    (aut.stratum aut.reach d).visits.Pairwise fun v v' => v.source ≠ v'.source := by
  refine List.Pairwise.filterMap _ ?_ (List.nodup_range (n := aut.stateCount - d))
  intro p p' hne v hv v' hv'
  rw [(Chart.visit?_eq_some_iff.1 hv).1, (Chart.visit?_eq_some_iff.1 hv').1]
  exact hne

section

variable (hadmits : Admits g aut inside allowed)

include hadmits

theorem Lists.rules_splits_eq (h : a.Lists g aut inside ls) (hs : Settled inside ls d)
    (hv : Chart.IsVisit aut v) (hd : v.target = v.source + d) :
    (a.splits v (g.pairs.filter fun pair => allowed (ofVisit v pair.1))).map (·.rule) =
      heads g inside v := by
  rw [h.splits_eq hs hd fun m hm => hv.midpoint hm, List.map_flatMap, heads]
  refine flatMap_filter_congr fun pair hpair => ?_
  cases hparts : partsOver inside v pair with
  | nil => simp
  | cons p ps =>
    have hmem : (p.1, p.2) ∈ partsOver inside v pair := by simp [hparts]
    rw [hadmits.eq_of_partsOver_ne_nil hv hpair (List.ne_nil_of_mem hmem), List.map_map]
    rfl

theorem Lists.addVisit_eq (h : a.Lists g aut inside ls) (hs : Settled inside ls d)
    (hv : Chart.IsVisit aut v) (hd : v.target = v.source + d)
    (htoken : ∀ rule, inside (ofVisit v rule) = true →
      (ofVisit v rule ∈ ls ↔ (ofVisit v rule).IsToken g aut)) :
    Arena.addVisit g allowed a v =
      Arena.addPairs v (a.splits v (g.pairs.filter fun pair => allowed (ofVisit v pair.1)))
        (pairRules g aut inside v) a fun _ hs => splits_lt hs := by
  have hrules : (distinct ((a.splits v (g.pairs.filter fun pair => allowed (ofVisit v pair.1))).map
      (·.rule))).filter (fun rule => (a.number? (ofVisit v rule)).isNone) =
        pairRules g aut inside v := by
    rw [h.rules_splits_eq hadmits hs hv hd]
    refine List.filter_congr fun rule hrule => ?_
    have hinside := (mem_heads.1 ((mem_distinct _ _).1 hrule)).1
    rw [Bool.eq_iff_iff, isEmpty_leavesOf_iff, ← htoken rule hinside, h.number?_eq]
    split <;> simp_all
  rw [← hrules]
  rfl

theorem Lists.addVisit (h : a.Lists g aut inside ls) (hs : Settled inside ls d)
    (hv : Chart.IsVisit aut v) (hd : v.target = v.source + d)
    (htoken : ∀ rule, inside (ofVisit v rule) = true →
      (ofVisit v rule ∈ ls ↔ (ofVisit v rule).IsToken g aut)) :
    (addVisit g allowed a v).Lists g aut inside (ls ++ pairLabels g aut inside v) := by
  have hinside : ∀ rule ∈ pairRules g aut inside v,
      inside (ofVisit v rule) = true ∧ ¬ (ofVisit v rule).IsToken g aut := by
    intro rule hrule
    obtain ⟨hhead, hnot⟩ := mem_pairRules.1 hrule
    exact ⟨(mem_heads.1 hhead).1, hnot⟩
  have hvisit : ∀ rule, visit aut (ofVisit v rule) = v := by
    intro rule
    rw [visit, ofVisit, ← hv.midpoints_eq]
  rw [h.addVisit_eq hadmits hs hv hd htoken]
  refine h.addPairs _ (fun rule hrule => ?_) (fun rule hrule => ?_) ?_
  · exact hs.parts_mem hd
  · obtain ⟨hin, hnot⟩ := hinside rule hrule
    have hmay : ∀ pair : Nat × Nat × Nat, pair.1 = rule → allowed (ofVisit v pair.1) = true := by
      rintro pair rfl
      exact ((hadmits _).1 hin).1
    have hbranches := h.branchesOf_eq (g := g) (t := ofVisit v rule) hs hd _ hmay
    rw [hvisit] at hbranches
    rw [nodeOf, Node.mk.injEq]
    exact ⟨rfl, (List.isEmpty_iff.1 (isEmpty_leavesOf_iff.2 hnot)).symm, hbranches⟩
  · refine List.nodup_append.2 ⟨h.nodup, nodup_pairLabels, ?_⟩
    rintro t hmem _ hmem' rfl
    obtain ⟨rule, hrule, rfl⟩ := List.mem_map.1 hmem'
    obtain ⟨hin, hnot⟩ := hinside rule hrule
    exact hnot ((htoken rule hin).1 hmem)

/-- Visits at one distance start at different states, so none sees what another adds. -/
theorem Lists.foldl_addVisit {vs : List Visit} (h : a.Lists g aut inside ls)
    (hs : Settled inside ls d)
    (hvs : ∀ v ∈ vs, Chart.IsVisit aut v ∧ v.target = v.source + d)
    (hsources : vs.Pairwise fun v v' => v.source ≠ v'.source)
    (htoken : ∀ v ∈ vs, ∀ rule, inside (ofVisit v rule) = true →
      (ofVisit v rule ∈ ls ↔ (ofVisit v rule).IsToken g aut)) :
    (vs.foldl (Arena.addVisit g allowed) a).Lists g aut inside
      (ls ++ vs.flatMap (pairLabels g aut inside)) := by
  induction vs generalizing a ls with
  | nil => simpa using h
  | cons v vs ih =>
    -- The labels of this visit are over its own source, so `htoken` stays true of all later visits.
    obtain ⟨hv, hd⟩ := hvs v (by simp)
    obtain ⟨hfirst, hrest⟩ := List.pairwise_cons.1 hsources
    have hnew := fun t => hadmits.mem_pairLabels (t := t) hv
    rw [List.flatMap_cons, ← List.append_assoc]
    refine ih (h.addVisit hadmits hs hv hd (htoken v (by simp))) (hs.append ?_)
      (fun v' hv' => hvs v' (by simp [hv'])) hrest ?_
    · intro y hy
      obtain ⟨hsource, htarget, -⟩ := (hnew y).1 hy
      rw [hsource, htarget, hd]
    · intro v' hv' rule hinside
      have hnot : ofVisit v' rule ∉ pairLabels g aut inside v := fun hmem =>
        hfirst v' hv' ((hnew _).1 hmem).1.symm
      rw [List.mem_append, or_iff_left hnot]
      exact htoken v' (by simp [hv']) rule hinside

theorem leafLabels_congr (d : Nat) : leafLabels g aut allowed d = leafLabels g aut inside d := by
  rw [leafLabels, leafLabels]
  congr 1
  refine List.flatMap_congr fun e he => List.filter_congr fun t ht => hadmits.eq_of_isToken ?_
  obtain ⟨a, ha, rfl⟩ := List.mem_map.1 ht
  exact ⟨e, (List.mem_filter.1 he).1, rfl, rfl, Grammar.mem_rulesOf.1 ha⟩

theorem Lists.addStratum (h : a.Lists g aut inside ls) (hs : Settled inside ls d)
    (hless : ∀ t ∈ ls, t.target < t.source + d) :
    (addStratum g aut aut.reach allowed a (aut.stratum aut.reach d)).Lists g aut inside
      (ls ++ stratumLabels g aut inside (aut.stratum aut.reach d)) := by
  have hleaf : ∀ t ∈ leafLabels g aut inside d, t.target = t.source + d :=
    fun t ht => (mem_leafLabels.1 ht).2.1
  have hnodup : (ls ++ leafLabels g aut inside d).Nodup := by
    refine List.nodup_append.2 ⟨h.nodup, nodup_distinct _, ?_⟩
    rintro t ht _ ht' rfl
    have hlt := hless t ht
    have heq := hleaf t ht'
    omega
  have hleaves := h.foldl_addLeaf hs hleaf hnodup
  rw [Arena.addStratum, leafLabels_congr hadmits, stratumLabels, ← List.append_assoc]
  refine hleaves.foldl_addVisit hadmits (hs.append hleaf)
    (fun v hv => Chart.mem_visits_iff.1 hv) (pairwise_visits aut d) ?_
  intro v hv rule hinside
  have hd := (Chart.mem_visits_iff.1 hv).2
  have hold : ofVisit v rule ∉ ls := fun hmem => Nat.lt_irrefl _ (hd ▸ hless _ hmem)
  rw [List.mem_append, or_iff_right hold, mem_leafLabels]
  exact ⟨And.left, fun htoken => ⟨htoken, hd, hinside⟩⟩

theorem lists_strata (k : Nat) :
    (((List.range' 1 k).map (aut.stratum aut.reach)).foldl
        (Arena.addStratum g aut aut.reach allowed) empty).Lists g aut inside
      (((List.range' 1 k).map (aut.stratum aut.reach)).flatMap (stratumLabels g aut inside)) := by
  induction k with
  | zero => exact lists_empty
  | succ k ih =>
    -- After `k` strata the list is what is let in over distances up to `k`: that settles `k + 1`.
    have hmem : ∀ t, t ∈ ((List.range' 1 k).map (aut.stratum aut.reach)).flatMap
        (stratumLabels g aut inside) ↔ t.target < t.source + (1 + k) ∧ inside t = true := by
      intro t
      simp only [List.mem_flatMap, List.mem_map, List.mem_range'_1]
      constructor
      · rintro ⟨_, ⟨d, hd, rfl⟩, ht⟩
        obtain ⟨hdist, hinside⟩ := hadmits.mem_stratumLabels.1 ht
        exact ⟨by omega, hinside⟩
      · rintro ⟨hlt, hinside⟩
        have hpos := (hadmits.lt hinside).1
        refine ⟨_, ⟨t.target - t.source, by omega, rfl⟩, hadmits.mem_stratumLabels.2 ?_⟩
        exact ⟨by omega, hinside⟩
    rw [List.range'_1_concat, List.map_append, List.foldl_append, List.flatMap_append]
    simp only [List.map_singleton, List.foldl_cons, List.foldl_nil, List.flatMap_singleton]
    refine ih.addStratum hadmits ?_ fun t ht => ((hmem t).1 ht).1
    intro y hy
    rw [hmem]
    exact ⟨And.right, fun hinside => ⟨by omega, hinside⟩⟩

theorem lists_grow :
    (grow g aut allowed).Lists g aut inside (creationOrder g aut inside) :=
  lists_strata hadmits (aut.stateCount - 1)

end

end Arena

end GrammarRepair
