import GrammarRepair.Proofs.Chart.Fill
import GrammarRepair.Proofs.Grammar.Constituents
import Mathlib.Data.List.Nodup

/-!
The order in which the constituents of a forest are made, as a list: by growing distance, at each
distance first those that can be single tokens and then the others, visit by visit. The list depends
only on which constituents are let in. Main statements: everything let in is on the list once, and
letting in fewer, as long as the parts of each are still let in, strikes the others off the list and
changes nothing else.
-/

namespace GrammarRepair

/-- What is dropped or renamed before repetitions are dropped may be so after it, if no two items get
one name. -/
theorem distinct_filterMap {α β : Type} [BEq α] [Hashable α] [LawfulBEq α] [BEq β] [Hashable β]
    [LawfulBEq β] {f : α → Option β} (hf : ∀ x y z, f x = some z → f y = some z → x = y)
    (xs : List α) : distinct (xs.filterMap f) = (distinct xs).filterMap f := by
  have hfold : ∀ seen : List α,
      (xs.filterMap f).foldl (fun seen y => if seen.contains y then seen else seen ++ [y])
          (seen.filterMap f) =
        (xs.foldl (fun seen x => if seen.contains x then seen else seen ++ [x]) seen).filterMap
          f := by
    induction xs with
    | nil => exact fun seen => rfl
    | cons x xs ih =>
      intro seen
      cases hx : f x with
      | none =>
        rw [List.filterMap_cons_none hx, List.foldl_cons, ← ih]
        split <;> simp [hx]
      | some y =>
        have hcontains : (seen.filterMap f).contains y = seen.contains x := by
          rw [Bool.eq_iff_iff, List.contains_iff_mem, List.contains_iff_mem, List.mem_filterMap]
          constructor
          · rintro ⟨x', hmem, hx'⟩
            rwa [hf x x' y hx hx']
          · exact fun hmem => ⟨x, hmem, hx⟩
        rw [List.filterMap_cons_some hx, List.foldl_cons, List.foldl_cons, hcontains, ← ih]
        split <;> simp [hx]
  simpa [distinct_eq_foldl] using hfold []

theorem distinct_filter {α : Type} [BEq α] [Hashable α] [LawfulBEq α] (p : α → Bool)
    (xs : List α) : distinct (xs.filter p) = (distinct xs).filter p := by
  rw [← List.filterMap_eq_filter, distinct_filterMap]
  intro x y z hx hy
  rw [Option.guard_eq_some_iff] at hx hy
  exact hx.1.trans hy.1.symm

theorem flatMap_filter {α β : Type} (p : α → Bool) (f : α → List β) (xs : List α) :
    (xs.filter p).flatMap f = xs.flatMap fun x => if p x then f x else [] := by
  induction xs with
  | nil => rfl
  | cons x xs ih =>
    rw [List.filter_cons, List.flatMap_cons, ← ih]
    split <;> rfl

theorem flatMap_filter_congr {α β : Type} {p q : α → Bool} {f f' : α → List β} {xs : List α}
    (h : ∀ x ∈ xs, (if p x then f x else []) = if q x then f' x else []) :
    (xs.filter p).flatMap f = (xs.filter q).flatMap f' := by
  rw [flatMap_filter, flatMap_filter]
  exact List.flatMap_congr h

theorem flatMap_range {α β : Type} (items : α → List β) (xs : List α) :
    ((List.range xs.length).flatMap fun i => (xs[i]?).elim [] items) = xs.flatMap items := by
  induction xs with
  | nil => rfl
  | cons x xs ih =>
    rw [List.length_cons, List.range_succ_eq_map, List.flatMap_cons, List.flatMap_map,
      List.flatMap_cons, ← ih]
    rfl

theorem length_flatMap_le {α β : Type} {block : α → List β} {xs : List α} {bound : Nat}
    (h : ∀ x ∈ xs, (block x).length ≤ bound) : (xs.flatMap block).length ≤ xs.length * bound := by
  induction xs with
  | nil => exact Nat.zero_le _
  | cons x xs ih =>
    have hx := h x List.mem_cons_self
    have hxs := ih fun y hy => h y (List.mem_cons_of_mem x hy)
    rw [List.flatMap_cons, List.length_append, List.length_cons, Nat.succ_mul]
    omega

namespace Constituent

def ofVisit (v : Visit) (rule : Nat) : Constituent := ⟨v.source, rule, v.target⟩

def halves (v : Visit) (pair : Nat × Nat × Nat) (r : Nat) : Constituent × Constituent :=
  (⟨v.source, pair.2.1, r⟩, ⟨r, pair.2.2, v.target⟩)

def partsOver (inside : Constituent → Bool) (v : Visit) (pair : Nat × Nat × Nat) :
    List (Constituent × Constituent) :=
  (v.midpoints.map (halves v pair)).filter fun p => inside p.1 && inside p.2

def visit (aut : Automaton) (t : Constituent) : Visit :=
  ⟨t.source, t.target, aut.reach.midpoints t.source t.target⟩

variable (g : Grammar) (aut : Automaton) (inside : Constituent → Bool)

/-- All pairs of parts, both let in, that make up a constituent: production by production. -/
def partsOf (t : Constituent) : List (Constituent × Constituent) :=
  (g.pairs.filter (·.1 == t.rule)).flatMap (partsOver inside (visit aut t))

/-- The rules of the constituents over a visited pair of states that have two parts, as often as they
have. -/
def heads (v : Visit) : List Nat :=
  (g.pairs.filter fun pair => inside (ofVisit v pair.1)).flatMap fun pair =>
    (partsOver inside v pair).map fun _ => pair.1

/-- The rules of the constituents over a visited pair of states that are not single tokens. -/
def pairRules (v : Visit) : List Nat :=
  (distinct (heads g inside v)).filter fun a => (Arena.leavesOf g aut (ofVisit v a)).isEmpty

def pairLabels (v : Visit) : List Constituent := (pairRules g aut inside v).map (ofVisit v)

def stratumLabels (s : Stratum) : List Constituent :=
  Arena.leafLabels g aut inside s.distance ++ s.visits.flatMap (pairLabels g aut inside)

/-- All constituents that are let in, in the order in which they are made. -/
def creationOrder : List Constituent := aut.strata.flatMap (stratumLabels g aut inside)

/-- What is let in is what is allowed and is a token or has two parts that are let in. -/
def Admits (allowed : Constituent → Bool) : Prop :=
  ∀ t, inside t = true ↔ allowed t = true ∧ (t.IsToken g aut ∨ partsOf g aut inside t ≠ [])

/-- What is let in derives something, and so do its parts, which are let in too. -/
structure PartClosed : Prop where
  spanned : ∀ t, inside t = true → t.Spanned g aut
  parts : ∀ t l r, inside t = true → t.Splits g aut l r → inside l = true ∧ inside r = true

variable {g aut inside} {allowed : Constituent → Bool} {t l r : Constituent} {v : Visit}

theorem mem_partsOver {pair : Nat × Nat × Nat} : (l, r) ∈ partsOver inside v pair ↔
    ∃ m ∈ v.midpoints, l = ⟨v.source, pair.2.1, m⟩ ∧ r = ⟨m, pair.2.2, v.target⟩ ∧
      inside l = true ∧ inside r = true := by
  simp only [partsOver, halves, List.mem_filter, List.mem_map, Prod.mk.injEq, Bool.and_eq_true]
  constructor
  · rintro ⟨⟨m, hm, rfl, rfl⟩, hl, hr⟩
    exact ⟨m, hm, rfl, rfl, hl, hr⟩
  · rintro ⟨m, hm, rfl, rfl, hl, hr⟩
    exact ⟨⟨m, hm, rfl, rfl⟩, hl, hr⟩

theorem mem_leavesOf {x : Nat} : x ∈ Arena.leavesOf g aut t ↔
    ⟨t.source, x, t.target⟩ ∈ aut.edges ∧ ⟨t.rule, .token x⟩ ∈ g.productions.toList := by
  simp only [Arena.leavesOf, List.mem_map, List.mem_filter, Bool.and_eq_true, beq_iff_eq,
    List.contains_iff_mem, Grammar.mem_rulesOf]
  constructor
  · rintro ⟨⟨source, token, target⟩, ⟨he, ⟨rfl, rfl⟩, ha⟩, rfl⟩
    exact ⟨he, ha⟩
  · rintro ⟨he, ha⟩
    exact ⟨⟨t.source, x, t.target⟩, ⟨he, ⟨rfl, rfl⟩, ha⟩, rfl⟩

theorem isToken_iff : t.IsToken g aut ↔ ∃ x, x ∈ Arena.leavesOf g aut t := by
  simp only [mem_leavesOf]
  constructor
  · rintro ⟨⟨source, token, target⟩, he, rfl, rfl, ha⟩
    exact ⟨token, he, ha⟩
  · rintro ⟨x, he, ha⟩
    exact ⟨_, he, rfl, rfl, ha⟩

theorem isEmpty_leavesOf_iff : (Arena.leavesOf g aut t).isEmpty = true ↔ ¬ t.IsToken g aut := by
  rw [isToken_iff, List.isEmpty_iff, List.eq_nil_iff_forall_not_mem, not_exists]

/-- The parts of a production over a pair of states make up a constituent. -/
theorem PartClosed.splits_of_mem_partsOver (h : PartClosed g aut inside) {pair : Nat × Nat × Nat}
    (hpair : pair ∈ g.pairs) (hmem : (l, r) ∈ partsOver inside v pair) :
    (ofVisit v pair.1).Splits g aut l r := by
  obtain ⟨m, -, rfl, rfl, hl, hr⟩ := mem_partsOver.1 hmem
  obtain ⟨a, b, c⟩ := pair
  exact ⟨b, c, m, Grammar.mem_pairs.1 hpair, rfl, rfl, h.spanned _ hl, h.spanned _ hr⟩

/-- The parts of what is let in are all its parts that derive something. -/
theorem PartClosed.mem_partsOf (h : PartClosed g aut inside) (ht : inside t = true) :
    (l, r) ∈ partsOf g aut inside t ↔ t.Splits g aut l r := by
  simp only [partsOf, List.mem_flatMap, List.mem_filter, beq_iff_eq]
  constructor
  · rintro ⟨pair, ⟨hpair, hrule⟩, hmem⟩
    have hsplits := h.splits_of_mem_partsOver hpair hmem
    rwa [hrule] at hsplits
  · intro hsplits
    obtain ⟨hl, hr⟩ := h.parts t l r ht hsplits
    obtain ⟨b, c, m, hpair, rfl, rfl, hspanl, hspanr⟩ := hsplits
    refine ⟨(t.rule, b, c), ⟨Grammar.mem_pairs.2 hpair, rfl⟩, mem_partsOver.2 ?_⟩
    exact ⟨m, Automaton.mem_midpoints_iff.2 ⟨hspanl.reaches, hspanr.reaches⟩, rfl, rfl, hl, hr⟩

theorem of_mem_partsOf (h : (l, r) ∈ partsOf g aut inside t) :
    (l.target - l.source < t.target - t.source ∧ inside l = true) ∧
      r.target - r.source < t.target - t.source ∧ inside r = true := by
  simp only [partsOf, List.mem_flatMap, List.mem_filter] at h
  obtain ⟨pair, -, hmem⟩ := h
  obtain ⟨m, hm, rfl, rfl, hl, hr⟩ := mem_partsOver.1 hmem
  obtain ⟨hleft, hright⟩ := Automaton.mem_midpoints_iff.1 hm
  have hbefore : t.source < m := (Automaton.lt_of_reaches hleft).1
  have hbehind : m < t.target := (Automaton.lt_of_reaches hright).1
  have hless : m - t.source < t.target - t.source ∧ t.target - m < t.target - t.source := by omega
  exact ⟨⟨hless.1, hl⟩, hless.2, hr⟩

/-- Whatever has parts lies over a pair of states that is visited. -/
theorem isVisit_of_partsOf_ne_nil (h : partsOf g aut inside t ≠ []) :
    Chart.IsVisit aut (visit aut t) := by
  obtain ⟨p, hp⟩ := List.exists_mem_of_ne_nil _ h
  simp only [partsOf, List.mem_flatMap, List.mem_filter] at hp
  obtain ⟨pair, -, hmem⟩ := hp
  obtain ⟨m, hm, -⟩ := mem_partsOver.1 (show (p.1, p.2) ∈ _ from hmem)
  have hright := (Automaton.mem_midpoints_iff.1 hm).2
  exact ⟨(Automaton.lt_of_reaches hright).2, rfl, List.ne_nil_of_mem hm⟩

theorem Admits.lt (h : Admits g aut inside allowed) (ht : inside t = true) :
    t.source < t.target ∧ t.target < aut.stateCount := by
  rcases ((h t).1 ht).2 with htoken | hparts
  · exact htoken.spanned.lt
  · have hvisit := isVisit_of_partsOf_ne_nil hparts
    exact ⟨hvisit.source_lt, hvisit.target_lt⟩

theorem Admits.eq_of_isToken (h : Admits g aut inside allowed) (ht : t.IsToken g aut) :
    allowed t = inside t := by
  rw [Bool.eq_iff_iff, h t]
  exact (and_iff_left (.inl ht)).symm

theorem Admits.eq_of_partsOver_ne_nil (h : Admits g aut inside allowed) (hv : Chart.IsVisit aut v)
    {pair : Nat × Nat × Nat} (hpair : pair ∈ g.pairs) (hne : partsOver inside v pair ≠ []) :
    allowed (ofVisit v pair.1) = inside (ofVisit v pair.1) := by
  have hvisit : visit aut (ofVisit v pair.1) = v := by rw [visit, ofVisit, ← hv.midpoints_eq]
  have hparts : partsOf g aut inside (ofVisit v pair.1) ≠ [] := by
    obtain ⟨p, hp⟩ := List.exists_mem_of_ne_nil _ hne
    refine List.ne_nil_of_mem (List.mem_flatMap.2 ⟨pair, ?_, hvisit.symm ▸ hp⟩)
    exact List.mem_filter.2 ⟨hpair, beq_iff_eq.2 rfl⟩
  rw [Bool.eq_iff_iff, h (ofVisit v pair.1)]
  exact (and_iff_left (.inr hparts)).symm

/-- Only what derives something is ever asked for, so what is allowed need not be what is let in
beyond that. -/
theorem PartClosed.admits (h : PartClosed g aut inside)
    (hallowed : ∀ t : Constituent, t.Spanned g aut → allowed t = inside t) :
    Admits g aut inside allowed := by
  intro t
  constructor
  · intro ht
    have hspanned := h.spanned t ht
    refine ⟨(hallowed t hspanned).trans ht, ?_⟩
    rcases spanned_iff.1 hspanned with htoken | ⟨l, r, hsplits⟩
    · exact .inl htoken
    · exact .inr (List.ne_nil_of_mem ((h.mem_partsOf ht).2 hsplits))
  · rintro ⟨ht, htoken | hparts⟩
    · rwa [← hallowed t htoken.spanned]
    · obtain ⟨p, hp⟩ := List.exists_mem_of_ne_nil _ hparts
      simp only [partsOf, List.mem_flatMap, List.mem_filter, beq_iff_eq] at hp
      obtain ⟨pair, ⟨hpair, hrule⟩, hmem⟩ := hp
      have hsplits := h.splits_of_mem_partsOver (l := p.1) (r := p.2) hpair hmem
      rw [hrule] at hsplits
      rwa [← hallowed t hsplits.spanned]

theorem mem_heads {a : Nat} : a ∈ heads g inside v ↔
    inside (ofVisit v a) = true ∧ ∃ b c, (a, b, c) ∈ g.pairs ∧ partsOver inside v (a, b, c) ≠ [] := by
  simp only [heads, List.mem_flatMap, List.mem_filter, List.mem_map]
  constructor
  · rintro ⟨⟨a, b, c⟩, ⟨hpair, hinside⟩, p, hp, rfl⟩
    exact ⟨hinside, b, c, hpair, List.ne_nil_of_mem hp⟩
  · rintro ⟨hinside, b, c, hpair, hne⟩
    obtain ⟨p, hp⟩ := List.exists_mem_of_ne_nil _ hne
    exact ⟨(a, b, c), ⟨hpair, hinside⟩, p, hp, rfl⟩

theorem mem_pairRules {a : Nat} : a ∈ pairRules g aut inside v ↔
    a ∈ heads g inside v ∧ ¬ (ofVisit v a).IsToken g aut := by
  rw [pairRules, List.mem_filter, mem_distinct, isEmpty_leavesOf_iff]

theorem nodup_pairLabels : (pairLabels g aut inside v).Nodup :=
  ((nodup_distinct _).filter _).map fun _ _ heq => congrArg Constituent.rule heq

/-- Over a visited pair of states all that is let in is made, unless it is made before as a token. -/
theorem Admits.mem_pairLabels (h : Admits g aut inside allowed) (hv : Chart.IsVisit aut v) :
    t ∈ pairLabels g aut inside v ↔
      t.source = v.source ∧ t.target = v.target ∧ inside t = true ∧ ¬ t.IsToken g aut := by
  simp only [pairLabels, List.mem_map, mem_pairRules]
  constructor
  · rintro ⟨a, ⟨ha, htoken⟩, rfl⟩
    exact ⟨rfl, rfl, (mem_heads.1 ha).1, htoken⟩
  · rintro ⟨hsource, htarget, hinside, htoken⟩
    obtain ⟨source, a, target⟩ := t
    obtain rfl : source = v.source := hsource
    obtain rfl : target = v.target := htarget
    refine ⟨a, ⟨mem_heads.2 ⟨hinside, ?_⟩, htoken⟩, rfl⟩
    obtain ⟨p, hp⟩ := List.exists_mem_of_ne_nil _ (((h _).1 hinside).2.resolve_left htoken)
    simp only [partsOf, List.mem_flatMap, List.mem_filter, beq_iff_eq] at hp
    obtain ⟨⟨a, b, c⟩, ⟨hpair, rfl⟩, hmem⟩ := hp
    rw [visit, ← hv.midpoints_eq] at hmem
    exact ⟨b, c, hpair, List.ne_nil_of_mem hmem⟩

theorem mem_leafLabels {d : Nat} : t ∈ Arena.leafLabels g aut inside d ↔
    t.IsToken g aut ∧ t.target = t.source + d ∧ inside t = true := by
  simp only [Arena.leafLabels, mem_distinct, List.mem_flatMap, List.mem_filter, beq_iff_eq,
    List.mem_map, Grammar.mem_rulesOf]
  constructor
  · rintro ⟨e, ⟨he, hd⟩, ⟨a, ha, rfl⟩, hinside⟩
    have hlt := aut.source_lt_target e he
    have htarget : e.target = e.source + d := by omega
    exact ⟨⟨e, he, rfl, rfl, ha⟩, htarget, hinside⟩
  · rintro ⟨⟨e, he, hsource, htarget, ha⟩, hd, hinside⟩
    have hdist : e.target - e.source = d := by omega
    exact ⟨e, ⟨he, hdist⟩, ⟨t.rule, ha, by rw [hsource, htarget]⟩, hinside⟩

theorem Admits.mem_stratumLabels (h : Admits g aut inside allowed) {d : Nat} :
    t ∈ stratumLabels g aut inside (aut.stratum aut.reach d) ↔
      t.target = t.source + d ∧ inside t = true := by
  simp only [stratumLabels, List.mem_append, List.mem_flatMap, mem_leafLabels]
  constructor
  · rintro (⟨-, hd, hinside⟩ | ⟨v, hv, hmem⟩)
    · exact ⟨hd, hinside⟩
    · obtain ⟨hvisit, hd⟩ := Chart.mem_visits_iff.1 hv
      obtain ⟨hsource, htarget, hinside, -⟩ := (h.mem_pairLabels hvisit).1 hmem
      exact ⟨by rw [htarget, hsource, hd], hinside⟩
  · rintro ⟨hd, hinside⟩
    by_cases htoken : t.IsToken g aut
    · exact .inl ⟨htoken, hd, hinside⟩
    · have hvisit := isVisit_of_partsOf_ne_nil (((h t).1 hinside).2.resolve_left htoken)
      refine .inr ⟨visit aut t, Chart.mem_visits_iff.2 ⟨hvisit, hd⟩, ?_⟩
      exact (h.mem_pairLabels hvisit).2 ⟨rfl, rfl, hinside, htoken⟩

theorem Admits.mem_creationOrder (h : Admits g aut inside allowed) :
    t ∈ creationOrder g aut inside ↔ inside t = true := by
  simp only [creationOrder, Automaton.strata, List.mem_flatMap, List.mem_map, List.mem_range'_1]
  constructor
  · rintro ⟨_, ⟨d, -, rfl⟩, hmem⟩
    exact (h.mem_stratumLabels.1 hmem).2
  · intro hinside
    have hlt := h.lt hinside
    refine ⟨_, ⟨t.target - t.source, by omega, rfl⟩, h.mem_stratumLabels.2 ⟨by omega, hinside⟩⟩

theorem PartClosed.mem_creationOrder (h : PartClosed g aut inside) :
    t ∈ creationOrder g aut inside ↔ inside t = true :=
  (h.admits fun _ _ => rfl).mem_creationOrder

variable {keep : Constituent → Bool}

theorem PartClosed.partsOver_eq (h : PartClosed g aut inside) (hkeep : PartClosed g aut keep)
    (hle : ∀ t, keep t = true → inside t = true) {pair : Nat × Nat × Nat} (hpair : pair ∈ g.pairs)
    (hhead : keep (ofVisit v pair.1) = true) : partsOver keep v pair = partsOver inside v pair := by
  refine List.filter_congr fun p hp => ?_
  obtain ⟨m, -, rfl⟩ := List.mem_map.1 hp
  rw [Bool.eq_iff_iff, Bool.and_eq_true, Bool.and_eq_true]
  constructor
  · rintro ⟨hl, hr⟩
    exact ⟨hle _ hl, hle _ hr⟩
  · rintro ⟨hl, hr⟩
    refine hkeep.parts _ _ _ hhead ?_
    exact ⟨pair.2.1, pair.2.2, m, Grammar.mem_pairs.1 hpair, rfl, rfl, h.spanned _ hl,
      h.spanned _ hr⟩

theorem PartClosed.partsOf_eq (h : PartClosed g aut inside) (hkeep : PartClosed g aut keep)
    (hle : ∀ t, keep t = true → inside t = true) (ht : keep t = true) :
    partsOf g aut keep t = partsOf g aut inside t := by
  refine flatMap_filter_congr fun pair hpair => ?_
  by_cases hrule : pair.1 = t.rule
  · have hhead : keep (ofVisit (visit aut t) pair.1) = true := by rwa [hrule]
    rw [h.partsOver_eq hkeep hle hpair hhead]
  · simp [hrule]

theorem PartClosed.heads_eq (h : PartClosed g aut inside) (hkeep : PartClosed g aut keep)
    (hle : ∀ t, keep t = true → inside t = true) (v : Visit) :
    heads g keep v = (heads g inside v).filter fun a => keep (ofVisit v a) := by
  rw [heads, heads, List.filter_flatMap]
  refine flatMap_filter_congr fun pair hpair => ?_
  by_cases hhead : keep (ofVisit v pair.1) = true
  · rw [h.partsOver_eq hkeep hle hpair hhead]
    simp [hhead, hle _ hhead]
  · simp [hhead]

theorem PartClosed.pairLabels_eq (h : PartClosed g aut inside) (hkeep : PartClosed g aut keep)
    (hle : ∀ t, keep t = true → inside t = true) (v : Visit) :
    pairLabels g aut keep v = (pairLabels g aut inside v).filter keep := by
  rw [pairLabels, pairLabels, pairRules, pairRules, h.heads_eq hkeep hle, distinct_filter,
    List.filter_comm, List.filter_map]
  rfl

theorem leafLabels_eq (hle : ∀ t, keep t = true → inside t = true) (d : Nat) :
    Arena.leafLabels g aut keep d = (Arena.leafLabels g aut inside d).filter keep := by
  rw [Arena.leafLabels, Arena.leafLabels, ← distinct_filter, List.filter_flatMap]
  congr 1
  refine List.flatMap_congr fun e _ => ?_
  rw [List.filter_filter]
  refine List.filter_congr fun t _ => ?_
  rw [Bool.eq_iff_iff, Bool.and_eq_true]
  exact ⟨fun ht => ⟨ht, hle t ht⟩, And.left⟩

theorem PartClosed.creationOrder_eq (h : PartClosed g aut inside) (hkeep : PartClosed g aut keep)
    (hle : ∀ t, keep t = true → inside t = true) :
    creationOrder g aut keep = (creationOrder g aut inside).filter keep := by
  rw [creationOrder, creationOrder, List.filter_flatMap]
  refine List.flatMap_congr fun s _ => ?_
  rw [stratumLabels, stratumLabels, List.filter_append, List.filter_flatMap, leafLabels_eq hle]
  congr 1
  exact List.flatMap_congr fun v _ => h.pairLabels_eq hkeep hle v

end Constituent

end GrammarRepair
