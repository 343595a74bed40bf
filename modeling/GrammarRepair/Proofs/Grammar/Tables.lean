import GrammarRepair.Grammar.Derivation

/-!
The look-up tables of a grammar say what its productions say, in the order of the productions. Main
statements: the table of pairs is the list of those productions that are pairs, and the table of a
token lists the heads of its productions, each where it is first met.
-/

namespace GrammarRepair

namespace Production

variable {p : Production} {a b c x : Nat}

def pair? (p : Production) : Option (Nat × Nat × Nat) :=
  match p.body with
  | .pair b c => some (p.head, b, c)
  | .token _ => none

def headOf? (x : Nat) (p : Production) : Option Nat :=
  match p.body with
  | .pair _ _ => none
  | .token y => if y = x then some p.head else none

def partsOf? (a : Nat) (p : Production) : Option (Nat × Nat) :=
  if p.head = a then p.pair?.map Prod.snd else none

theorem pair?_eq_some_iff : p.pair? = some (a, b, c) ↔ p = ⟨a, .pair b c⟩ := by
  obtain ⟨head, body⟩ := p
  cases body with
  | pair b' c' => simp [pair?]
  | token y => simp [pair?]

theorem partsOf?_eq_some_iff : p.partsOf? a = some (b, c) ↔ p = ⟨a, .pair b c⟩ := by
  obtain ⟨head, body⟩ := p
  cases body with
  | pair b' c' => simp [partsOf?, pair?]
  | token y => simp [partsOf?, pair?]

theorem headOf?_eq_some_iff : p.headOf? x = some a ↔ p = ⟨a, .token x⟩ := by
  obtain ⟨head, body⟩ := p
  cases body with
  | pair b' c' => simp [headOf?]
  | token y => simp [headOf?, and_comm]

end Production

namespace Tables

variable {a b c x : Nat} {t : Tables}

theorem pairs_enter (p : Production × Nat) :
    (t.enter p).pairs.toList = t.pairs.toList ++ p.1.pair?.toList := by
  obtain ⟨⟨head, body⟩, i⟩ := p
  cases body with
  | pair b c => simp [enter, Production.pair?]
  | token y => simp [enter, Production.pair?]

/-- A rule is entered once for each token, however often it is written. -/
theorem rulesOf_enter (p : Production × Nat) (hx : x < t.rulesOf.size) :
    ((t.enter p).rulesOf.getD x #[]).toList = (p.1.headOf? x).toList.foldl
      (fun seen a => if seen.contains a then seen else seen ++ [a])
      (t.rulesOf.getD x #[]).toList := by
  obtain ⟨⟨head, body⟩, i⟩ := p
  cases body with
  | pair b c => simp [enter, Production.headOf?]
  | token y =>
    by_cases h : y = x
    · subst h
      by_cases hmem : head ∈ t.rulesOf[y]
      · simp [enter, Production.headOf?, hx, hmem, Array.getElem_modify]
      · simp [enter, Production.headOf?, hx, hmem, Array.getElem_modify]
    · simp [enter, Production.headOf?, hx, h, Array.getElem_modify]

theorem productionsOf_enter (p : Production × Nat) (ha : a < t.productionsOf.size) :
    ((t.enter p).productionsOf.getD a #[]).toList = (t.productionsOf.getD a #[]).toList ++
      if p.1.head = a then [p.2] else [] := by
  obtain ⟨⟨head, body⟩, i⟩ := p
  have hmodify : ((t.productionsOf.modify head (·.push i)).getD a #[]).toList =
      (t.productionsOf.getD a #[]).toList ++ if head = a then [i] else [] := by
    by_cases h : head = a
    · subst h
      simp [ha, Array.getElem_modify]
    · simp [ha, h, Array.getElem_modify]
  cases body <;> exact hmodify

theorem pairsOf_enter (p : Production × Nat) (ha : a < t.pairsOf.size) :
    ((t.enter p).pairsOf.getD a #[]).toList =
      (t.pairsOf.getD a #[]).toList ++ (p.1.partsOf? a).toList := by
  obtain ⟨⟨head, body⟩, i⟩ := p
  cases body with
  | pair b c =>
    by_cases h : head = a
    · subst h
      simp [enter, ha, Array.getElem_modify, Production.partsOf?, Production.pair?]
    · simp [enter, ha, h, Array.getElem_modify, Production.partsOf?]
  | token x => simp [enter, Production.partsOf?, Production.pair?]

theorem size_productionsOf_enter (p : Production × Nat) :
    (t.enter p).productionsOf.size = t.productionsOf.size := by
  obtain ⟨⟨head, body⟩, i⟩ := p
  cases body <;> simp [enter]

theorem size_pairsOf_enter (p : Production × Nat) : (t.enter p).pairsOf.size = t.pairsOf.size := by
  obtain ⟨⟨head, body⟩, i⟩ := p
  cases body <;> simp [enter]

theorem size_rulesOf_enter (p : Production × Nat) : (t.enter p).rulesOf.size = t.rulesOf.size := by
  obtain ⟨⟨head, body⟩, i⟩ := p
  cases body <;> simp [enter]

theorem pairs_foldl (ps : List (Production × Nat)) : (ps.foldl enter t).pairs.toList =
    t.pairs.toList ++ (ps.map Prod.fst).filterMap Production.pair? := by
  induction ps generalizing t with
  | nil => simp
  | cons p ps ih =>
    rw [List.foldl_cons, ih, pairs_enter, List.map_cons, List.filterMap_cons, List.append_assoc]
    cases p.1.pair? <;> rfl

theorem productionsOf_foldl (ps : List (Production × Nat)) (ha : a < t.productionsOf.size) :
    ((ps.foldl enter t).productionsOf.getD a #[]).toList =
      (t.productionsOf.getD a #[]).toList ++ (ps.filter (·.1.head == a)).map Prod.snd := by
  induction ps generalizing t with
  | nil => simp
  | cons p ps ih =>
    rw [List.foldl_cons, ih (by rwa [size_productionsOf_enter]), productionsOf_enter p ha,
      List.append_assoc, List.filter_cons]
    by_cases h : p.1.head = a
    · simp [h]
    · simp [h]

theorem pairsOf_foldl (ps : List (Production × Nat)) (ha : a < t.pairsOf.size) :
    ((ps.foldl enter t).pairsOf.getD a #[]).toList = (t.pairsOf.getD a #[]).toList ++
      (ps.map Prod.fst).filterMap (Production.partsOf? a) := by
  induction ps generalizing t with
  | nil => simp
  | cons p ps ih =>
    rw [List.foldl_cons, ih (by rwa [size_pairsOf_enter]), pairsOf_enter p ha, List.append_assoc,
      List.map_cons, List.filterMap_cons]
    cases p.1.partsOf? a <;> rfl

theorem rulesOf_foldl (ps : List (Production × Nat)) (hx : x < t.rulesOf.size) :
    ((ps.foldl enter t).rulesOf.getD x #[]).toList =
      ((ps.map Prod.fst).filterMap (Production.headOf? x)).foldl
        (fun seen a => if seen.contains a then seen else seen ++ [a])
        (t.rulesOf.getD x #[]).toList := by
  induction ps generalizing t with
  | nil => simp
  | cons p ps ih =>
    rw [List.foldl_cons, ih (by rwa [size_rulesOf_enter]), rulesOf_enter p hx, List.map_cons,
      List.filterMap_cons]
    cases p.1.headOf? x <;> rfl

theorem sizes_foldl (ps : List (Production × Nat)) :
    (ps.foldl enter t).productionsOf.size = t.productionsOf.size ∧
      (ps.foldl enter t).pairsOf.size = t.pairsOf.size ∧
      (ps.foldl enter t).rulesOf.size = t.rulesOf.size := by
  induction ps generalizing t with
  | nil => simp
  | cons p ps ih =>
    obtain ⟨hproductions, hpairs, hrules⟩ := ih (t := t.enter p)
    rw [List.foldl_cons, hproductions, hpairs, hrules, size_productionsOf_enter,
      size_pairsOf_enter, size_rulesOf_enter]
    exact ⟨rfl, rfl, rfl⟩

end Tables

namespace Grammar

variable {g : Grammar} {a b c t x : Nat}

theorem map_fst_zipIdx (ps : List Production) : ps.zipIdx.map Prod.fst = ps :=
  List.zipIdx_map_fst 0 ps

theorem pairs_eq (g : Grammar) : g.pairs = g.productions.toList.filterMap Production.pair? := by
  rw [pairs, g.tables_eq, Tables.ofProductions, Tables.pairs_foldl, map_fst_zipIdx]
  rfl

theorem mem_pairs : (a, b, c) ∈ g.pairs ↔ ⟨a, .pair b c⟩ ∈ g.productions.toList := by
  simp only [pairs_eq, List.mem_filterMap, Production.pair?_eq_some_iff, exists_eq_right]

theorem size_tablesPairsOf (g : Grammar) : g.tables.pairsOf.size = g.ruleCount := by
  rw [g.tables_eq, Tables.ofProductions, (Tables.sizes_foldl _).2.1, Array.size_replicate,
    ruleCount]

theorem size_tablesProductionsOf (g : Grammar) :
    g.tables.productionsOf.size = g.ruleCount := by
  rw [g.tables_eq, Tables.ofProductions, (Tables.sizes_foldl _).1, Array.size_replicate, ruleCount]

theorem size_tablesRulesOf (g : Grammar) : g.tables.rulesOf.size = g.tokenCount := by
  rw [g.tables_eq, Tables.ofProductions, (Tables.sizes_foldl _).2.2, Array.size_replicate,
    tokenCount]

theorem productionsOf_eq (g : Grammar) (a : Nat) : g.productionsOf a =
    (g.productions.toList.zipIdx.filter (·.1.head == a)).map Prod.snd := by
  by_cases ha : a < g.ruleCount
  · have ha' : a < g.ruleNames.size := ha
    rw [productionsOf, g.tables_eq, Tables.ofProductions,
      Tables.productionsOf_foldl _ (by simpa using ha')]
    simp [ha']
  · have hsize : ¬ a < g.tables.productionsOf.size := by rwa [g.size_tablesProductionsOf]
    have hnone : g.productions.toList.zipIdx.filter (·.1.head == a) = [] := by
      refine List.filter_eq_nil_iff.2 fun p hp hhead => ha ?_
      rw [← eq_of_beq hhead]
      exact (g.inRange _ (List.fst_mem_of_mem_zipIdx hp)).1
    rw [productionsOf, Array.getD, dif_neg hsize, hnone]
    rfl

theorem mem_productionsOf {i : Nat} :
    i ∈ g.productionsOf a ↔ ∃ p : Production, g.productions[i]? = some p ∧ p.head = a := by
  simp [productionsOf_eq, List.mem_zipIdx_iff_getElem?]

theorem pairwise_productionsOf (g : Grammar) (a : Nat) : (g.productionsOf a).Pairwise (· < ·) := by
  have hnumbers : (g.productions.toList.zipIdx.map Prod.snd).Pairwise (· < ·) := by
    rw [List.zipIdx_map_snd]
    exact List.pairwise_lt_range'
  rw [productionsOf_eq, List.pairwise_map]
  exact (List.pairwise_map.1 hnumbers).filter _

theorem pairsOf_eq (g : Grammar) (a : Nat) :
    g.pairsOf a = g.productions.toList.filterMap (Production.partsOf? a) := by
  by_cases ha : a < g.ruleCount
  · have ha' : a < g.ruleNames.size := ha
    rw [pairsOf, g.tables_eq, Tables.ofProductions, Tables.pairsOf_foldl _ (by simpa using ha'),
      map_fst_zipIdx]
    simp [ha']
  · have hsize : ¬ a < g.tables.pairsOf.size := by rwa [g.size_tablesPairsOf]
    have hnone : g.productions.toList.filterMap (Production.partsOf? a) = [] := by
      refine List.filterMap_eq_nil_iff.2 fun p hp => if_neg fun hhead => ha ?_
      rw [← hhead]
      exact (g.inRange _ hp).1
    rw [pairsOf, Array.getD, dif_neg hsize, hnone]

theorem mem_pairsOf : (b, c) ∈ g.pairsOf a ↔ ⟨a, .pair b c⟩ ∈ g.productions.toList := by
  simp only [pairsOf_eq, List.mem_filterMap, Production.partsOf?_eq_some_iff, exists_eq_right]

/-- The rules of a token are the heads of its productions, each where it is first met. -/
theorem rulesOf_eq (g : Grammar) (x : Nat) :
    g.rulesOf x = distinct (g.productions.toList.filterMap (Production.headOf? x)) := by
  rw [rulesOf, g.tables_eq, Tables.ofProductions]
  by_cases hx : x < g.tokenNames.size
  · rw [Tables.rulesOf_foldl _ (by simpa using hx), map_fst_zipIdx, distinct_eq_foldl]
    simp [hx]
  · have hsize : ¬ x < (g.productions.toList.zipIdx.foldl Tables.enter
        ⟨Array.replicate g.ruleNames.size #[], Array.replicate g.ruleNames.size #[], #[],
          Array.replicate g.tokenNames.size #[]⟩).rulesOf.size := by
      simpa [(Tables.sizes_foldl _).2.2] using hx
    have hnone : g.productions.toList.filterMap (Production.headOf? x) = [] := by
      refine List.filterMap_eq_nil_iff.2 fun p hp => Option.eq_none_iff_forall_ne_some.2 ?_
      intro a ha
      rw [Production.headOf?_eq_some_iff] at ha
      subst ha
      exact hx (g.inRange _ hp).2
    rw [hnone, Array.getD, dif_neg hsize]
    rfl

theorem mem_rulesOf : a ∈ g.rulesOf t ↔ ⟨a, .token t⟩ ∈ g.productions.toList := by
  simp only [rulesOf_eq, mem_distinct, List.mem_filterMap, Production.headOf?_eq_some_iff,
    exists_eq_right]

theorem nodup_rulesOf (g : Grammar) (x : Nat) : (g.rulesOf x).Nodup := by
  rw [rulesOf_eq]
  exact nodup_distinct _

end Grammar

end GrammarRepair
