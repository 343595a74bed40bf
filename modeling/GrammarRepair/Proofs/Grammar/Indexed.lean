import GrammarRepair.Proofs.Stored

/-!
The tables of a stored grammar. Each is filled with one pass over the productions and built anew
whenever rules get new numbers, so a grammar that came about in whatever way has tables that agree with
its productions. Main statement: they do, row by row, with all production numbers whole.
-/

namespace GrammarRepair

namespace StoredGrammar

/-- The ways in which a grammar of a width comes about: from its parts, from a source, from an
intersection, and by pruning. -/
inductive Made (w : Width) : StoredGrammar → Prop
  | parts {ruleNames tokenNames : List String} {start : Nat} {productions : List Production}
      {s : StoredGrammar} (h : ofParts w ruleNames start tokenNames productions = .ok s) : Made w s
  | source {text : String} {s : StoredGrammar} (h : ofSource w text = .ok s) : Made w s
  | intersection {ig : Intersection} {g : Grammar} {s : StoredGrammar}
      (h : ofIntersection w ig g = .ok s) : Made w s
  | pruned {s s' : StoredGrammar} (hs : Made w s) (h : prune w s = .ok s') : Made w s'

/-- The tables of a grammar say what its productions say. Every production stands in one row and no
other; the pairs of a rule are in the order of its row; and however often a rule has a token for a
production, it stands once among the rules of the token. -/
structure Indexed (s : StoredGrammar) : Prop where
  inRange : ∀ p ∈ s.productions.toList, p.InRange s.ruleNames.size s.tokenNames.size
  size_productionsOf : s.tables.productionsOf.size = s.ruleNames.size
  size_pairsOf : s.tables.pairsOf.size = s.ruleNames.size
  size_rulesOf : s.tables.rulesOf.size = s.tokenNames.size
  mem_row_iff : ∀ (a : Nat) (row : Array Nat), s.tables.productionsOf[a]? = some row →
    ∀ i, i ∈ row.toList ↔ ∃ p : Production, s.productions[i]? = some p ∧ p.head = a
  row_ascending : ∀ (a : Nat) (row : Array Nat), s.tables.productionsOf[a]? = some row →
    row.toList.Pairwise (· < ·)
  exists_unique_row : ∀ i < s.productions.size,
    ∃! a : Nat, ∃ row : Array Nat, s.tables.productionsOf[a]? = some row ∧ i ∈ row.toList
  pairs_of_row : ∀ (a : Nat) (row : Array Nat) (pairs : Array (Nat × Nat)),
    s.tables.productionsOf[a]? = some row → s.tables.pairsOf[a]? = some pairs →
    pairs.toList = row.toList.filterMap s.parts?
  pairs_eq : s.tables.pairs.toList = s.productions.toList.filterMap Production.pair?
  count_rules : ∀ (t : Nat) (rules : Array Nat), s.tables.rulesOf[t]? = some rules → ∀ a,
    rules.toList.count a = if ⟨a, .token t⟩ ∈ s.productions.toList then 1 else 0

variable {w : Width} {s : StoredGrammar} {g : Grammar} {text : String} {a i t : Nat}

theorem fits_of_ofSource (h : Grammar.ofSource w text = .ok g) : g.Fits w := by
  unfold Grammar.ofSource at h
  split at h
  · cases h
  · split at h
    · cases h
    · next g' hnumber =>
      cases h
      exact (NormalForm.fits_of_number hnumber).prune

theorem exists_of_ofParts {ruleNames tokenNames : List String} {start : Nat}
    {productions : List Production} (h : ofParts w ruleNames start tokenNames productions = .ok s) :
    ∃ g : Grammar, g.Fits w ∧ s = g.stored := by
  rw [ofParts_eq] at h
  cases hparts : Grammar.ofParts w ruleNames start tokenNames productions with
  | error fault =>
    rw [hparts] at h
    cases h
  | ok g =>
    rw [hparts] at h
    cases h
    exact ⟨g, Grammar.fits_of_ofParts hparts, rfl⟩

theorem exists_of_prune {s' : StoredGrammar} (hs : ∃ g : Grammar, g.Fits w ∧ s = g.stored)
    (h : prune w s = .ok s') : ∃ g : Grammar, g.Fits w ∧ s' = g.stored := by
  obtain ⟨g, hfits, rfl⟩ := hs
  rw [prune_eq hfits] at h
  cases h
  exact ⟨g.prune, hfits.prune, rfl⟩

/-- However a grammar came about, no number of it was cut down. -/
theorem Made.exists_grammar (h : Made w s) : ∃ g : Grammar, g.Fits w ∧ s = g.stored := by
  induction h with
  | parts h => exact exists_of_ofParts h
  | @source text s h =>
    rw [ofSource_eq] at h
    cases hsource : Grammar.ofSource w text with
    | error failure =>
      rw [hsource] at h
      cases h
    | ok g =>
      rw [hsource] at h
      cases h
      exact ⟨g, fits_of_ofSource hsource, rfl⟩
  | @intersection ig g s h =>
    rw [ofIntersection] at h
    cases hparts : ofParts w ("^" :: (List.range ig.nonterminals.size).map (ig.name g)) 0
        (w.listed g.tokenNames) (startProductions w ig ++ bodyProductions w ig) with
    | error fault =>
      rw [hparts] at h
      cases h
    | ok s' =>
      rw [hparts] at h
      exact exists_of_prune (exists_of_ofParts hparts) h
  | pruned _ h ih => exact exists_of_prune ih h

theorem productionsOf_of_row {row : Array Nat} (h : g.tables.productionsOf[a]? = some row) :
    g.productionsOf a = row.toList := by
  rw [Grammar.productionsOf, Array.getD_eq_getD_getElem?, h, Option.getD_some]

theorem pairsOf_of_row {row : Array (Nat × Nat)} (h : g.tables.pairsOf[a]? = some row) :
    g.pairsOf a = row.toList := by
  rw [Grammar.pairsOf, Array.getD_eq_getD_getElem?, h, Option.getD_some]

theorem rulesOf_of_row {row : Array Nat} (h : g.tables.rulesOf[t]? = some row) :
    g.rulesOf t = row.toList := by
  rw [Grammar.rulesOf, Array.getD_eq_getD_getElem?, h, Option.getD_some]

theorem exists_unique_row (hi : i < g.productions.size) :
    ∃! a : Nat, ∃ row : Array Nat, g.tables.productionsOf[a]? = some row ∧ i ∈ row.toList := by
  have hget := Array.getElem?_eq_getElem hi
  have hhead : g.productions[i].head < g.tables.productionsOf.size := by
    rw [g.size_tablesProductionsOf]
    exact (g.inRange _ (Array.getElem_mem_toList hi)).1
  have hrow := Array.getElem?_eq_getElem hhead
  refine ⟨g.productions[i].head, ⟨_, hrow, ?_⟩, ?_⟩
  · rw [← productionsOf_of_row hrow]
    exact Grammar.mem_productionsOf.2 ⟨_, hget, rfl⟩
  · rintro a ⟨row, hrow', hmem⟩
    rw [← productionsOf_of_row hrow'] at hmem
    obtain ⟨p, hp, rfl⟩ := Grammar.mem_productionsOf.1 hmem
    rw [Option.some.inj (hget.symm.trans hp)]

theorem indexed_stored (g : Grammar) : g.stored.Indexed where
  inRange := g.inRange
  size_productionsOf := g.size_tablesProductionsOf
  size_pairsOf := g.size_tablesPairsOf
  size_rulesOf := g.size_tablesRulesOf
  mem_row_iff := by
    intro a row hrow i
    rw [← productionsOf_of_row hrow]
    exact Grammar.mem_productionsOf
  row_ascending := by
    intro a row hrow
    rw [← productionsOf_of_row hrow]
    exact g.pairwise_productionsOf a
  exists_unique_row := fun _ => exists_unique_row
  pairs_of_row := by
    intro a row pairs hrow hpairs
    rw [← productionsOf_of_row hrow, ← pairsOf_of_row hpairs]
    exact (filterMap_parts?_productionsOf g a).symm
  pairs_eq := g.pairs_eq
  count_rules := by
    intro t rules hrules a
    rw [← rulesOf_of_row hrules, (g.nodup_rulesOf t).count]
    simp only [Grammar.mem_rulesOf]
    rfl

/-- However a grammar came about, its tables list its productions: every production stands in the row
of its head, rows are in ascending order, the pairs are all productions that are pairs, and a rule stands
once among the rules of each of its tokens. All indices exist. -/
theorem tables_list_productions :
    (∀ g : Grammar, g.stored.Indexed) ∧ ∀ w s, Made w s → s.Indexed := by
  refine ⟨indexed_stored, fun w s h => ?_⟩
  obtain ⟨g, -, rfl⟩ := h.exists_grammar
  exact indexed_stored g

/-- Repeated productions keep numbers of their own, but the rule of a repeated token is listed once. -/
theorem tables_list_productions_repeated : ∃ s, Made .w8 s ∧ s.Indexed ∧
    s.tables = ⟨#[#[0, 3], #[1, 2]], #[#[(1, 1), (0, 1)], #[]], #[(0, 1, 1), (0, 0, 1)], #[#[1]]⟩ := by
  obtain ⟨g, hg⟩ : ∃ g, Grammar.ofParts .w8 ["S", "A"] 0 ["a"]
      [⟨0, .pair 1 1⟩, ⟨1, .token 0⟩, ⟨1, .token 0⟩, ⟨0, .pair 0 1⟩] = .ok g :=
    Grammar.exists_ofParts (by decide) (by decide) (by decide) (by decide) (by decide) (by decide)
      (by simp [Production.InRange])
  obtain ⟨hrules, htokens, -, hproductions⟩ := Grammar.names_of_ofParts hg
  have hmade : Made .w8 g.stored := .parts (ofParts_eq.trans (congrArg (Except.map Grammar.stored) hg))
  refine ⟨g.stored, hmade, tables_list_productions.2 _ _ hmade, ?_⟩
  show g.tables = _
  rw [g.tables_eq, hrules, htokens, hproductions]
  decide +kernel

end StoredGrammar

end GrammarRepair
