import GrammarRepair.Proofs.Grammar.Outcome
import GrammarRepair.Proofs.Intersection.ToGrammar
import GrammarRepair.Stored

/-!
Indices that are cut down are whole. Whatever is put together is checked for its size, and no index is
larger than the size of what it points into; so where a cut would change an index, the check that
follows refuses the whole. Main statements: the grammar of a source and the grammar of an intersection
are stored as they would be with numbers of any size.
-/

namespace GrammarRepair

theorem Width.store_of_le {w : Width} {n : Nat} (h : n ≤ w.maxIndex) : w.store n = n := by
  have hmax := w.maxIndex_eq
  have hpos := w.maxIndex_pos
  exact Nat.mod_eq_of_lt (by omega)

theorem Width.indices_eq {w : Width} {size : Nat} (h : size ≤ w.maxIndex) :
    w.indices size = List.range size := by
  refine (List.map_congr_left fun i hi => ?_).trans (List.map_id _)
  have hlt := List.mem_range.1 hi
  exact store_of_le (by omega)

theorem filterMap_range_getElem? {α : Type} (xs : List α) :
    (List.range xs.length).filterMap (fun i => xs[i]?) = xs := by
  induction xs with
  | nil => rfl
  | cons x xs ih =>
    rw [List.length_cons, List.range_succ_eq_map, List.filterMap_cons, List.getElem?_cons_zero,
      List.filterMap_map]
    exact congrArg (x :: ·) ih

theorem Width.listed_eq {α : Type} {w : Width} {xs : Array α} (h : xs.size ≤ w.maxIndex) :
    w.listed xs = xs.toList := by
  rw [listed, indices_eq h, ← filterMap_range_getElem? xs.toList, Array.length_toList]
  simp only [Array.getElem?_toList]

open Width

namespace StoredGrammar

variable {w : Width} {g : Grammar} {ruleNames tokenNames : List String} {start : Nat}
  {productions : List Production}

theorem tablesOf_eq {rules tokens : Nat} (h : productions.length ≤ w.maxIndex) :
    tablesOf w rules tokens productions = Tables.ofProductions rules tokens productions := by
  have hsame : productions.zipIdx.map (fun p => (p.1, w.store p.2)) = productions.zipIdx := by
    conv_rhs => rw [← List.map_id productions.zipIdx]
    refine List.map_congr_left fun p hp => ?_
    have hlt := List.snd_lt_of_mem_zipIdx hp
    exact Prod.ext rfl (store_of_le (by omega))
  rw [tablesOf, hsame]
  rfl

theorem ofParts_eq : ofParts w ruleNames start tokenNames productions =
    (Grammar.ofParts w ruleNames start tokenNames productions).map Grammar.stored := by
  cases h : Grammar.ofParts w ruleNames start tokenNames productions with
  | error fault => rw [ofParts, h]; rfl
  | ok g =>
    obtain ⟨hrules, htokens, -, hproductions⟩ := Grammar.names_of_ofParts h
    have hfits := (Grammar.fits_of_ofParts h).productions_le
    rw [hproductions, List.size_toArray] at hfits
    have htables : tablesOf w ruleNames.length tokenNames.length productions = g.tables := by
      rw [tablesOf_eq hfits, g.tables_eq, hrules, htokens, hproductions]
      rfl
    rw [ofParts, h]
    simp only [Except.map, htables]
    rfl

/-- A grammar that fits is stored as it is if it is built again. -/
theorem rebuild_eq (h : g.Fits w) : (ofParts w g.ruleNames.toList g.start g.tokenNames.toList
    g.productions.toList).map (fun s =>
      { s with ruleSpans := g.ruleSpans, tokenSpans := g.tokenSpans }) = .ok g.stored := by
  obtain ⟨g', hg', hrules, htokens, hstart, hproductions⟩ := h.exists_rebuilt
  have htables : g'.tables = g.tables := by
    rw [g'.tables_eq, g.tables_eq, hrules, htokens, hproductions]
  rw [ofParts_eq, hg']
  simp only [Except.map, Grammar.stored, hrules, htokens, hstart, hproductions, htables]

theorem ruleCount_eq (h : g.Fits w) : g.stored.ruleCount w = g.ruleCount :=
  store_of_le h.rules_le

theorem listed_productions (h : g.Fits w) :
    w.listed g.stored.productions = g.productions.toList :=
  listed_eq h.productions_le

theorem generating_eq (h : g.Fits w) : g.stored.generating w = g.generating := by
  rw [generating, listed_productions h, ruleCount_eq h]
  rfl

theorem filterMap_parts?_productionsOf (g : Grammar) (a : Nat) :
    (g.productionsOf a).filterMap g.stored.parts? = g.pairsOf a := by
  have hparts : ∀ p ∈ g.productions.toList.zipIdx,
      (Option.guard (fun p => p.1.head == a) p).bind (g.stored.parts? ∘ Prod.snd) =
        (Production.partsOf? a ∘ Prod.fst) p := by
    rintro ⟨⟨head, body⟩, i⟩ hp
    have hget : g.productions[i]? = some ⟨head, body⟩ := by
      rw [← Array.getElem?_toList]
      exact List.mem_zipIdx_iff_getElem?.1 hp
    by_cases hhead : head = a
    · cases body <;>
        simp [parts?, Grammar.stored, hget, hhead, Production.partsOf?, Production.pair?]
    · simp [hhead, Production.partsOf?]
  rw [Grammar.productionsOf_eq, Grammar.pairsOf_eq, List.filterMap_map, ← List.filterMap_eq_filter,
    List.filterMap_filterMap, List.filterMap_congr hparts, ← List.filterMap_map,
    Grammar.map_fst_zipIdx]

theorem neighbours_eq (generating : NatSet) (a : Nat) :
    g.stored.neighbours generating a = g.neighbours generating a := by
  rw [neighbours, Grammar.neighbours, ← filterMap_parts?_productionsOf]
  rfl

theorem usefulness_eq (h : g.Fits w) : g.stored.usefulness w = g.usefulness := by
  have hneighbours : g.stored.neighbours g.generating = g.neighbours g.generating :=
    funext (neighbours_eq _)
  simp only [usefulness, Grammar.usefulness, generating_eq h, ruleCount_eq h, hneighbours]
  rfl

theorem append_blank {α : Type} (xs : Array (Option α)) (n : Nat) :
    xs ++ Array.replicate (n + 1) none = xs.push none ++ Array.replicate n none := by
  rw [← Array.toList_inj]
  simp [List.replicate_succ]

theorem setIfInBounds_blank {α : Type} (xs : Array (Option α)) (n : Nat) (x : Option α) :
    (xs ++ Array.replicate (n + 1) none).setIfInBounds xs.size x =
      xs.push x ++ Array.replicate n none := by
  rw [append_blank, ← Array.toList_inj]
  simp

/-- Entering new numbers into a blank table fills its front. -/
theorem foldl_keepStep (keep : Nat → Bool) {size n : Nat} (hsize : size ≤ w.maxIndex)
    (hn : n ≤ size) :
    (List.range n).foldl (keepStep w keep) ⟨#[], Array.replicate size none⟩ =
      ⟨(Renumbering.ofKeep n keep).kept,
        (Renumbering.ofKeep n keep).table ++ Array.replicate (size - n) none⟩ := by
  induction n with
  | zero => simp [Renumbering.ofKeep]
  | succ n ih =>
    have hkept := Renumbering.size_kept_le keep n
    have hleft : size - n = size - (n + 1) + 1 := by omega
    rw [List.range_succ, List.foldl_append, ih (by omega), Renumbering.ofKeep_succ, hleft]
    simp only [List.foldl_cons, List.foldl_nil, keepStep, Renumbering.step]
    split
    · have hset := setIfInBounds_blank (Renumbering.ofKeep n keep).table (size - (n + 1))
        (some (Renumbering.ofKeep n keep).kept.size)
      rw [Renumbering.size_table] at hset
      rw [store_of_le (by omega), hset]
    · rw [append_blank]

theorem keptRules_eq (h : g.Fits w) (u : Usefulness) :
    g.stored.keptRules w u = g.keptRules u := by
  have hrules : w.indices g.stored.ruleNames.size = List.range g.ruleCount :=
    indices_eq h.rules_le
  rw [keptRules, hrules, ruleCount_eq h, foldl_keepStep _ h.rules_le (Nat.le_refl _), Nat.sub_self,
    Array.replicate_zero, Array.append_empty]
  rfl

theorem prune_eq (h : g.Fits w) : prune w g.stored = .ok g.prune.stored := by
  rw [prune]
  simp only [usefulness_eq h, ruleCount_eq h, keptRules_eq h,
    listed_productions h]
  by_cases hall : g.usefulness.all g.ruleCount = true
  · rw [if_pos hall, Grammar.prune_of_all hall]
  · have hkept : (g.keptRules g.usefulness).kept.toList = g.keptList := Renumbering.kept_eq _ _
    have hnames : (g.keptRules g.usefulness).kept.toList.map
        (fun rule => g.stored.ruleNames.getD rule "") = g.prune.ruleNames.toList := by
      rw [hkept, Grammar.ruleNames_prune]
      rfl
    have hspans : (g.keptRules g.usefulness).kept.map
        (fun rule => g.stored.ruleSpans.getD rule none) = g.prune.ruleSpans := by
      rw [← Array.toList_inj, Array.toList_map, hkept, Grammar.ruleSpans_prune]
      rfl
    have hstart : ((g.keptRules g.usefulness).new? g.stored.start).getD 0 = g.prune.start := by
      rw [(Grammar.prune_of_not_all hall).2]
      rfl
    have hproductions : g.productions.toList.filterMap (Grammar.pruneProduction? g.usefulness
        (g.keptRules g.usefulness)) = g.prune.productions.toList :=
      (Grammar.productions_prune g).symm
    have htokens : g.stored.tokenNames.toList = g.prune.tokenNames.toList := by
      rw [Grammar.tokenNames_prune]
      rfl
    have htokenSpans : g.stored.tokenSpans = g.prune.tokenSpans := (Grammar.tokenSpans_prune g).symm
    rw [if_neg hall, hnames, hspans, hstart, hproductions, htokens, htokenSpans]
    exact rebuild_eq h.prune

section

variable {nf : NormalForm}

theorem numberRule_eq (hrules : nf.ruleNames.length ≤ w.maxIndex)
    (htokens : nf.tokenNames.length ≤ w.maxIndex) (rule : String × List NormalForm.NamedBody) :
    numberRule w nf rule =
      rule.2.map fun b => ⟨nf.ruleNames.idxOf rule.1, nf.numberBody b⟩ := by
  have hrule : ∀ name, w.store (nf.ruleNames.idxOf name) = nf.ruleNames.idxOf name :=
    fun name => store_of_le (Nat.le_trans List.idxOf_le_length hrules)
  have htoken : ∀ name, w.store (nf.tokenNames.idxOf name) = nf.tokenNames.idxOf name :=
    fun name => store_of_le (Nat.le_trans List.idxOf_le_length htokens)
  refine List.map_congr_left fun b _ => ?_
  cases b <;> simp only [numberBody, NormalForm.numberBody, hrule, htoken]

theorem number_eq (h : nf.Closed) : number w nf = (nf.number w).map Grammar.stored := by
  cases hover : nf.overfull? w with
  | some what =>
    rw [number, NormalForm.number, hover]
    rfl
  | none =>
    obtain ⟨hrules, htokens, -⟩ := NormalForm.overfull?_eq_none_iff.1 hover
    obtain ⟨g, hg⟩ :=
      NormalForm.exists_number hover h.nodup_rules h.nodup_tokens h.start_mem h.known
    obtain ⟨hnames, htokenNames, hstart, hproductions⟩ := NormalForm.numbers_of_number hg
    obtain ⟨hruleSpans, htokenSpans⟩ := NormalForm.spans_of_number hg
    have hstored : w.store (nf.ruleNames.idxOf nf.start) = g.start := by
      rw [hstart]
      exact store_of_le (Nat.le_trans List.idxOf_le_length hrules)
    have hsame : nf.rules.flatMap (numberRule w nf) = g.productions.toList := by
      rw [hproductions, Checked.productions_eq h.nodup_rules]
      exact List.flatMap_congr fun rule _ => numberRule_eq hrules htokens rule
    rw [number, hover, hg]
    simp only
    rw [hstored, hsame, ← hnames, ← htokenNames, ← hruleSpans, ← htokenSpans]
    exact rebuild_eq (NormalForm.fits_of_number hg)

end

theorem ofSource_eq (w : Width) (text : String) :
    ofSource w text = (Grammar.ofSource w text).map Grammar.stored := by
  rw [ofSource, Grammar.ofSource]
  cases hread : Written.read text with
  | error errors => rfl
  | ok written =>
    simp only [number_eq (NormalForm.closed_of_read hread)]
    cases hnumber : (NormalForm.ofWritten written).number w with
    | error fault => rfl
    | ok g =>
      have hprune := prune_eq (NormalForm.fits_of_number hnumber)
      simp only [Except.map, Except.bind, hprune]
      rfl

section

variable {ig : Intersection} {aut : Automaton}

theorem bodyProductions_eq (h : ig.WellFormed g) (hsize : ig.nonterminals.size ≤ w.maxIndex) :
    bodyProductions w ig = ig.bodyProductions := by
  have hstore : ∀ x < ig.nonterminals.size, w.store (x + 1) = x + 1 :=
    fun x hx => store_of_le (by omega)
  refine congrArg₂ (· ++ ·) (List.map_congr_left fun p hp => ?_)
    (List.map_congr_left fun p hp => ?_)
  · obtain ⟨hx, hy, hz⟩ := h.pairs_lt p.1 p.2.1 p.2.2 (Array.mem_toList_iff.1 hp)
    simp only [hstore _ hx, hstore _ hy, hstore _ hz]
  · obtain ⟨hx, -⟩ := h.terminals_lt p.1 p.2 (Array.mem_toList_iff.1 hp)
    simp only [hstore _ hx]

theorem startProductions_eq (h : ig.WellFormed g) (hstarts : ∀ x ∈ ig.starts, x < ig.nonterminals.size)
    (hsize : ig.nonterminals.size ≤ w.maxIndex) :
    startProductions w ig = ig.startProductions := by
  rw [startProductions, bodyProductions_eq h hsize]
  refine List.flatMap_congr fun x hx => ?_
  have hlt := hstarts x hx
  rw [store_of_le (by omega)]

/-- The nonterminals are counted after they have moved up, so too many of them are refused whatever
became of their numbers. -/
theorem ofIntersection_eq (hg : g.Fits w) (hok : (intersect g aut).value = .ok ig) :
    ofIntersection w ig g = (ig.toGrammar w g).map Grammar.stored := by
  have hformed := Intersection.wellFormed_of_intersect hok
  have hstarts : ∀ x ∈ ig.starts, x < ig.nonterminals.size := by
    intro x hx
    obtain ⟨p, -, q, -, hget⟩ := ((Intersection.represents_of_intersect hok).mem_starts_iff x).1 hx
    exact (Array.getElem?_eq_some_iff.1 hget).1
  have htokens : w.listed g.tokenNames = g.tokenNames.toList := listed_eq hg.tokens_le
  by_cases hsize : ig.nonterminals.size + 1 ≤ w.maxIndex
  · rw [ofIntersection, Intersection.toGrammar, htokens, bodyProductions_eq hformed (by omega),
      startProductions_eq hformed hstarts (by omega), ofParts_eq]
    cases hparts : Grammar.ofParts w ("^" :: (List.range ig.nonterminals.size).map (ig.name g)) 0
        g.tokenNames.toList (ig.startProductions ++ ig.bodyProductions) with
    | error fault => rfl
    | ok g' => exact prune_eq (Grammar.fits_of_ofParts hparts)
  · have hover : w.maxIndex <
        ("^" :: (List.range ig.nonterminals.size).map (ig.name g)).length := by
      rw [List.length_cons, List.length_map, List.length_range]
      omega
    rw [ofIntersection, Intersection.toGrammar, ofParts, Grammar.ofParts, Grammar.ofParts,
      if_pos (.inl hover), if_pos (.inl hover)]
    rfl

end

end StoredGrammar

end GrammarRepair
