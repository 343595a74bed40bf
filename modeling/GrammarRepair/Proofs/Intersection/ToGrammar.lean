import GrammarRepair.Intersection.ToGrammar
import GrammarRepair.Proofs.Chart.Recognition
import GrammarRepair.Proofs.Grammar.Numbering
import GrammarRepair.Proofs.Grammar.Pruned
import GrammarRepair.Proofs.Intersection.Kept
import GrammarRepair.Proofs.Intersection.Names

/-!
An intersection as a grammar. Nonterminal `x` becomes rule `x + 1` and derives what it did; the
start rule has the productions of its alternatives and derives what any of them does. All numbers
exist and all names differ, so nothing is wrong with the parts but, perhaps, their number. Main
statement: unless it is too large for the width, the grammar is made, all its rules are useful, and
it recognises exactly the sentences that the automaton accepts.
-/

namespace GrammarRepair

namespace Intersection

variable {g : Grammar} {aut : Automaton} {ig : Intersection} {x t : Nat} {v : List Nat}

theorem mem_bodyProductions_pair {a b c : Nat} : ⟨a, .pair b c⟩ ∈ ig.bodyProductions ↔
    ∃ x y z, (x, y, z) ∈ ig.pairs ∧ a = x + 1 ∧ b = y + 1 ∧ c = z + 1 := by
  simp only [bodyProductions, List.mem_append, List.mem_map, Array.mem_toList_iff, Prod.exists,
    Production.mk.injEq, Body.pair.injEq, reduceCtorEq, and_false, exists_false, or_false,
    eq_comm (a := a), eq_comm (a := b), eq_comm (a := c)]

theorem mem_bodyProductions_token {a : Nat} : ⟨a, .token t⟩ ∈ ig.bodyProductions ↔
    ∃ x, (x, t) ∈ ig.terminals ∧ a = x + 1 := by
  simp only [bodyProductions, List.mem_append, List.mem_map, Array.mem_toList_iff, Prod.exists,
    Production.mk.injEq, Body.token.injEq, reduceCtorEq, and_false, exists_false, false_or]
  constructor
  · rintro ⟨x, t', h, rfl, rfl⟩
    exact ⟨x, h, rfl⟩
  · rintro ⟨x, h, rfl⟩
    exact ⟨x, t, h, rfl, rfl⟩

theorem exists_head_eq {p : Production} (h : p ∈ ig.bodyProductions) : ∃ x, p.head = x + 1 := by
  obtain ⟨a, body⟩ := p
  cases body with
  | pair b c =>
    obtain ⟨x, -, -, -, ha, -⟩ := mem_bodyProductions_pair.1 h
    exact ⟨x, ha⟩
  | token t =>
    obtain ⟨x, -, ha⟩ := mem_bodyProductions_token.1 h
    exact ⟨x, ha⟩

theorem mem_startProductions {p : Production} : p ∈ ig.startProductions ↔
    p.head = 0 ∧ ∃ x ∈ ig.starts, ⟨x + 1, p.body⟩ ∈ ig.bodyProductions := by
  simp only [startProductions, List.mem_flatMap, List.mem_map, List.mem_filter, beq_iff_eq]
  constructor
  · rintro ⟨x, hx, p, ⟨hp, hhead⟩, rfl⟩
    refine ⟨rfl, x, hx, ?_⟩
    rwa [← hhead]
  · rintro ⟨hhead, x, hx, hp⟩
    refine ⟨x, hx, _, ⟨hp, rfl⟩, ?_⟩
    rw [← hhead]

def Drafts (ig : Intersection) (g' : Grammar) : Prop :=
  g'.start = 0 ∧ g'.productions.toList = ig.startProductions ++ ig.bodyProductions

section Drafts

variable {g' : Grammar} (h : ig.Drafts g')

include h

theorem mem_productions_succ {body : Body} :
    ⟨x + 1, body⟩ ∈ g'.productions.toList ↔ ⟨x + 1, body⟩ ∈ ig.bodyProductions := by
  rw [h.2, List.mem_append, mem_startProductions]
  exact or_iff_right fun hstart => Nat.succ_ne_zero x hstart.1

theorem mem_productions_zero {body : Body} : ⟨0, body⟩ ∈ g'.productions.toList ↔
    ∃ x ∈ ig.starts, ⟨x + 1, body⟩ ∈ g'.productions.toList := by
  simp only [mem_productions_succ h]
  rw [h.2, List.mem_append, mem_startProductions, or_iff_left, and_iff_right rfl]
  intro hbody
  obtain ⟨x, hx⟩ := exists_head_eq hbody
  cases hx

theorem derives_succ_iff : g'.Derives (x + 1) v ↔ ig.Derives x v := by
  constructor
  · intro hv
    generalize ha : x + 1 = a at hv
    induction hv generalizing x with
    | token hp =>
      subst ha
      obtain ⟨y, hy, hxy⟩ := mem_bodyProductions_token.1 ((mem_productions_succ h).1 hp)
      obtain rfl := Nat.succ.inj hxy
      exact .terminal hy
    | pair hp hv hw ihv ihw =>
      subst ha
      obtain ⟨x', y, z, hmem, hx, hy, hz⟩ :=
        mem_bodyProductions_pair.1 ((mem_productions_succ h).1 hp)
      obtain rfl := Nat.succ.inj hx
      exact .pair hmem (ihv hy.symm) (ihw hz.symm)
  · intro hv
    induction hv with
    | terminal hmem =>
      exact .token ((mem_productions_succ h).2 (mem_bodyProductions_token.2 ⟨_, hmem, rfl⟩))
    | pair hmem _ _ ihv ihw =>
      exact .pair ((mem_productions_succ h).2
        (mem_bodyProductions_pair.2 ⟨_, _, _, hmem, rfl, rfl, rfl⟩)) ihv ihw

theorem isSentence_drafts_iff : g'.IsSentence v ↔ ig.IsSentence v := by
  have hstart : g'.IsSentence v ↔ ∃ x ∈ ig.starts, g'.Derives (x + 1) v := by
    rw [Grammar.IsSentence, h.1]
    constructor
    · intro hv
      cases hv with
      | token hp =>
        obtain ⟨x, hx, hp⟩ := (mem_productions_zero h).1 hp
        exact ⟨x, hx, .token hp⟩
      | pair hp hv hw =>
        obtain ⟨x, hx, hp⟩ := (mem_productions_zero h).1 hp
        exact ⟨x, hx, .pair hp hv hw⟩
    · rintro ⟨x, hx, hv⟩
      cases hv with
      | token hp => exact .token ((mem_productions_zero h).2 ⟨x, hx, hp⟩)
      | pair hp hv hw => exact .pair ((mem_productions_zero h).2 ⟨x, hx, hp⟩) hv hw
  rw [hstart]
  exact exists_congr fun x => and_congr_right fun _ => derives_succ_iff h

end Drafts

/-- All that an intersection mentions exists, and nothing is there twice. -/
structure WellFormed (ig : Intersection) (g : Grammar) : Prop where
  nodup_labels : ig.labels.toList.Nodup
  nodup_nonterminals : ig.nonterminals.toList.Nodup
  nonterminals_exist : ∀ t ∈ ig.nonterminals, ig.Exists g t
  pairs_lt : ∀ x y z, (x, y, z) ∈ ig.pairs → x < ig.nonterminals.size ∧
    y < ig.nonterminals.size ∧ z < ig.nonterminals.size
  terminals_lt : ∀ x t, (x, t) ∈ ig.terminals → x < ig.nonterminals.size ∧ t < g.tokenCount

structure Fits (ig : Intersection) (w : Width) (g : Grammar) : Prop where
  rules_le : ig.nonterminals.size + 1 ≤ w.maxIndex
  tokens_le : g.tokenCount ≤ w.maxIndex
  productions_le : (ig.startProductions ++ ig.bodyProductions).length ≤ w.maxIndex

def ruleNames (ig : Intersection) (g : Grammar) : List String :=
  "^" :: (List.range ig.nonterminals.size).map (ig.name g)

theorem length_ruleNames (ig : Intersection) (g : Grammar) :
    (ig.ruleNames g).length = ig.nonterminals.size + 1 := by
  rw [ruleNames, List.length_cons, List.length_map, List.length_range]

theorem WellFormed.nodup_ruleNames (h : ig.WellFormed g) : (ig.ruleNames g).Nodup :=
  nodup_names h.nodup_labels h.nodup_nonterminals h.nonterminals_exist

theorem WellFormed.inRange (h : ig.WellFormed g) : ∀ p ∈ ig.startProductions ++ ig.bodyProductions,
    p.InRange (ig.ruleNames g).length g.tokenNames.toList.length := by
  have hbody : ∀ p ∈ ig.bodyProductions,
      p.InRange (ig.ruleNames g).length g.tokenNames.toList.length := by
    rintro ⟨a, body⟩ hp
    rw [length_ruleNames, Array.length_toList]
    cases body with
    | pair b c =>
      obtain ⟨x, y, z, hmem, rfl, rfl, rfl⟩ := mem_bodyProductions_pair.1 hp
      obtain ⟨hx, hy, hz⟩ := h.pairs_lt x y z hmem
      exact ⟨Nat.succ_lt_succ hx, Nat.succ_lt_succ hy, Nat.succ_lt_succ hz⟩
    | token t =>
      obtain ⟨x, hmem, rfl⟩ := mem_bodyProductions_token.1 hp
      obtain ⟨hx, ht⟩ := h.terminals_lt x t hmem
      exact ⟨Nat.succ_lt_succ hx, ht⟩
  intro p hp
  rcases List.mem_append.1 hp with hp | hp
  · obtain ⟨hhead, x, -, hx⟩ := mem_startProductions.1 hp
    refine ⟨?_, (hbody _ hx).2⟩
    rw [hhead, length_ruleNames]
    exact Nat.succ_pos _
  · exact hbody p hp

theorem WellFormed.exists_toGrammar (h : ig.WellFormed g) {w : Width} (hfits : ig.Fits w g) :
    ∃ g', ig.toGrammar w g = .ok g'.prune ∧ g'.tokenNames = g.tokenNames ∧ ig.Drafts g' := by
  have hrules : (ig.ruleNames g).length ≤ w.maxIndex := by
    rw [length_ruleNames]
    exact hfits.rules_le
  obtain ⟨g', hg'⟩ := Grammar.exists_ofParts hrules hfits.tokens_le hfits.productions_le
    h.nodup_ruleNames g.nodup_tokenNames (Nat.succ_pos _) h.inRange
  obtain ⟨-, htokens, hstart, hproductions⟩ := Grammar.names_of_ofParts hg'
  refine ⟨g', congrArg (Except.map Grammar.prune) hg', htokens, hstart, ?_⟩
  rw [hproductions]

/-- If it is not made for being too large, then it does not fit. -/
theorem fits_of_toGrammar {w : Width} (h : ig.toGrammar w g ≠ .error (.overfull .grammar)) :
    ig.Fits w g := by
  by_contra hfits
  have hover : w.maxIndex < (ig.ruleNames g).length ∨
      w.maxIndex < g.tokenNames.toList.length ∨
        w.maxIndex < (ig.startProductions ++ ig.bodyProductions).length := by
    by_contra hnot
    rw [not_or, not_or, Nat.not_lt, Nat.not_lt, Nat.not_lt, length_ruleNames] at hnot
    exact hfits ⟨hnot.1, hnot.2.1, hnot.2.2⟩
  refine h ?_
  rw [toGrammar, Grammar.ofParts]
  exact congrArg (Except.map Grammar.prune) (if_pos hover)

theorem wellFormed_pruned {follows : Nat → Nat → Bool}
    (hfollows : ∀ p w q, w ≠ [] → aut.Path p w q → follows p q = true) :
    (pruned g aut follows).WellFormed g := by
  refine ⟨aut.nodup_labels, nodup_nonterminals_pruned g aut follows, fun t ht => ?_,
    fun i j k hmem => ?_, fun i t hmem => ?_⟩
  · have hneeded := (mem_nonterminals_pruned hfollows).1 ht
    obtain ⟨hlt, htarget⟩ := hneeded.spanned.lt
    exact ⟨Nat.lt_trans hlt htarget, hneeded.spanned.rule_lt, htarget⟩
  · obtain ⟨x, y, z, hx, hy, hz, -⟩ := mem_pairs_prune.1 hmem
    exact ⟨lt_of_newNumber? hx, lt_of_newNumber? hy, lt_of_newNumber? hz⟩
  · obtain ⟨x, hx, -⟩ := mem_terminals_prune.1 hmem
    have hi : i < (pruned g aut follows).nonterminals.size := lt_of_newNumber? hx
    have hderives : (pruned g aut follows).Derives i [t] := .terminal hmem
    obtain ⟨htoken, -⟩ := ((represents_pruned hfollows).derives_iff i _
      (Array.getElem?_eq_getElem hi) [t]).1 hderives
    exact ⟨hi, htoken.lt_tokenCount t (List.mem_singleton_self t)⟩

section

variable (hok : (intersect g aut).value = .ok ig)

include hok

theorem wellFormed_of_intersect : ig.WellFormed g :=
  eq_pruned_of_intersect hok ▸ wellFormed_pruned fun _ _ _ => follows_of_path

theorem represents_of_intersect : ig.Represents g aut :=
  eq_pruned_of_intersect hok ▸ represents_pruned fun _ _ _ => follows_of_path

theorem exists_sentence_of_intersect : ∃ v, g.IsSentence v ∧ aut.accepts v = true := by
  apply (isOk_intersect_iff g aut).1
  rw [hok]
  rfl

end

theorem length_bodyProductions (ig : Intersection) :
    ig.bodyProductions.length = ig.pairs.size + ig.terminals.size := by
  rw [bodyProductions, List.length_append, List.length_map, List.length_map, Array.length_toList,
    Array.length_toList]

theorem length_startProductions_le (ig : Intersection) :
    ig.startProductions.length ≤ ig.starts.length * ig.bodyProductions.length := by
  refine length_flatMap_le fun x _ => ?_
  rw [List.length_map]
  exact List.length_filter_le _ _

/-- Nonterminals that derive something have a production each. -/
theorem size_nonterminals_le (h : ∀ x < ig.nonterminals.size, ∃ v, ig.Derives x v) :
    ig.nonterminals.size ≤ ig.bodyProductions.length := by
  have hnodup : ((List.range ig.nonterminals.size).map (· + 1)).Nodup :=
    List.nodup_range.map fun x y => Nat.succ.inj
  have hsubset : (List.range ig.nonterminals.size).map (· + 1) ⊆
      ig.bodyProductions.map (·.head) := by
    intro a ha
    obtain ⟨x, hx, rfl⟩ := List.mem_map.1 ha
    obtain ⟨v, hv⟩ := h x (List.mem_range.1 hx)
    cases hv with
    | terminal hmem => exact List.mem_map_of_mem (mem_bodyProductions_token.2 ⟨x, hmem, rfl⟩)
    | pair hmem _ _ =>
      exact List.mem_map_of_mem (mem_bodyProductions_pair.2 ⟨x, _, _, hmem, rfl, rfl, rfl⟩)
  simpa using (hnodup.subperm hsubset).length_le

/-- The number of productions before pruning, those of the start rule left out. -/
def draftSize (g : Grammar) (aut : Automaton) (follows : Nat → Nat → Bool) : Nat :=
  ((stateTriples aut.stateCount follows).flatMap (pairsOver g)).length +
    (aut.edges.flatMap (terminalsOf g)).length

theorem length_bodyProductions_pruned_le (g : Grammar) (aut : Automaton)
    (follows : Nat → Nat → Bool) :
    (pruned g aut follows).bodyProductions.length ≤ draftSize g aut follows := by
  obtain ⟨hterminals, hpairs⟩ := records_draft g aut follows
  rw [length_bodyProductions, draftSize, ← hpairs.length_eq, ← hterminals.length_eq]
  exact Nat.add_le_add (Array.size_filterMap_le ..) (Array.size_filterMap_le ..)

theorem length_starts_pruned_le (g : Grammar) (aut : Automaton) (follows : Nat → Nat → Bool) :
    (pruned g aut follows).starts.length ≤ aut.initials.length * aut.finals.length := by
  refine Nat.le_trans (List.length_filterMap_le _ _) (length_flatMap_le fun p _ => ?_)
  exact List.length_filterMap_le _ _

theorem fits_of_intersect {w : Width} (hok : (intersect g aut).value = .ok ig)
    (htokens : g.tokenCount ≤ w.maxIndex)
    (hsize : (aut.initials.length * aut.finals.length + 1) *
      draftSize g aut (follows aut aut.reach) < w.maxIndex) : ig.Fits w g := by
  have hbody : ig.bodyProductions.length ≤ draftSize g aut (follows aut aut.reach) :=
    eq_pruned_of_intersect hok ▸ length_bodyProductions_pruned_le g aut _
  have hstarts : ig.starts.length ≤ aut.initials.length * aut.finals.length :=
    eq_pruned_of_intersect hok ▸ length_starts_pruned_le g aut _
  have hstart : ig.startProductions.length ≤
      aut.initials.length * aut.finals.length * draftSize g aut (follows aut aut.reach) :=
    Nat.le_trans (length_startProductions_le ig) (Nat.mul_le_mul hstarts hbody)
  have hrules := size_nonterminals_le (represents_of_intersect hok).productive
  rw [Nat.succ_mul] at hsize
  refine ⟨by omega, htokens, ?_⟩
  rw [List.length_append]
  omega

end Intersection

open Intersection

/-- Unless it is too large, an intersection is a grammar of useful rules over the same tokens, which
recognises the sentences that the automaton accepts. -/
theorem toGrammar_recognises_intersection {w : Width} {g : Grammar} {aut : Automaton}
    {ig : Intersection} (hok : (intersect g aut).value = .ok ig)
    (hfits : ig.toGrammar w g ≠ .error (.overfull .grammar)) :
    ("^" :: (List.range ig.nonterminals.size).map (ig.name g)).Nodup ∧
    ∃ g', ig.toGrammar w g = .ok g' ∧ g'.tokenNames = g.tokenNames ∧
      (∀ a < g'.ruleCount, g'.usefulness.isUseful a = true) ∧
      ∀ v, (recognise g' v).value = true ↔ (recognise g v).value = true ∧ aut.accepts v = true := by
  have hformed := wellFormed_of_intersect hok
  refine ⟨hformed.nodup_ruleNames, ?_⟩
  obtain ⟨g', hg', htokens, hdrafts⟩ := hformed.exists_toGrammar (fits_of_toGrammar hfits)
  have hlanguage : ∀ v, g'.IsSentence v ↔ g.IsSentence v ∧ aut.accepts v = true :=
    fun v => (isSentence_drafts_iff hdrafts).trans ((represents_of_intersect hok).isSentence_iff v)
  refine ⟨g'.prune, hg', ?_, fun a ha => ?_, fun v => ?_⟩
  · rw [← htokens]
    exact Array.toList_inj.1 (Grammar.tokenList_prune g')
  · obtain ⟨v, hv⟩ := exists_sentence_of_intersect hok
    exact Grammar.isUseful_prune ⟨v, (hlanguage v).2 hv⟩ ha
  · rw [value_recognise_iff, value_recognise_iff, Grammar.isSentence_prune_iff]
    exact hlanguage v

theorem toGrammar_of_threeStates : ∃ ig g', (intersect twoTokens threeStates).value = .ok ig ∧
    ig.toGrammar .w32 twoTokens = .ok g' ∧ (recognise g' [0, 1]).value = true := by
  have hsentence : twoTokens.IsSentence [0, 1] := isSentence_twoTokens_iff.2 rfl
  have haccepts : threeStates.accepts [0, 1] = true := by decide
  have hisOk := (isOk_intersect_iff twoTokens threeStates).2 ⟨[0, 1], hsentence, haccepts⟩
  cases hok : (intersect twoTokens threeStates).value with
  | error e =>
    rw [hok] at hisOk
    cases hisOk
  | ok ig =>
    have hfits : ig.Fits .w32 twoTokens := fits_of_intersect hok (by decide) (by decide +kernel)
    obtain ⟨drafted, hmade, -, -⟩ := (wellFormed_of_intersect hok).exists_toGrammar hfits
    have hnot : ig.toGrammar .w32 twoTokens ≠ .error (.overfull .grammar) := by
      rw [hmade]
      exact nofun
    obtain ⟨-, g', hg', -, -, hrecognises⟩ := toGrammar_recognises_intersection hok hnot
    exact ⟨ig, g', rfl, hg', (hrecognises _).2 ⟨value_recognise_iff.2 hsentence, haccepts⟩⟩

end GrammarRepair
