import GrammarRepair.Proofs.Forest.Counting
import GrammarRepair.Proofs.Forest.Template

/-!
The strings of a forest. The trees of a node are put together as the constituent of the node is, so
their tokens are the strings that its rule derives and that lead from its source to its target. Main
statement: no forest is found exactly if no sentence is accepted, and unless there are too many trees
to count, a forest lists every accepted sentence once, and nothing else.
-/

namespace GrammarRepair

open Constituent

variable {g : Grammar} {aut : Automaton} {f : Forest} {t : Constituent} {w : List Nat}

namespace Constituent

/-- The constituent can be made up of these tokens. -/
def Yields (g : Grammar) (aut : Automaton) (t : Constituent) (w : List Nat) : Prop :=
  g.Derives t.rule w ∧ aut.Path t.source w t.target

theorem yields_iff : t.Yields g aut w ↔ (∃ x ∈ Arena.leavesOf g aut t, w = [x]) ∨
    ∃ l r, t.Splits g aut l r ∧ ∃ u v, l.Yields g aut u ∧ r.Yields g aut v ∧ w = u ++ v := by
  simp only [mem_leavesOf]
  constructor
  · rintro ⟨hderives, hpath⟩
    obtain ⟨source, rule, target⟩ := t
    cases hderives with
    | @token a x ha =>
      obtain ⟨e, he, rfl, rfl, hstop⟩ := Automaton.path_cons_iff.1 hpath
      obtain rfl : e.target = target := Automaton.path_nil_iff.1 hstop
      exact .inl ⟨e.token, ⟨he, ha⟩, rfl⟩
    | @pair a b c u v ha hu hv =>
      obtain ⟨m, hpathu, hpathv⟩ := Automaton.path_append_iff.1 hpath
      exact .inr ⟨_, _, ⟨b, c, m, ha, rfl, rfl, ⟨u, hu, hpathu⟩, ⟨v, hv, hpathv⟩⟩, u, v,
        ⟨hu, hpathu⟩, ⟨hv, hpathv⟩, rfl⟩
  · rintro (⟨x, ⟨he, ha⟩, rfl⟩ |
      ⟨_, _, ⟨b, c, m, ha, rfl, rfl, -, -⟩, u, v, ⟨hu, hpathu⟩, ⟨hv, hpathv⟩, rfl⟩)
    · exact ⟨.token ha, .step he (.stop _)⟩
    · exact ⟨.pair ha hu hv, hpathu.append hpathv⟩

end Constituent

namespace Forest

noncomputable def treesFor (f : Forest) (g : Grammar) (aut : Automaton) (t : Constituent) :
    List Tree :=
  f.treesOf ((neededOrder g aut).idxOf t)

/-- The trees of a node follow the way its constituent is put together. -/
theorem IsFull.treesFor_eq (h : f.IsFull g aut) (ht : t.Needed g aut) :
    f.treesFor g aut t = (Arena.leavesOf g aut t).map .leaf ++
      (partsOf g aut (isNeeded g aut) t).flatMap fun p =>
        (f.treesFor g aut p.1).flatMap fun left => (f.treesFor g aut p.2).map (.branch left) := by
  rw [treesFor, treesOf_eq (h.getElem?_nodes ht), Arena.nodeOf, List.flatMap_map]
  rfl

theorem IsFull.mem_yields_iff (h : f.IsFull g aut) (ht : t.Needed g aut) :
    w ∈ (f.treesFor g aut t).map Tree.tokens ↔ t.Yields g aut w := by
  -- By the distance of the states, which is less for the parts.
  induction hd : t.target - t.source using Nat.strongRecOn generalizing t w with
  | ind d ih =>
    have hparts := fun l r =>
      (partClosed_isNeeded g aut).mem_partsOf (l := l) (r := r) (isNeeded_iff.2 ht)
    have hpart : ∀ y, t.HasPart g aut y → ∀ w,
        w ∈ (f.treesFor g aut y).map Tree.tokens ↔ y.Yields g aut w := fun y hy w =>
      ih _ (hd ▸ hy.distance_lt) (ht.part hy) rfl
    rw [yields_iff, h.treesFor_eq ht, List.map_append, List.mem_append, List.map_map]
    refine or_congr ?_ ?_
    · simp [Tree.tokens, eq_comm]
    · simp only [List.mem_map, List.mem_flatMap]
      constructor
      · rintro ⟨_, ⟨⟨l, r⟩, hp, left, hleft, right, hright, rfl⟩, rfl⟩
        have hsplits := (hparts l r).1 hp
        refine ⟨l, r, hsplits, left.tokens, right.tokens, ?_, ?_, rfl⟩
        · exact (hpart l ⟨l, r, hsplits, .inl rfl⟩ _).1 (List.mem_map_of_mem hleft)
        · exact (hpart r ⟨l, r, hsplits, .inr rfl⟩ _).1 (List.mem_map_of_mem hright)
      · rintro ⟨l, r, hsplits, u, v, hu, hv, rfl⟩
        obtain ⟨left, hleft, rfl⟩ :=
          List.mem_map.1 ((hpart l ⟨l, r, hsplits, .inl rfl⟩ u).2 hu)
        obtain ⟨right, hright, rfl⟩ :=
          List.mem_map.1 ((hpart r ⟨l, r, hsplits, .inr rfl⟩ v).2 hv)
        exact ⟨_, ⟨(l, r), (hparts l r).2 hsplits, left, hleft, right, hright, rfl⟩, rfl⟩

/-- The strings of all trees are the accepted sentences. -/
theorem IsFull.mem_tokens_iff (h : f.IsFull g aut) : w ∈ f.trees.map Tree.tokens ↔
    g.IsSentence w ∧ aut.accepts w = true := by
  rw [Automaton.accepts_iff, trees, List.map_flatMap, List.mem_flatMap]
  constructor
  · rintro ⟨x, hx, hw⟩
    obtain ⟨p, hp, q, hq, hneeded, rfl⟩ := (h.mem_roots x).1 hx
    obtain ⟨hderives, hpath⟩ := (h.mem_yields_iff hneeded).1 hw
    exact ⟨hderives, p, hp, q, hq, hpath⟩
  · rintro ⟨hderives, p, hp, q, hq, hpath⟩
    have hneeded : Needed g aut ⟨p, g.start, q⟩ := .start hp hq ⟨w, hderives, hpath⟩
    exact ⟨_, (h.mem_roots _).2 ⟨p, hp, q, hq, hneeded, rfl⟩,
      (h.mem_yields_iff hneeded).2 ⟨hderives, hpath⟩⟩

end Forest

/-- A forest is found unless no sentence is accepted. It counts its trees and lists the accepted
sentences, each once, if it does not have too many trees to count. -/
theorem forest_sentences (g : Grammar) (aut : Automaton) :
    ∃ found, (forest g aut none).value = .ok found ∧
      (found = none ↔ ¬ ∃ w, g.IsSentence w ∧ aut.accepts w = true) ∧
      ∀ f, found = some f → f.trees.length < Saturating.limit →
        f.count = f.trees.length ∧ (f.sentences none).Nodup ∧
          ∀ w, w ∈ f.sentences none ↔ g.IsSentence w ∧ aut.accepts w = true := by
  obtain ⟨found, hforest, hfound⟩ := exists_forest_none g aut
  refine ⟨found, by rw [hforest], ?_, ?_⟩
  · rw [← exists_needed_iff, ← hfound.isSome_iff]
    cases found <;> simp
  · rintro f hf hfits
    rw [Forest.sentences_eq_distinct (Nat.le_of_lt hfits)]
    refine ⟨(Forest.agrees_count f).eq_of_le (Nat.le_of_lt hfits), nodup_distinct _, fun w => ?_⟩
    rw [mem_distinct, (hfound.isFull f hf).mem_tokens_iff]

theorem needed_threeStates : Needed twoTokens threeStates ⟨0, 0, 2⟩ ∧
    Splits twoTokens threeStates ⟨0, 0, 2⟩ ⟨0, 1, 1⟩ ⟨1, 2, 2⟩ := by
  have hleft : twoTokens.Spans threeStates 0 1 1 :=
    Grammar.spans_of_edge (e := ⟨0, 0, 1⟩) (by decide) (by decide)
  have hright : twoTokens.Spans threeStates 1 2 2 :=
    Grammar.spans_of_edge (e := ⟨1, 1, 2⟩) (by decide) (by decide)
  have hpair : ⟨0, .pair 1 2⟩ ∈ twoTokens.productions.toList := by decide
  exact ⟨.start (by decide) (by decide) (Grammar.spans_of_pair hpair hleft hright),
    1, 2, 1, hpair, rfl, rfl, hleft, hright⟩

theorem trees_threeStates (h : f.IsFull twoTokens threeStates) :
    f.trees = [.branch (.leaf 0) (.leaf 1)] := by
  obtain ⟨hstart, hsplits⟩ := needed_threeStates
  have hleft := hstart.part ⟨_, _, hsplits, .inl rfl⟩
  have hright := hstart.part ⟨_, _, hsplits, .inr rfl⟩
  have hpairs : twoTokens.pairs = [(0, 1, 2)] := by decide
  have hmidpoints : threeStates.reach.midpoints 0 2 = [1] := by decide
  have hleaf : f.treesFor twoTokens threeStates ⟨0, 1, 1⟩ = [.leaf 0] := by
    have hleaves : Arena.leavesOf twoTokens threeStates ⟨0, 1, 1⟩ = [0] := by decide +kernel
    rw [h.treesFor_eq hleft, hleaves, partsOf, hpairs]
    rfl
  have hleaf' : f.treesFor twoTokens threeStates ⟨1, 2, 2⟩ = [.leaf 1] := by
    have hleaves : Arena.leavesOf twoTokens threeStates ⟨1, 2, 2⟩ = [1] := by decide +kernel
    rw [h.treesFor_eq hright, hleaves, partsOf, hpairs]
    rfl
  have hroot : f.treesFor twoTokens threeStates ⟨0, 0, 2⟩ = [.branch (.leaf 0) (.leaf 1)] := by
    have hleaves : Arena.leavesOf twoTokens threeStates ⟨0, 0, 2⟩ = [] := by decide +kernel
    rw [h.treesFor_eq hstart, hleaves, partsOf, hpairs]
    simp [partsOver, visit, hmidpoints, halves, hleft, hright, hleaf, hleaf']
  have hroots : f.roots = [(neededOrder twoTokens threeStates).idxOf ⟨0, 0, 2⟩] := by
    refine h.roots_ascending.eq_of_mem_iff (List.pairwise_singleton _ _) fun x => ?_
    rw [h.mem_roots, List.mem_singleton]
    constructor
    · rintro ⟨p, hp, q, hq, -, rfl⟩
      obtain rfl : p = 0 := by simpa [threeStates] using hp
      obtain rfl : q = 2 := by simpa [threeStates] using hq
      rfl
    · rintro rfl
      exact ⟨0, by decide, 2, by decide, hstart, rfl⟩
  rw [Forest.trees, hroots]
  simpa [Forest.treesFor] using hroot

theorem forest_sentences_threeStates :
    ∃ f, (forest twoTokens threeStates none).value = .ok (some f) ∧
      f.trees.length < Saturating.limit ∧ ∀ w, w ∈ f.sentences none ↔ w = [0, 1] := by
  obtain ⟨found, hforest, hnone, hsome⟩ := forest_sentences twoTokens threeStates
  obtain ⟨found', hforest', hfound⟩ := exists_forest_none twoTokens threeStates
  obtain rfl : found = found' := Except.ok.inj (hforest.symm.trans (by rw [hforest']))
  have haccepts : threeStates.accepts [0, 1] = true := by decide
  obtain ⟨f, rfl⟩ : ∃ f, found = some f :=
    Option.ne_none_iff_exists'.1 fun h => hnone.1 h ⟨[0, 1], isSentence_twoTokens_iff.2 rfl, haccepts⟩
  have hfits : f.trees.length < Saturating.limit := by
    rw [trees_threeStates (hfound.isFull f rfl)]
    decide
  refine ⟨f, hforest, hfits, fun w => ?_⟩
  rw [(hsome f rfl hfits).2.2 w, isSentence_twoTokens_iff]
  constructor
  · exact And.left
  · rintro rfl
    exact ⟨rfl, haccepts⟩

end GrammarRepair
