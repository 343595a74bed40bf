import GrammarRepair.Proofs.Forest.Bound
import GrammarRepair.Proofs.Forest.Sentences
import GrammarRepair.Proofs.Repair.Nearest
import Mathlib.Data.List.Lex
import Mathlib.Data.String.Basic

/-!
The repairs of an input and their ranking. The ball in which the search ends holds a sentence, so
its forest is found, and what the forest lists are sentences of the grammar; their names tell them
apart, so sorting leaves no two of them level. Main statement: with all tokens to choose from, the
repairs are exactly the sentences at the least distance from the input, in ascending order of their
names.
-/

namespace GrammarRepair

open Constituent

namespace Repairs

variable {g : Grammar} {r : Repairs} {a b c : Nat × List String} {v w : List Nat}

theorem before_iff : before a b = true ↔ a.1 < b.1 ∨ a.1 = b.1 ∧ a.2 ≤ b.2 := by
  simp [before]

theorem before_trans (hab : before a b = true) (hbc : before b c = true) : before a c = true := by
  rw [before_iff] at *
  rcases hab with hab | ⟨hab, hnames⟩
  · left
    rcases hbc with hbc | ⟨hbc, -⟩ <;> omega
  · rcases hbc with hbc | ⟨hbc, hnames'⟩
    · exact .inl (by omega)
    · exact .inr ⟨hab.trans hbc, le_trans hnames hnames'⟩

theorem before_total (a b : Nat × List String) : (before a b || before b a) = true := by
  rw [Bool.or_eq_true, before_iff, before_iff]
  rcases Nat.lt_trichotomy a.1 b.1 with hlt | heq | hgt
  · exact .inl (.inl hlt)
  · rcases le_total a.2 b.2 with hle | hle
    · exact .inl (.inr ⟨heq, hle⟩)
    · exact .inr (.inr ⟨heq.symm, hle⟩)
  · exact .inr (.inl hgt)

/-- Of two different ranks the one that comes first is less. -/
theorem lex_of_before (h : before a b = true) (hne : a ≠ b) :
    Prod.Lex (· < ·) (· < ·) a b := by
  rw [Prod.lex_def]
  rcases before_iff.1 h with hlt | ⟨heq, hle⟩
  · exact .inl hlt
  · refine .inr ⟨heq, ?_⟩
    rcases lt_or_eq_of_le hle with hlt | hnames
    · exact hlt
    · exact absurd (Prod.ext heq hnames) hne

/-- What a string is ranked by: how far it is from the input, and its name. -/
def rankOf (r : Repairs) (g : Grammar) (v : List Nat) : Nat × List String :=
  (editDistance r.input v, v.map g.tokenText)

def ordered (r : Repairs) (g : Grammar) : List (List Nat) :=
  (r.forest.sentences none).mergeSort fun v w => before (r.rankOf g v) (r.rankOf g w)

theorem ordered_perm : (r.ordered g).Perm (r.forest.sentences none) := List.mergeSort_perm _ _

theorem ranked_none : r.ranked g none = (r.ordered g).map fun v => v.map g.tokenText := by
  have hsort := List.map_mergeSort (f := r.rankOf g) (r := fun v w =>
    before (r.rankOf g v) (r.rankOf g w)) (s := before) (l := r.forest.sentences none)
    fun v _ w _ => rfl
  have hranked : r.ranked g none = (((r.forest.sentences none).map (r.rankOf g)).mergeSort
    before).map (·.2) := rfl
  rw [hranked, ← hsort, List.map_map]
  rfl

theorem ascending_ordered (h : ∀ v ∈ r.forest.sentences none, ∀ t ∈ v, t < g.tokenCount) :
    (r.ordered g).Pairwise fun v w => Prod.Lex (· < ·) (· < ·) (r.rankOf g v) (r.rankOf g w) := by
  have hsorted : (r.ordered g).Pairwise fun v w => before (r.rankOf g v) (r.rankOf g w) = true := by
    apply List.pairwise_mergeSort
    · intro u v w huv hvw
      exact before_trans huv hvw
    · intro v w
      exact before_total _ _
  have hnodup : (r.ordered g).Nodup :=
    ordered_perm.nodup_iff.2 (Forest.nodup_sentences r.forest none)
  refine (List.pairwise_and_iff.2 ⟨hsorted, hnodup⟩).imp_of_mem fun {v w} hv hw hvw => ?_
  refine lex_of_before hvw.1 fun hrank => hvw.2 ?_
  exact Grammar.map_tokenText_inj (h v (ordered_perm.mem_iff.1 hv))
    (h w (ordered_perm.mem_iff.1 hw)) (congrArg Prod.snd hrank)

/-- Whatever tokens there are to choose from, repairs are sentences within the radius, and their
ranking goes by distance and then by name, with no name twice. -/
structure IsRanked (r : Repairs) (g : Grammar) : Prop where
  isSentence : ∀ v ∈ r.forest.sentences none, g.IsSentence v
  lt_tokenCount : ∀ v ∈ r.forest.sentences none, ∀ t ∈ v, t < g.tokenCount
  distance_le : ∀ v ∈ r.forest.sentences none, editDistance r.input v ≤ r.radius
  exists_order : ∃ vs : List (List Nat), vs.Perm (r.forest.sentences none) ∧
    r.ranked g none = vs.map (fun v => v.map g.tokenText) ∧
    vs.Pairwise fun v w => Prod.Lex (· < ·) (· < ·) (r.rankOf g v) (r.rankOf g w)
  nodup_ranked : (r.ranked g none).Nodup
  ranked_some : ∀ n, r.ranked g (some n) = (r.ranked g none).take n

/-- The repairs are all the sentences at the least distance, in ascending order of their names. -/
structure ListsNearest (r : Repairs) (g : Grammar) : Prop where
  mem_sentences_iff : ∀ v, v ∈ r.forest.sentences none ↔
    g.IsSentence v ∧ editDistance r.input v = r.radius
  mem_ranked_iff : ∀ names, names ∈ r.ranked g none ↔
    ∃ v, g.IsSentence v ∧ editDistance r.input v = r.radius ∧ v.map g.tokenText = names
  ascending : (r.ranked g none).Pairwise (· < ·)

structure InBall (r : Repairs) (s : RepairSettings) (g : Grammar) : Prop where
  nearest : (s.nearest g r.input).value = some r.radius
  isFull : r.forest.IsFull g (s.ballAround g r.input r.radius).value

variable {s : RepairSettings}

theorem InBall.accepts (h : r.InBall s g) (hv : v ∈ r.forest.sentences none) :
    g.IsSentence v ∧ (s.ballAround g r.input r.radius).value.accepts v = true := by
  obtain ⟨tree, htree, rfl⟩ := Forest.exists_tree_of_mem_sentences hv
  exact h.isFull.mem_tokens_iff.1 (List.mem_map_of_mem htree)

theorem InBall.distance_le (h : r.InBall s g) (hv : v ∈ r.forest.sentences none) :
    editDistance r.input v ≤ r.radius := by
  obtain ⟨n, hn, halignment⟩ := accepts_ball_iff.1 (h.accepts hv).2
  exact editDistance_le_iff.2 ⟨n, hn, halignment.unrestricted⟩

theorem InBall.isRanked (h : r.InBall s g) : r.IsRanked g := by
  have hlt : ∀ v ∈ r.forest.sentences none, ∀ t ∈ v, t < g.tokenCount := fun v hv =>
    (h.accepts hv).1.lt_tokenCount
  refine ⟨fun v hv => (h.accepts hv).1, hlt, fun v hv => h.distance_le hv,
    ⟨r.ordered g, ordered_perm, ranked_none, ascending_ordered hlt⟩, ?_, fun n => rfl⟩
  rw [ranked_none]
  refine List.Nodup.map_on (fun v hv w hw hnames => ?_)
    (ordered_perm.nodup_iff.2 (Forest.nodup_sentences r.forest none))
  exact Grammar.map_tokenText_inj (hlt v (ordered_perm.mem_iff.1 hv))
    (hlt w (ordered_perm.mem_iff.1 hw)) hnames

theorem InBall.isLeast (h : r.InBall s g) (halphabet : s.alphabet = none) :
    IsLeast (g.distancesFrom r.input) r.radius :=
  ((RepairSettings.nearest_eq_some_iff halphabet).1 h.nearest).1

theorem InBall.listsNearest (h : r.InBall s g) (halphabet : s.alphabet = none)
    (hfits : r.forest.trees.length ≤ Saturating.limit) : r.ListsNearest g := by
  have hmem : ∀ v, v ∈ r.forest.sentences none ↔
      g.IsSentence v ∧ editDistance r.input v = r.radius := by
    intro v
    rw [Forest.sentences_eq_distinct hfits, mem_distinct, h.isFull.mem_tokens_iff]
    refine and_congr_right fun hv => ?_
    rw [RepairSettings.accepts_ballAround_iff halphabet hv]
    constructor
    · intro hle
      exact Nat.le_antisymm hle ((h.isLeast halphabet).2 ⟨v, hv, rfl⟩)
    · exact Nat.le_of_eq
  refine ⟨hmem, fun names => ?_, ?_⟩
  · rw [ranked_none, List.mem_map]
    refine exists_congr fun v => ?_
    rw [ordered_perm.mem_iff, hmem, and_assoc]
  · rw [ranked_none, List.pairwise_map]
    have hascending := ascending_ordered h.isRanked.lt_tokenCount
    refine hascending.imp_of_mem fun {v w} hv hw hlex => ?_
    -- Both are at the distance of the radius, so their names decide.
    have hvd := ((hmem v).1 (ordered_perm.mem_iff.1 hv)).2
    have hwd := ((hmem w).1 (ordered_perm.mem_iff.1 hw)).2
    rcases Prod.lex_def.1 hlex with hlt | ⟨-, hlt⟩
    · exact absurd (hvd.trans hwd.symm) (Nat.ne_of_lt hlt)
    · exact hlt

end Repairs

namespace RepairSettings

variable {s : RepairSettings} {g : Grammar} {input : List Nat}

theorem value_repairs_of_none (h : (s.nearest g input).value = none) :
    (s.repairs g input).value = .ok none := by
  rw [repairs, Traced.value_bind, h]
  rfl

/-- The ball in which the search ends holds a sentence, so a forest is found in it. -/
theorem exists_repairs_of_some {d : Nat} (h : (s.nearest g input).value = some d) :
    ∃ r : Repairs, (s.repairs g input).value = .ok (some r) ∧ r.input = input ∧ r.radius = d ∧
      r.InBall s g := by
  have htry := (searchFrom_eq_some_iff.1 h).2.2.1
  obtain ⟨found, hforest, hfound⟩ := exists_forest_none g (s.ballAround g input d).value
  obtain ⟨f, rfl⟩ : ∃ f, found = some f := by
    refine Option.isSome_iff_exists.1 (hfound.isSome_iff.2 (exists_needed_iff.2 ?_))
    exact value_tryRadius_iff.1 htry
  have hover : (s.forestOver g (s.ballAround g input d).value).value = .ok (some f) := by
    rw [← show { s with templated := s.templated } = s from rfl, value_forestOver, hforest]
  refine ⟨⟨input, d, f⟩, ?_, rfl, rfl, h, hfound.isFull f rfl⟩
  simp only [repairs, Traced.value_bind, h, hover]
  rfl

end RepairSettings

open RepairSettings in
/-- There are repairs exactly if the search finds a distance, and that is their radius. They are
ranked whatever tokens there are to choose from. With all tokens to choose from they are the
sentences at the least distance, each once, unless there are too many derivations to count. -/
theorem repairs_are_nearest_sentences (s : RepairSettings) (g : Grammar) (w : Width)
    {names foreign : List String} {input : List Nat}
    (hinput : g.tokenIndices w names = .ok (input, foreign)) :
    ∃ t found, s.led g w names = .ok t ∧ (s.repairs g input).value = .ok found ∧
      (∀ d, t.value = .found d ↔ ∃ r, found = some r ∧ r.radius = d) ∧
      ∀ r, found = some r → r.input = input ∧ r.IsRanked g ∧
        (s.alphabet = none → IsLeast (g.distancesFrom input) r.radius ∧
          (r.forest.trees.length ≤ Saturating.limit → r.ListsNearest g)) := by
  obtain ⟨t, ht, hvalue⟩ := led_eq (s := s) hinput
  cases hnearest : (s.nearest g input).value with
  | none =>
    rw [hnearest] at hvalue
    refine ⟨t, none, ht, value_repairs_of_none hnearest, fun d => ?_, fun r hr => ?_⟩
    · simp [hvalue]
    · cases hr
  | some d =>
    rw [hnearest] at hvalue
    obtain ⟨r, hrepairs, rfl, rfl, hball⟩ := exists_repairs_of_some hnearest
    refine ⟨t, some r, ht, hrepairs, fun d => ?_, fun r' hr' => ?_⟩
    · simp [hvalue]
    · obtain rfl := Option.some.inj hr'
      exact ⟨rfl, hball.isRanked, fun halphabet =>
        ⟨hball.isLeast halphabet, hball.listsNearest halphabet⟩⟩

theorem length_trees_le_of_ball {f : Forest}
    (h : f.IsFull twoTokens (ball [0] 1 [0, 1, 0]).value) :
    f.trees.length ≤ Saturating.limit := by
  have halphabet : distinct [0, 1, 0] = [0, 1] := by
    rw [distinct_eq_foldl]
    decide
  have hedges : (ball [0] 1 [0, 1, 0]).value.edges.length ≤ 8 := by
    refine Nat.le_trans (length_sortedDistinct_le _ _) ?_
    rw [List.length_map, halphabet]
    decide
  have hstates : (ball [0] 1 [0, 1, 0]).value.stateCount = 4 := by
    have hsize : (ball [0] 1 [0, 1, 0]).value.stateCount = (Transition.mentioned
        (Ball.transitions [0] 1 [0, 1]) [.grid 0 0] (Ball.finals [0] 1)).length := by
      rw [← halphabet]
      exact (List.mergeSort_perm _ _).length_eq
    rw [hsize, Transition.mentioned, distinct_eq_foldl]
    decide
  have hinitials : (ball [0] 1 [0, 1, 0]).value.initials.length ≤ 1 :=
    length_sortedDistinct_le _ _
  have hfinals : (ball [0] 1 [0, 1, 0]).value.finals.length ≤ 3 := by
    refine Nat.le_trans (length_sortedDistinct_le _ _) ?_
    rw [List.length_map]
    decide
  have hways : Forest.nodeWays twoTokens (ball [0] 1 [0, 1, 0]).value ≤ 13 := by
    have hpairs : twoTokens.pairs.length = 1 := by decide
    rw [Forest.nodeWays, hstates, hpairs]
    omega
  calc f.trees.length ≤ 1 * 3 * 13 ^ (2 * 4) := by
        refine Nat.le_trans h.length_trees_le ?_
        rw [hstates]
        exact Nat.mul_le_mul (Nat.mul_le_mul hinitials hfinals) (Nat.pow_le_pow_left hways _)
    _ ≤ Saturating.limit := by decide

theorem repairs_of_missing_token :
    twoTokens.tokenIndices .w32 ["a"] = .ok ([0], []) ∧
      ∃ r, (RepairSettings.default.repairs twoTokens [0]).value = .ok (some r) ∧ r.radius = 1 ∧
        r.forest.trees.length ≤ Saturating.limit ∧ r.ranked twoTokens none = [["a", "b"]] := by
  have hinput : twoTokens.tokenIndices .w32 ["a"] = .ok ([0], []) := by decide +kernel
  have hleast : IsLeast (twoTokens.distancesFrom [0]) 1 := by
    refine ⟨⟨[0, 1], isSentence_twoTokens_iff.2 rfl, by decide⟩, ?_⟩
    rintro n ⟨v, hv, rfl⟩
    obtain rfl := isSentence_twoTokens_iff.1 hv
    decide
  obtain ⟨r, hrepairs, hr, hradius, hball⟩ := RepairSettings.exists_repairs_of_some
    ((RepairSettings.nearest_eq_some_iff (s := .default) rfl).2 ⟨hleast, by decide⟩)
  obtain ⟨t, found, -, hfound, -, hall⟩ :=
    repairs_are_nearest_sentences .default twoTokens .w32 hinput
  obtain rfl : some r = found := Except.ok.inj (hrepairs.symm.trans hfound)
  have hfits : r.forest.trees.length ≤ Saturating.limit := by
    have hfull := hball.isFull
    rw [hr, hradius] at hfull
    exact length_trees_le_of_ball hfull
  have hlists := ((hall r rfl).2.2 rfl).2 hfits
  refine ⟨hinput, r, hrepairs, hradius, hfits, ?_⟩
  refine hlists.ascending.eq_of_mem_iff (List.pairwise_singleton _ _) fun names => ?_
  rw [hlists.mem_ranked_iff, List.mem_singleton, hr, hradius]
  constructor
  · rintro ⟨v, hv, -, rfl⟩
    obtain rfl := isSentence_twoTokens_iff.1 hv
    decide
  · rintro rfl
    exact ⟨[0, 1], isSentence_twoTokens_iff.2 rfl, by decide, by decide⟩

end GrammarRepair
