import GrammarRepair.Forest.Sampling
import GrammarRepair.Proofs.Forest.Decoding
import Mathlib.Data.List.Perm.Basic

/-!
Drawing the derivations of a forest in random order. The places that a shuffle has stored stand for a
row of numbers, and taking a number out leaves a row of all the others, so at any time what was drawn
and what is left make up all numbers. Main statement: whatever the generator draws, a run draws every
derivation once and then ends, and its strings are those that the forest lists, each once.
-/

namespace GrammarRepair

namespace Shuffle

variable {s : Shuffle} {i j : Nat}

theorem toList_start (n : Nat) : (start n).toList = List.range n := by
  refine (List.map_congr_left fun i _ => ?_).trans (List.map_id _)
  simp [start, entry]

theorem toList_of_remaining_eq_zero (h : s.remaining = 0) : s.toList = [] := by
  rw [toList, h]
  rfl

theorem entry_take (hj : j < s.remaining - 1) :
    (s.take i).2.entry j = if i = j then s.entry (s.remaining - 1) else s.entry j := by
  have hrest : (s.moved.erase (s.remaining - 1)).getD j j = s.entry j := by
    have hne : (s.remaining - 1 == j) = false := by simpa using (Nat.ne_of_lt hj).symm
    rw [Std.HashMap.getD_erase, hne]
    rfl
  simp only [take, entry]
  by_cases hi : i = s.remaining - 1
  · have hij : i ≠ j := by omega
    rw [if_pos hi, if_neg hij, hrest, entry]
  · rw [if_neg hi, Std.HashMap.getD_insert, hrest]
    simp [entry]

/-- The last number moves to the place of the one that is taken out. -/
theorem toList_take (s : Shuffle) (i : Nat) : (s.take i).2.toList =
    ((List.range (s.remaining - 1)).map s.entry).set i (s.entry (s.remaining - 1)) := by
  refine List.ext_getElem (by simp [toList]) fun j hj _ => ?_
  have hlt : j < s.remaining - 1 := by simpa [toList] using hj
  rw [List.getElem_set]
  simp [toList, entry_take hlt]

/-- The number taken out and those that are left are all that were there. -/
theorem perm_take (hi : i < s.remaining) : (s.entry i :: (s.take i).2.toList).Perm s.toList := by
  obtain ⟨last, hlast⟩ : ∃ last, s.remaining = last + 1 := ⟨s.remaining - 1, by omega⟩
  have htaken : ((List.range last).map s.entry)[i]?.getD (s.entry last) = s.entry i := by
    by_cases h : i < last
    · simp [h]
    · obtain rfl : i = last := by omega
      simp
  have hswap := List.getD_set_perm_cons ((List.range last).map s.entry) i (s.entry last)
  rw [htaken] at hswap
  rw [toList_take, hlast, Nat.add_sub_cancel, toList, hlast, List.range_succ, List.map_append,
    List.map_singleton]
  exact hswap.trans (List.perm_append_singleton _ _).symm

end Shuffle

namespace Forest

variable {σ : Type} {f : Forest} {s : Sampler σ} {k : Nat}

theorem isSome_derivation?_of_lt_count (hk : k < f.count) : (f.derivation? k).isSome = true := by
  rw [count_eq_min] at hk
  exact isSome_derivation?_iff.2 (Nat.lt_of_lt_of_le hk (Nat.min_le_left _ _))

/-- A forest lists the strings of all derivations that it counts, each where it first appears. -/
theorem sentences_eq_distinct_filterMap (f : Forest) :
    f.sentences none = distinct ((List.range f.count).filterMap f.derivation?) := by
  obtain ⟨ws, hws⟩ : ∃ ws : List (List Nat), (List.range f.count).map f.derivation? = ws.map some := by
    refine ⟨(List.range f.count).map fun k => (f.derivation? k).getD [], ?_⟩
    rw [List.map_map]
    refine List.map_congr_left fun k hk => ?_
    have hsome := isSome_derivation?_of_lt_count (List.mem_range.1 hk)
    obtain ⟨w, hw⟩ := Option.isSome_iff_exists.1 hsome
    simp [hw]
  have hlength : ws.length = f.count := by simpa using (congrArg List.length hws).symm
  have hstrings : (List.range f.count).filterMap f.derivation? = ws := by
    have h := congrArg (List.filterMap id) hws
    simpa [List.filterMap_map] using h
  rw [hstrings, sentences, ← hlength, gather_eq_foldl rfl fun i hi => ?_, toList_foldl_add_start]
  have hi' : i < f.count := by omega
  have h := congrArg (·[i]?) hws
  simp only [List.getElem?_map, List.getElem?_range hi', Option.map_some,
    List.getElem?_eq_getElem hi, Option.some.injEq] at h
  rw [Nat.zero_add, h, List.getElem?_eq_getElem hi]

namespace Sampler

/-- What was drawn and what is left are all numbers below the count, and the strings of what was drawn
have been taken in. -/
structure Tracks (f : Forest) (s : Sampler σ) : Prop where
  perm : (s.drawn ++ s.left.toList).Perm (List.range f.count)
  harvest_eq : s.harvest = (s.drawn.reverse.filterMap f.derivation?).foldl .add (.start none)

theorem tracks_start (f : Forest) (state : σ) : (start f state none).Tracks f where
  perm := by simp [start, Shuffle.toList_start]
  harvest_eq := rfl

theorem Tracks.isFull_eq_false (h : s.Tracks f) : s.harvest.isFull = false := by
  rw [h.harvest_eq, Harvest.isFull, Harvest.room_foldl_add _ rfl]
  rfl

/-- The next number belongs to a derivation, and once its string is taken in nothing is amiss. -/
theorem Tracks.draw (h : s.Tracks f) (gen : Generator σ) (hleft : s.left.remaining ≠ 0) :
    ∃ w, f.derivation? (s.draw gen).1 = some w ∧
      Tracks f { (s.draw gen).2 with harvest := (s.draw gen).2.harvest.add w } := by
  have hi := gen.draw_lt s.left.remaining s.state (Nat.pos_of_ne_zero hleft)
  have htake := Shuffle.perm_take hi
  have hperm : ((s.draw gen).1 :: s.drawn ++ (s.draw gen).2.left.toList).Perm
      (List.range f.count) :=
    List.perm_middle.symm.trans ((htake.append_left s.drawn).trans h.perm)
  have hk : (s.draw gen).1 < f.count := List.mem_range.1 (hperm.subset (by simp))
  obtain ⟨w, hw⟩ := Option.isSome_iff_exists.1 (isSome_derivation?_of_lt_count hk)
  refine ⟨w, hw, hperm, ?_⟩
  have hdrawn : (s.draw gen).2.drawn = (s.draw gen).1 :: s.drawn := rfl
  have hharvest : (s.draw gen).2.harvest = s.harvest := rfl
  simp [hdrawn, hharvest, h.harvest_eq, hw]

theorem Tracks.run (h : s.Tracks f) (gen : Generator σ) :
    (s.run f gen).Tracks f ∧ (s.run f gen).left.remaining = 0 := by
  induction hn : s.left.remaining generalizing s with
  | zero =>
    rw [Sampler.run, if_pos hn]
    exact ⟨h, hn⟩
  | succ n ih =>
    have hleft : s.left.remaining ≠ 0 := by omega
    obtain ⟨w, hw, hnext⟩ := h.draw gen hleft
    rw [Sampler.run, if_neg hleft, h.isFull_eq_false]
    simp only [Bool.false_eq_true, if_false, hw]
    refine ih hnext ?_
    rw [remaining_draw, hn, Nat.add_sub_cancel]

theorem Tracks.perm_drawn (h : s.Tracks f) (hleft : s.left.remaining = 0) :
    s.drawn.reverse.Perm (List.range f.count) := by
  have hperm := h.perm
  rw [Shuffle.toList_of_remaining_eq_zero hleft, List.append_nil] at hperm
  exact (List.reverse_perm _).trans hperm

end Sampler

end Forest

/-- Whatever the generator draws, a run with room for all ends when it has drawn as many numbers as
derivations are counted, every number below the count once. The strings are those that the forest
lists, each once. -/
theorem sampler_draws_each_once {σ : Type} (f : Forest) (gen : Generator σ) (state : σ) :
    ∃ s, (Forest.Sampler.start f state none).run f gen = s ∧ s.left.remaining = 0 ∧
      s.drawn.length = f.count ∧ s.drawn.reverse.Perm (List.range f.count) ∧
      f.shuffled gen state none = s.harvest.toList ∧ (f.shuffled gen state none).Nodup ∧
      ∀ w, w ∈ f.shuffled gen state none ↔ w ∈ f.sentences none := by
  obtain ⟨htracks, hleft⟩ := (Forest.Sampler.tracks_start f state).run gen
  have hperm := htracks.perm_drawn hleft
  have hshuffled : f.shuffled gen state none = distinct
      (((Forest.Sampler.start f state none).run f gen).drawn.reverse.filterMap f.derivation?) := by
    rw [Forest.shuffled, htracks.harvest_eq, Forest.toList_foldl_add_start]
  refine ⟨_, rfl, hleft, ?_, hperm, rfl, ?_, fun w => ?_⟩
  · rw [← List.length_reverse, hperm.length_eq, List.length_range]
  · rw [hshuffled]
    exact nodup_distinct _
  · rw [hshuffled, Forest.sentences_eq_distinct_filterMap, mem_distinct, mem_distinct]
    exact (hperm.filterMap _).mem_iff

end GrammarRepair
