import GrammarRepair.Automaton.Reach
import GrammarRepair.Proofs.Automaton.Language

/-!
The sets of states before and behind each state hold what paths lead to. States are numbered along
the edges, so one sweep from the last state finds all that lie behind, and one from the first all
that lie before. Main statement: an automaton tells whether a path with an edge leads from one state
to another, and lists the states that such paths pass.
-/

namespace GrammarRepair

namespace Reach

variable {aut : Automaton} {p q x : Nat}

theorem has_gather {others : List Nat} {sets : Array NatSet} : (gather others sets p).has x = true ↔
    p = x ∨ ∃ s ∈ others, (sets.getD s .empty).has x = true := by
  have hfold : ∀ s : NatSet,
      (others.foldl (fun s p => s.union (sets.getD p .empty)) s).has x = true ↔
        s.has x = true ∨ ∃ p ∈ others, (sets.getD p .empty).has x = true := by
    induction others with
    | nil => simp
    | cons y others ih =>
      intro s
      rw [List.foldl_cons, ih]
      simp [or_assoc]
  rw [gather, hfold]
  simp

theorem getD_setIfInBounds {sets : Array NatSet} {s : NatSet} (hp : p < sets.size) :
    (sets.setIfInBounds p s).getD q .empty = if q = p then s else sets.getD q .empty := by
  by_cases h : q = p
  · subst h
    simp [hp]
  · have hne : p ≠ q := fun e => h e.symm
    simp [h, hne]

theorem getD_of_size_le {sets : Array NatSet} (hp : sets.size ≤ p) :
    sets.getD p .empty = .empty := by
  simp [hp]

theorem has_gather_after {sets : Array NatSet}
    (hsets : ∀ e ∈ aut.edges, e.source = p →
      ((sets.getD e.target .empty).has x = true ↔ ∃ w, aut.Path e.target w x)) :
    (gather ((aut.edgesFrom p).map (·.target)) sets p).has x = true ↔ ∃ w, aut.Path p w x := by
  rw [has_gather]
  constructor
  · rintro (rfl | ⟨t, ht, hx⟩)
    · exact ⟨[], .stop p⟩
    · obtain ⟨e, he, rfl⟩ := List.mem_map.1 ht
      obtain ⟨hmem, hsource⟩ := List.mem_filter.1 he
      obtain rfl : e.source = p := by simpa using hsource
      obtain ⟨w, hw⟩ := (hsets e hmem rfl).1 hx
      exact ⟨_, .step hmem hw⟩
  · rintro ⟨w, hw⟩
    cases hw with
    | stop => exact .inl rfl
    | @step e w q he hw =>
      refine .inr ⟨e.target, List.mem_map.2 ⟨e, ?_, rfl⟩, (hsets e he rfl).2 ⟨w, hw⟩⟩
      exact List.mem_filter.2 ⟨he, by simp⟩

theorem has_gather_before {sets : Array NatSet}
    (hsets : ∀ e ∈ aut.edges, e.target = q →
      ((sets.getD e.source .empty).has x = true ↔ ∃ w, aut.Path x w e.source)) :
    (gather ((aut.edges.filter (·.target == q)).map (·.source)) sets q).has x = true ↔
      ∃ w, aut.Path x w q := by
  rw [has_gather]
  constructor
  · rintro (rfl | ⟨t, ht, hx⟩)
    · exact ⟨[], .stop q⟩
    · obtain ⟨e, he, rfl⟩ := List.mem_map.1 ht
      obtain ⟨hmem, htarget⟩ := List.mem_filter.1 he
      obtain rfl : e.target = q := by simpa using htarget
      obtain ⟨w, hw⟩ := (hsets e hmem rfl).1 hx
      exact ⟨_, hw.append (.step hmem (.stop _))⟩
  · rintro ⟨w, hw⟩
    rcases List.eq_nil_or_concat w with rfl | ⟨v, t, rfl⟩
    · exact .inl (Automaton.path_nil_iff.1 hw).symm
    · rw [List.concat_eq_append, Automaton.path_append_iff] at hw
      obtain ⟨r, hv, hlast⟩ := hw
      obtain ⟨e, he, rfl, -, hstop⟩ := Automaton.path_cons_iff.1 hlast
      obtain rfl := Automaton.path_nil_iff.1 hstop
      refine .inr ⟨e.source, List.mem_map.2 ⟨e, ?_, rfl⟩, (hsets e he rfl).2 ⟨v, hv⟩⟩
      exact List.mem_filter.2 ⟨he, by simp⟩

/-- The sweep from the last state down has dealt with all states from `p` on. -/
theorem foldr_sweepAfter {p k : Nat} (hk : p + k = aut.stateCount) :
    ((List.range' p k).foldr (sweepAfter aut) (Array.replicate aut.stateCount .empty)).size =
        aut.stateCount ∧
      ∀ s, p ≤ s → s < aut.stateCount → ∀ x,
        (((List.range' p k).foldr (sweepAfter aut)
          (Array.replicate aut.stateCount .empty)).getD s .empty).has x = true ↔
            ∃ w, aut.Path s w x := by
  induction k generalizing p with
  | zero =>
    refine ⟨by simp, ?_⟩
    intro s hs hlt
    omega
  | succ k ih =>
    obtain ⟨hsize, hsets⟩ := ih (p := p + 1) (by omega)
    rw [List.range'_succ, List.foldr_cons]
    refine ⟨by rw [sweepAfter, Array.size_setIfInBounds, hsize], ?_⟩
    intro s hs hlt x
    rw [sweepAfter, getD_setIfInBounds (by omega)]
    by_cases hsp : s = p
    · subst hsp
      rw [if_pos rfl]
      apply has_gather_after
      rintro e he rfl
      exact hsets e.target (aut.source_lt_target e he) (aut.target_lt e he) x
    · rw [if_neg hsp]
      exact hsets s (by omega) hlt x

/-- The sweep from the first state up has dealt with all states below `k`. -/
theorem foldl_sweepBefore {k : Nat} (hk : k ≤ aut.stateCount) :
    ((List.range k).foldl (sweepBefore aut) (Array.replicate aut.stateCount .empty)).size =
        aut.stateCount ∧
      ∀ s < k, ∀ x,
        (((List.range k).foldl (sweepBefore aut)
          (Array.replicate aut.stateCount .empty)).getD s .empty).has x = true ↔
            ∃ w, aut.Path x w s := by
  induction k with
  | zero => simp
  | succ k ih =>
    obtain ⟨hsize, hsets⟩ := ih (by omega)
    rw [List.range_succ, List.foldl_append, List.foldl_cons, List.foldl_nil]
    refine ⟨by rw [sweepBefore, Array.size_setIfInBounds, hsize], ?_⟩
    intro s hs x
    rw [sweepBefore, getD_setIfInBounds (by omega)]
    by_cases hsk : s = k
    · subst hsk
      rw [if_pos rfl]
      apply has_gather_before
      rintro e he rfl
      exact hsets e.source (aut.source_lt_target e he) x
    · rw [if_neg hsk]
      exact hsets s (by omega) x

end Reach

namespace Automaton

variable {aut : Automaton} {p q x : Nat}

theorem has_after_iff : (aut.reach.after.getD p .empty).has x = true ↔
    p < aut.stateCount ∧ ∃ w, aut.Path p w x := by
  obtain ⟨hsize, hsets⟩ := Reach.foldr_sweepAfter (Nat.zero_add aut.stateCount)
  have hafter : aut.reach.after = (List.range aut.stateCount).foldr (Reach.sweepAfter aut)
      (Array.replicate aut.stateCount .empty) := rfl
  rw [← List.range_eq_range', ← hafter] at hsize hsets
  by_cases hp : p < aut.stateCount
  · rw [hsets p (Nat.zero_le p) hp x]
    exact (and_iff_right hp).symm
  · rw [Reach.getD_of_size_le (by omega)]
    simp [hp]

theorem has_before_iff : (aut.reach.before.getD q .empty).has x = true ↔
    q < aut.stateCount ∧ ∃ w, aut.Path x w q := by
  obtain ⟨hsize, hsets⟩ := Reach.foldl_sweepBefore (Nat.le_refl aut.stateCount)
  have hbefore : aut.reach.before = (List.range aut.stateCount).foldl (Reach.sweepBefore aut)
      (Array.replicate aut.stateCount .empty) := rfl
  rw [← hbefore] at hsize hsets
  by_cases hq : q < aut.stateCount
  · rw [hsets q hq x]
    exact (and_iff_right hq).symm
  · rw [Reach.getD_of_size_le (by omega)]
    simp [hq]

theorem reaches_iff : aut.reach.reaches p q = true ↔ ∃ w, w ≠ [] ∧ aut.Path p w q := by
  rw [Reach.reaches, Bool.and_eq_true, has_after_iff, bne_iff_ne]
  constructor
  · rintro ⟨hne, -, w, hw⟩
    refine ⟨w, ?_, hw⟩
    rintro rfl
    exact hne (path_nil_iff.1 hw)
  · rintro ⟨w, hne, hw⟩
    have hlt := hw.lt hne
    exact ⟨Nat.ne_of_lt hlt, Nat.lt_trans hlt (hw.target_lt hne), w, hw⟩

theorem lt_of_reaches (h : aut.reach.reaches p q = true) : p < q ∧ q < aut.stateCount := by
  obtain ⟨w, hne, hw⟩ := reaches_iff.1 h
  exact ⟨hw.lt hne, hw.target_lt hne⟩

theorem reaches_trans (h : aut.reach.reaches p x = true) (h' : aut.reach.reaches x q = true) :
    aut.reach.reaches p q = true := by
  obtain ⟨v, hne, hv⟩ := reaches_iff.1 h
  obtain ⟨w, -, hw⟩ := reaches_iff.1 h'
  exact reaches_iff.2 ⟨v ++ w, by simp [hne], hv.append hw⟩

theorem has_between_iff : (aut.reach.between p q).has x = true ↔
    aut.reach.reaches p q = true ∧ ∃ v w, aut.Path p v x ∧ aut.Path x w q := by
  rw [Reach.between]
  split
  · next hreaches =>
    obtain ⟨hlt, hq⟩ := lt_of_reaches hreaches
    rw [NatSet.has_inter, Bool.and_eq_true, has_after_iff, has_before_iff, and_iff_right hreaches,
      and_iff_right (Nat.lt_trans hlt hq), and_iff_right hq]
    constructor
    · rintro ⟨⟨v, hv⟩, w, hw⟩
      exact ⟨v, w, hv, hw⟩
    · rintro ⟨v, w, hv, hw⟩
      exact ⟨⟨v, hv⟩, w, hw⟩
  · next hreaches => simp [hreaches]

theorem mem_midpoints_iff : x ∈ aut.reach.midpoints p q ↔
    aut.reach.reaches p x = true ∧ aut.reach.reaches x q = true := by
  simp only [Reach.midpoints, List.mem_filter, NatSet.mem_below, decide_eq_true_eq, has_between_iff]
  constructor
  · rintro ⟨⟨hxq, -, v, w, hv, hw⟩, hpx⟩
    refine ⟨reaches_iff.2 ⟨v, ?_, hv⟩, reaches_iff.2 ⟨w, ?_, hw⟩⟩
    · rintro rfl
      exact Nat.ne_of_lt hpx (path_nil_iff.1 hv)
    · rintro rfl
      exact Nat.ne_of_lt hxq (path_nil_iff.1 hw)
  · rintro ⟨hpx, hxq⟩
    obtain ⟨v, -, hv⟩ := reaches_iff.1 hpx
    obtain ⟨w, -, hw⟩ := reaches_iff.1 hxq
    exact ⟨⟨(lt_of_reaches hxq).1, reaches_trans hpx hxq, v, w, hv, hw⟩, (lt_of_reaches hpx).1⟩

theorem reaches?_eq (hp : p < aut.stateCount) (hq : q < aut.stateCount) :
    aut.reaches? p q = some (aut.reach.reaches p q) := by
  rw [reaches?]
  by_cases hpq : p = q
  · simp [hpq, Reach.reaches]
  · simp [hpq, hasState, hp, hq]

theorem reaches?_eq_some_true_iff :
    aut.reaches? p q = some true ↔ aut.reach.reaches p q = true := by
  constructor
  · intro h
    rw [reaches?] at h
    split at h
    · cases h
    · split at h
      · exact Option.some.inj h
      · cases h
  · intro h
    obtain ⟨hlt, hq⟩ := lt_of_reaches h
    rw [reaches?_eq (Nat.lt_trans hlt hq) hq, h]

theorem between?_eq (hp : p < aut.stateCount) (hq : q < aut.stateCount) :
    aut.between? p q = some ((aut.reach.between p q).below aut.stateCount) := by
  simp [between?, hasState, hp, hq]

theorem midpoints?_eq (hp : p < aut.stateCount) (hq : q < aut.stateCount) :
    aut.midpoints? p q = some (aut.reach.midpoints p q) := by
  simp [midpoints?, hasState, hp, hq]

theorem mem_below_between_iff (hq : q < aut.stateCount) :
    x ∈ (aut.reach.between p q).below aut.stateCount ↔
      aut.reach.reaches p q = true ∧ ∃ v w, aut.Path p v x ∧ aut.Path x w q := by
  rw [NatSet.mem_below, has_between_iff, and_iff_right_of_imp]
  rintro ⟨-, v, w, hv, hw⟩
  have hle := hw.add_length_le
  omega

theorem ascending_below (s : NatSet) (n : Nat) : (s.below n).Pairwise (· < ·) :=
  List.pairwise_lt_range.filter _

theorem ascending_midpoints (r : Reach) (p q : Nat) : (r.midpoints p q).Pairwise (· < ·) :=
  (ascending_below _ _).filter _

end Automaton

/-- Asked about states of its own, an automaton tells whether a path with an edge leads from the one
to the other, lists the states that such paths pass, none if there is no path, and lists those of
them that can be reached from the first and from which the second can be reached. -/
theorem reach_follows_paths (aut : Automaton) {p q : Nat} (hp : p < aut.stateCount)
    (hq : q < aut.stateCount) :
    (∃ found, aut.reaches? p q = some found ∧
        (found = true ↔ ∃ w, w ≠ [] ∧ aut.Path p w q)) ∧
      (∃ rs, aut.between? p q = some rs ∧ rs.Pairwise (· < ·) ∧
        (∀ r, r ∈ rs ↔
          aut.reaches? p q = some true ∧ ∃ v w, aut.Path p v r ∧ aut.Path r w q) ∧
        (p = q ∨ (¬ ∃ w, aut.Path p w q) → rs = [])) ∧
      ∃ ms, aut.midpoints? p q = some ms ∧ ms.Pairwise (· < ·) ∧
        ∀ r, r ∈ ms ↔ aut.reaches? p r = some true ∧ aut.reaches? r q = some true := by
  refine ⟨⟨_, Automaton.reaches?_eq hp hq, Automaton.reaches_iff⟩,
    ⟨_, Automaton.between?_eq hp hq, Automaton.ascending_below _ _, fun r => ?_, fun hnone => ?_⟩,
    _, Automaton.midpoints?_eq hp hq, Automaton.ascending_midpoints _ _ _, fun r => ?_⟩
  · rw [Automaton.mem_below_between_iff hq, Automaton.reaches?_eq_some_true_iff]
  · refine List.eq_nil_iff_forall_not_mem.2 fun r hr => ?_
    obtain ⟨w, hne, hw⟩ := Automaton.reaches_iff.1 ((Automaton.mem_below_between_iff hq).1 hr).1
    rcases hnone with rfl | hnone
    · exact Nat.lt_irrefl p (hw.lt hne)
    · exact hnone ⟨w, hw⟩
  · rw [Automaton.mem_midpoints_iff, Automaton.reaches?_eq_some_true_iff,
      Automaton.reaches?_eq_some_true_iff]

/-- Two ways from state 0 to state 4, and a state that lies on neither of them. -/
def diamond : Automaton where
  labels := #[.plain 3, .plain 4, .plain 1, .plain 2, .plain 0]
  edges := [⟨0, 0, 2⟩, ⟨0, 1, 3⟩, ⟨2, 0, 4⟩, ⟨3, 1, 4⟩]
  initials := [0]
  finals := [1, 4]
  nodup_labels := by decide
  source_lt_target := by decide
  target_lt := by decide
  initial_lt := by decide
  final_lt := by decide

theorem reach_follows_paths_diamond :
    (0 < diamond.stateCount ∧ 4 < diamond.stateCount) ∧ (∃ w, w ≠ [] ∧ diamond.Path 0 w 4) ∧
      ∃ ms, diamond.midpoints? 0 4 = some ms ∧ 2 ∈ ms ∧ 3 ∈ ms ∧ 1 ∉ ms := by
  obtain ⟨⟨found, hfound, hpath⟩, -, ms, hms, -, hmem⟩ :=
    reach_follows_paths diamond (p := 0) (q := 4) (by decide) (by decide)
  have hreaches : diamond.reaches? 0 4 = some true := by decide
  refine ⟨by decide, hpath.1 (Option.some.inj (hfound.symm.trans hreaches)), ms, hms, ?_, ?_, ?_⟩
  · exact (hmem 2).2 (by decide)
  · exact (hmem 3).2 (by decide)
  · exact fun h => absurd ((hmem 1).1 h) (by decide)

end GrammarRepair
