import GrammarRepair.EditDistance.Ball
import GrammarRepair.Proofs.Automaton.Language
import GrammarRepair.Proofs.EditDistance.Alignment

/-!
What an edit-distance ball accepts. A ball has no steps that read nothing, so an alignment that
deletes a token before it replaces or inserts one is not a path of the ball. It becomes one when
the deletion is traded in: delete and replace for replace and delete, delete and insert for replace.
Main statement: the ball accepts what alignments within the radius lead to.
-/

namespace GrammarRepair

namespace Ball

variable {tokens alphabet w : List Nat} {radius i j : Nat}

/-- `Accepts tokens radius alphabet i j w`: the ball accepts `w` from the point `q_i/j` on. -/
inductive Accepts (tokens : List Nat) (radius : Nat) (alphabet : List Nat) :
    Nat → Nat → List Nat → Prop
  | stop {i j : Nat} (hi : i ≤ tokens.length) (hj : tokens.length - i + j ≤ radius) :
      Accepts tokens radius alphabet i j []
  | keep {i j k t : Nat} {w : List Nat} (ht : tokens[i + k]? = some t)
      (h : Accepts tokens radius alphabet (i + k + 1) (j + k) w) :
      Accepts tokens radius alphabet i j (t :: w)
  | replace {i j t : Nat} {w : List Nat} (ht : t ∈ alphabet)
      (h : Accepts tokens radius alphabet (i + 1) (j + 1) w) :
      Accepts tokens radius alphabet i j (t :: w)
  | insert {i j t : Nat} {w : List Nat} (ht : t ∈ alphabet)
      (h : Accepts tokens radius alphabet i (j + 1) w) :
      Accepts tokens radius alphabet i j (t :: w)

namespace Accepts

/-- Points outside the grid accept nothing. -/
theorem bounds (h : Accepts tokens radius alphabet i j w) : i ≤ tokens.length ∧ j ≤ radius := by
  induction h with
  | stop hi hj => omega
  | keep ht h ih => omega
  | replace ht h ih => omega
  | insert ht h ih => omega

theorem spare (h : Accepts tokens radius alphabet i (j + 1) w) :
    Accepts tokens radius alphabet i j w := by
  generalize hj' : j + 1 = j' at h
  induction h generalizing j with
  | stop hi hj => exact .stop hi (by omega)
  | keep ht h ih => exact .keep ht (ih (by omega))
  | replace ht h ih => exact .replace ht (ih (by omega))
  | insert ht h ih => exact .insert ht (ih (by omega))

/-- A deletion first: it joins the kept token that follows, or makes way for a replacement. -/
theorem delete (h : Accepts tokens radius alphabet (i + 1) (j + 1) w) :
    Accepts tokens radius alphabet i j w := by
  generalize hi' : i + 1 = i', hj' : j + 1 = j' at h
  induction h generalizing i j with
  | stop hi hj => exact .stop (by omega) (by omega)
  | @keep i' j' k t w ht h ih =>
    subst hi' hj'
    rw [Nat.add_assoc i, Nat.add_comm 1 k] at ht h
    rw [Nat.add_assoc j, Nat.add_comm 1 k] at h
    exact .keep ht h
  | replace ht h ih => exact .replace ht (ih (by omega) (by omega))
  | insert ht h ih =>
    subst hi' hj'
    exact .replace ht h.spare

theorem exists_alignment (h : Accepts tokens radius alphabet i j w) :
    ∃ n, Alignment (· ∈ alphabet) (tokens.drop i) w n ∧ j + n ≤ radius := by
  induction h with
  | @stop i j hi hj =>
    refine ⟨_, Alignment.delete_all (tokens.drop i), ?_⟩
    rw [List.length_drop]
    omega
  | @keep i j k t w ht h ih =>
    obtain ⟨n, hn, hle⟩ := ih
    obtain ⟨hlt, rfl⟩ := List.getElem?_eq_some_iff.1 ht
    have hdrop : tokens.drop i =
        (tokens.drop i).take k ++ tokens[i + k] :: tokens.drop (i + k + 1) := by
      rw [← List.drop_eq_getElem_cons hlt, ← List.drop_drop, List.take_append_drop]
    have hlength : ((tokens.drop i).take k).length = k := by
      rw [List.length_take, List.length_drop]
      omega
    have halign := (Alignment.delete_all ((tokens.drop i).take k)).append
      (Alignment.keep tokens[i + k] hn)
    rw [← hdrop, hlength] at halign
    exact ⟨k + n, halign, by omega⟩
  | @replace i j t w ht h ih =>
    obtain ⟨n, hn, hle⟩ := ih
    have hlt : i < tokens.length := h.bounds.1
    rw [List.drop_eq_getElem_cons hlt]
    exact ⟨n + 1, .replace _ t ht hn, by omega⟩
  | insert ht h ih =>
    obtain ⟨n, hn, hle⟩ := ih
    exact ⟨n + 1, .insert _ ht hn, by omega⟩

theorem drop_eq_cons {x : Nat} {v : List Nat} (h : tokens.drop i = x :: v) :
    i < tokens.length ∧ tokens[i]? = some x ∧ tokens.drop (i + 1) = v := by
  have hlt : i < tokens.length := by
    refine Nat.lt_of_not_le fun hle => ?_
    rw [List.drop_eq_nil_of_le hle] at h
    cases h
  rw [List.drop_eq_getElem_cons hlt] at h
  obtain ⟨rfl, rfl⟩ := List.cons.inj h
  exact ⟨hlt, List.getElem?_eq_getElem hlt, rfl⟩

theorem of_alignment {v : List Nat} {n : Nat} (h : Alignment (· ∈ alphabet) v w n)
    (hi : i ≤ tokens.length) (hv : tokens.drop i = v) (hn : j + n ≤ radius) :
    Accepts tokens radius alphabet i j w := by
  induction h generalizing i j with
  | nil =>
    have hle := List.drop_eq_nil_iff.1 hv
    exact .stop hi (by omega)
  | keep x h ih =>
    obtain ⟨hlt, hx, hv⟩ := drop_eq_cons hv
    exact .keep (k := 0) hx (ih hlt hv hn)
  | replace x y hy h ih =>
    obtain ⟨hlt, hx, hv⟩ := drop_eq_cons hv
    exact .replace hy (ih hlt hv (by omega))
  | insert y hy h ih => exact .insert hy (ih hi hv (by omega))
  | delete x h ih =>
    obtain ⟨hlt, hx, hv⟩ := drop_eq_cons hv
    exact delete (ih hlt hv (by omega))

theorem iff_exists_alignment (hi : i ≤ tokens.length) :
    Accepts tokens radius alphabet i j w ↔
      ∃ n, Alignment (· ∈ alphabet) (tokens.drop i) w n ∧ j + n ≤ radius := by
  constructor
  · exact exists_alignment
  · rintro ⟨n, h, hn⟩
    exact of_alignment h hi rfl hn

end Accepts

theorem mem_keepSteps {t : Transition} : t ∈ keepSteps tokens radius i j ↔
    ∃ k, tokens[i + k]? = some t.token ∧ k ≤ radius - j ∧ t.source = .grid i j ∧
      t.target = .grid (i + k + 1) (j + k) := by
  simp only [keepSteps, List.mem_map, Prod.exists]
  constructor
  · rintro ⟨x, k, hmem, rfl⟩
    obtain ⟨m, hm⟩ := List.mem_iff_getElem?.1 hmem
    simp only [List.getElem?_take, List.getElem?_zipIdx, List.getElem?_drop,
        Nat.zero_add] at hm
    split at hm
    · next hlt =>
      obtain ⟨y, hy, heq⟩ := Option.map_eq_some_iff.1 hm
      obtain ⟨rfl, rfl⟩ := Prod.mk.inj heq
      exact ⟨m, hy, by omega, rfl, rfl⟩
    · cases hm
  · rintro ⟨k, hk, hle, hs, ht⟩
    refine ⟨t.token, k, ?_, ?_⟩
    · apply List.mem_iff_getElem?.2
      refine ⟨k, ?_⟩
      simp [List.getElem?_zipIdx, hk, Nat.lt_succ_of_le hle]
    · rw [← hs, ← ht]

theorem mem_editSteps {t : Transition} : t ∈ editSteps tokens radius alphabet i j ↔
    j < radius ∧ t.token ∈ alphabet ∧ t.source = .grid i j ∧
      (i < tokens.length ∧ t.target = .grid (i + 1) (j + 1) ∨ t.target = .grid i (j + 1)) := by
  cases t with
  | mk source token target =>
    by_cases hj : j < radius
    · by_cases hi : i < tokens.length
      · simp only [editSteps, if_pos hj, if_pos hi, List.mem_flatMap, List.mem_cons,
          List.not_mem_nil, or_false, Transition.mk.injEq]
        grind
      · simp [editSteps, hj, hi]
    · simp [editSteps, hj]

theorem mem_points : (i, j) ∈ points tokens radius ↔ i ≤ tokens.length ∧ j ≤ radius := by
  simp only [points, List.mem_flatMap, List.mem_map, List.mem_range, Prod.mk.injEq]
  constructor
  · rintro ⟨i, hi, j, hj, rfl, rfl⟩
    exact ⟨by omega, by omega⟩
  · rintro ⟨hi, hj⟩
    exact ⟨i, by omega, j, by omega, rfl, rfl⟩

theorem mem_finals {l : Label} : l ∈ finals tokens radius ↔
    ∃ i j, i ≤ tokens.length ∧ tokens.length - i + j ≤ radius ∧ l = .grid i j := by
  simp only [finals, List.mem_map, List.mem_filter, Prod.exists, mem_points, decide_eq_true_eq]
  constructor
  · rintro ⟨i, j, ⟨⟨hi, -⟩, hle⟩, rfl⟩
    exact ⟨i, j, hi, hle, rfl⟩
  · rintro ⟨i, j, hi, hle, rfl⟩
    exact ⟨i, j, ⟨⟨hi, by omega⟩, hle⟩, rfl⟩

theorem mem_transitions {t : Transition} : t ∈ transitions tokens radius alphabet ↔
    ∃ i j, i ≤ tokens.length ∧ j ≤ radius ∧
      (t ∈ keepSteps tokens radius i j ∨ t ∈ editSteps tokens radius alphabet i j) := by
  simp [transitions, mem_points, and_assoc]

theorem Accepts.of_transition {t : Transition} {i' j' : Nat}
    (ht : t ∈ transitions tokens radius alphabet) (hs : t.source = .grid i j)
    (htarget : t.target = .grid i' j') (h : Accepts tokens radius alphabet i' j' w) :
    Accepts tokens radius alphabet i j (t.token :: w) := by
  obtain ⟨i₀, j₀, -, -, ht⟩ := mem_transitions.1 ht
  rcases ht with ht | ht
  · obtain ⟨k, hk, -, hs', ht'⟩ := mem_keepSteps.1 ht
    obtain ⟨rfl, rfl⟩ := Label.grid.inj (hs.symm.trans hs')
    obtain ⟨rfl, rfl⟩ := Label.grid.inj (htarget.symm.trans ht')
    exact .keep hk h
  · obtain ⟨-, hmem, hs', ht'⟩ := mem_editSteps.1 ht
    obtain ⟨rfl, rfl⟩ := Label.grid.inj (hs.symm.trans hs')
    rcases ht' with ⟨-, ht'⟩ | ht'
    · obtain ⟨rfl, rfl⟩ := Label.grid.inj (htarget.symm.trans ht')
      exact .replace hmem h
    · obtain ⟨rfl, rfl⟩ := Label.grid.inj (htarget.symm.trans ht')
      exact .insert hmem h

theorem accepts_of_path {l m : Label}
    (h : Transition.Path (transitions tokens radius alphabet) l w m)
    (hm : m ∈ finals tokens radius) (hl : l = .grid i j) :
    Accepts tokens radius alphabet i j w := by
  induction h generalizing i j with
  | stop l =>
    obtain ⟨i', j', hi, hj, hm⟩ := mem_finals.1 hm
    obtain ⟨rfl, rfl⟩ := Label.grid.inj (hl.symm.trans hm)
    exact .stop hi hj
  | step ht h ih =>
    obtain ⟨-, -, i', j', -, htarget, -⟩ := exists_grid_of_mem ht
    exact .of_transition ht hl htarget (ih hm htarget)

theorem Accepts.exists_path (h : Accepts tokens radius alphabet i j w) :
    ∃ m ∈ finals tokens radius,
      Transition.Path (transitions tokens radius alphabet) (.grid i j) w m := by
  have hbounds := h.bounds
  induction h with
  | @stop i j hi hj =>
    exact ⟨.grid i j, mem_finals.2 ⟨i, j, hi, hj, rfl⟩, .stop _⟩
  | @keep i j k t w ht h ih =>
    obtain ⟨m, hm, hpath⟩ := ih h.bounds
    have hk := h.bounds.2
    have hmem : ⟨.grid i j, t, .grid (i + k + 1) (j + k)⟩ ∈ transitions tokens radius alphabet :=
      mem_transitions.2 ⟨i, j, hbounds.1, hbounds.2,
        .inl (mem_keepSteps.2 ⟨k, ht, by omega, rfl, rfl⟩)⟩
    exact ⟨m, hm, .step hmem hpath⟩
  | @replace i j t w ht h ih =>
    obtain ⟨m, hm, hpath⟩ := ih h.bounds
    have hmem : ⟨.grid i j, t, .grid (i + 1) (j + 1)⟩ ∈ transitions tokens radius alphabet :=
      mem_transitions.2 ⟨i, j, hbounds.1, hbounds.2,
        .inr (mem_editSteps.2 ⟨h.bounds.2, ht, rfl, .inl ⟨h.bounds.1, rfl⟩⟩)⟩
    exact ⟨m, hm, .step hmem hpath⟩
  | @insert i j t w ht h ih =>
    obtain ⟨m, hm, hpath⟩ := ih h.bounds
    have hmem : ⟨.grid i j, t, .grid i (j + 1)⟩ ∈ transitions tokens radius alphabet :=
      mem_transitions.2 ⟨i, j, hbounds.1, hbounds.2,
        .inr (mem_editSteps.2 ⟨h.bounds.2, ht, rfl, .inr rfl⟩)⟩
    exact ⟨m, hm, .step hmem hpath⟩

end Ball

variable {tokens alphabet w : List Nat} {radius : Nat}

theorem accepts_ball_iff : (ball tokens radius alphabet).value.accepts w = true ↔
    ∃ n ≤ radius, Alignment (· ∈ alphabet) tokens w n := by
  have hpath : (ball tokens radius alphabet).value.accepts w = true ↔
      Ball.Accepts tokens radius (distinct alphabet) 0 0 w := by
    rw [ball, Automaton.accepts_ofGrid_iff]
    constructor
    · rintro ⟨l, hl, m, hm, h⟩
      exact Ball.accepts_of_path h hm (List.mem_singleton.1 hl)
    · intro h
      obtain ⟨m, hm, hpath⟩ := h.exists_path
      exact ⟨.grid 0 0, List.mem_singleton_self _, m, hm, hpath⟩
  rw [hpath, Ball.Accepts.iff_exists_alignment (Nat.zero_le _)]
  simp [and_comm]

/-- Within the alphabet the alignments do not matter, only the distance. -/
theorem accepts_ball_iff_editDistance_le (hw : ∀ t ∈ w, t ∈ alphabet) :
    (ball tokens radius alphabet).value.accepts w = true ↔ editDistance tokens w ≤ radius := by
  rw [accepts_ball_iff, editDistance_le_iff]
  refine exists_congr fun n => and_congr_right fun _ => ?_
  exact ⟨fun h => h.unrestricted, fun h => h.restrict hw⟩

theorem ofTransitions_ball :
    Automaton.ofTransitions (Ball.transitions tokens radius (distinct alphabet)) [.grid 0 0]
      (Ball.finals tokens radius) = .ok (ball tokens radius alphabet) := by
  simp [Automaton.ofTransitions, ball, Ball.followsGrid_transitions]

theorem isGrid_ball : (ball tokens radius alphabet).value.isGrid = true := by
  rw [ball, Automaton.isGrid_ofGrid_iff]
  intro t ht
  obtain ⟨i, j, i', j', hs, htarget, hi, hj, -⟩ := Ball.exists_grid_of_mem ht
  simp [hs, htarget, Label.dominates, hi, hj]

/-- Making a ball never fails and gives a grid. It accepts what the input becomes by at most
`radius` edits that add tokens of the alphabet only, and so, among the strings over the alphabet,
those that are no farther than the radius. -/
theorem ball_is_grid_of_edits (tokens : List Nat) (radius : Nat) (alphabet w : List Nat) :
    Automaton.ofTransitions (Ball.transitions tokens radius (distinct alphabet)) [.grid 0 0]
        (Ball.finals tokens radius) = .ok (ball tokens radius alphabet) ∧
      (ball tokens radius alphabet).value.isGrid = true ∧
      ((ball tokens radius alphabet).value.accepts w = true ↔
        ∃ n ≤ radius, Alignment (· ∈ alphabet) tokens w n) ∧
      ((∀ t ∈ w, t ∈ alphabet) →
        ((ball tokens radius alphabet).value.accepts w = true ↔ editDistance tokens w ≤ radius)) :=
  ⟨ofTransitions_ball, isGrid_ball, accepts_ball_iff, accepts_ball_iff_editDistance_le⟩

/-- A deletion followed by a replacement: no path of the ball spells these edits out. -/
theorem ball_accepts_replaced_after_deleted :
    (∀ t ∈ [2], t ∈ [2, 3]) ∧ (ball [0, 1] 2 [2, 3]).value.accepts [2] = true :=
  ⟨by decide, ((ball_is_grid_of_edits [0, 1] 2 [2, 3] [2]).2.2.2 (by decide)).2 (by decide)⟩

end GrammarRepair
