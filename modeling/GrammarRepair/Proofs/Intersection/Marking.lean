import GrammarRepair.Intersection.Language
import GrammarRepair.Proofs.Exploration
import Mathlib.Data.Finset.Card

/-!
Which nonterminals the marking finds. A production waits for as many parts as have not been heard
of, so when nothing is left to be told, every production that waits for nothing has both its parts
marked, and its head as well. Main statements: the marked nonterminals are those that derive a
string, and the useful ones those that a start leads to through productions that can be completed.
-/

namespace GrammarRepair

namespace Marking

def Pair.times (p : Pair) (x : Nat) : Nat :=
  (if p.2.1 = x then 1 else 0) + if p.2.2 = x then 1 else 0

variable {count : Nat} {pairs : Array Pair} {terminals : Array (Nat × Nat)} {x y z i : Nat}

def enterParts (occurs : Array (List Nat)) (p : Pair × Nat) : Array (List Nat) :=
  (occurs.modify p.1.2.1 (p.2 :: ·)).modify p.1.2.2 (p.2 :: ·)

theorem occurrences_eq (count : Nat) (pairs : Array Pair) : occurrences count pairs =
    pairs.toList.zipIdx.foldl enterParts (Array.replicate count []) := rfl

theorem size_enterParts (occurs : Array (List Nat)) (p : Pair × Nat) :
    (enterParts occurs p).size = occurs.size := by
  simp [enterParts]

theorem count_modify_cons {t : Array (List Nat)} (hx : x < t.size) (y j : Nat) :
    ((t.modify y (j :: ·)).getD x []).count i =
      (t.getD x []).count i + if y = x ∧ j = i then 1 else 0 := by
  by_cases hyx : y = x
  · subst hyx
    simp [hx, Array.getElem_modify, List.count_cons]
  · simp [hx, Array.getElem_modify, hyx]

theorem count_enterParts {occurs : Array (List Nat)} (hx : x < occurs.size) (p : Pair) (j : Nat) :
    ((enterParts occurs (p, j)).getD x []).count i =
      (occurs.getD x []).count i + if j = i then p.times x else 0 := by
  rw [enterParts, count_modify_cons (by simpa using hx), count_modify_cons hx]
  by_cases hj : j = i
  · simp [hj, Pair.times, Nat.add_assoc]
  · simp [hj]

theorem times_concat (ps : List Pair) (p : Pair) (x i : Nat) :
    ((ps ++ [p])[i]?.map (·.times x)).getD 0 =
      (ps[i]?.map (·.times x)).getD 0 + if ps.length = i then p.times x else 0 := by
  rcases Nat.lt_trichotomy i ps.length with hlt | rfl | hgt
  · have hne : ps.length ≠ i := by omega
    rw [List.getElem?_append_left hlt]
    simp [hne]
  · simp
  · have hne : ps.length ≠ i := by omega
    have hlength : (ps ++ [p]).length ≤ i := by
      rw [List.length_append, List.length_singleton]
      omega
    rw [List.getElem?_eq_none hlength, List.getElem?_eq_none (by omega)]
    simp [hne]

theorem count_foldl_enterParts (hx : x < count) (ps : List Pair) :
    (ps.zipIdx.foldl enterParts (Array.replicate count [])).size = count ∧
      ((ps.zipIdx.foldl enterParts (Array.replicate count [])).getD x []).count i =
        (ps[i]?.map (·.times x)).getD 0 := by
  induction ps using List.reverseRecOn with
  | nil => simp [hx]
  | append_singleton ps p ih =>
    obtain ⟨hsize, hcount⟩ := ih
    rw [List.zipIdx_append, List.foldl_append]
    simp only [List.zipIdx_cons, List.zipIdx_nil, List.foldl_cons, List.foldl_nil, Nat.zero_add]
    refine ⟨by rw [size_enterParts, hsize], ?_⟩
    rw [count_enterParts (by rwa [hsize]), hcount, times_concat]

/-- The table has every production under each of its parts, once for each time. -/
def Tells (count : Nat) (pairs : Array Pair) (occurs : Array (List Nat)) : Prop :=
  ∀ x i, x < count → (occurs.getD x []).count i = (pairs[i]?.map (·.times x)).getD 0

theorem tells_occurrences (count : Nat) (pairs : Array Pair) :
    Tells count pairs (occurrences count pairs) := by
  intro x i hx
  rw [occurrences_eq, (count_foldl_enterParts hx pairs.toList).2, Array.getElem?_toList]

theorem Tells.lt_size {occurs : Array (List Nat)} (ht : Tells count pairs occurs) (hx : x < count)
    (hi : i ∈ occurs.getD x []) : i < pairs.size := by
  by_contra hge
  have hcount := List.count_pos_iff.2 hi
  rw [ht x i hx, Array.getElem?_eq_none (Nat.le_of_not_lt hge)] at hcount
  simp at hcount

theorem mem_bodies (hx : x < count) :
    (y, z) ∈ (bodies count pairs).getD x [] ↔ (x, y, z) ∈ pairs := by
  have hfold : ∀ (ps : List Pair) (t : Array (List (Nat × Nat))), t.size = count →
      ((y, z) ∈ (ps.foldl (fun bodies p => bodies.modify p.1 (p.2 :: ·)) t).getD x [] ↔
        (y, z) ∈ t.getD x [] ∨ (x, y, z) ∈ ps) := by
    intro ps
    induction ps with
    | nil => simp
    | cons p ps ih =>
      intro t ht
      obtain ⟨head, body⟩ := p
      rw [List.foldl_cons, ih _ (by simpa using ht), List.mem_cons, ← or_assoc]
      refine or_congr_left ?_
      by_cases h : head = x
      · subst h
        simp [ht, hx, Array.getElem_modify, or_comm, eq_comm]
      · have hne : ¬ x = head := fun e => h e.symm
        simp [ht, hx, Array.getElem_modify, h, hne]
  rw [bodies, hfold _ _ (by simp), Array.mem_toList_iff]
  simp [hx]

theorem getD_marks (xs : List Nat) :
    (marks count xs).getD x false = true ↔ x < count ∧ x ∈ xs := by
  have hfold : ∀ (xs : List Nat) (m : Array Bool), m.size = count →
      ((xs.foldl (fun m x => m.setIfInBounds x true) m).getD x false = true ↔
        m.getD x false = true ∨ x < count ∧ x ∈ xs) := by
    intro xs
    induction xs with
    | nil => simp
    | cons y xs ih =>
      intro m hm
      rw [List.foldl_cons, ih _ (by simpa using hm), List.mem_cons, and_or_left, ← or_assoc]
      refine or_congr_left ?_
      by_cases h : x = y
      · subst h
        by_cases hx : x < count
        · simp [hm, hx]
        · simp [hm, hx]
      · have hne : ¬ y = x := fun e => h e.symm
        simp [h, hne]
  rw [marks, hfold _ _ (by simp)]
  by_cases hx : x < count
  · simp [hx]
  · simp [hx]

/-- Have the productions of a nonterminal been told that it derives a string? -/
def State.heard (s : State) (x : Nat) : Bool := s.able.getD x false && !s.todo.contains x

/-- How many parts of a production have not been heard of. -/
def State.missing (s : State) (p : Pair) : Nat :=
  (if s.heard p.2.1 then 0 else 1) + if s.heard p.2.2 then 0 else 1

/-- Every production waits for the parts that have not been heard of, and for those that are about
to be told: `rest` lists the productions that wait for them, once for each part. -/
structure Counts (count : Nat) (pairs : Array Pair) (terminals : Array (Nat × Nat)) (s : State)
    (rest : List Nat) : Prop where
  size_waiting : s.waiting.size = pairs.size
  size_able : s.able.size = count
  nodup_todo : s.todo.Nodup
  able_of_mem_todo : ∀ x ∈ s.todo, s.able.getD x false = true
  waiting_eq : ∀ i p, pairs[i]? = some p → s.waiting.getD i 0 = s.missing p + rest.count i
  able_head : ∀ i p, pairs[i]? = some p → s.waiting.getD i 0 = 0 → s.able.getD p.1 false = true
  sound : ∀ x, s.able.getD x false = true → ∃ w, Derives pairs terminals x w

variable {s : State} {rest : List Nat}

theorem note_of_able (hx : s.able.getD x false = true) : s.note x = s := by
  have hlt : x < s.able.size := by
    by_contra hge
    simp [Array.getD, hge] at hx
  have htrue : s.able.getD x true = true := by simpa [hlt] using hx
  exact if_pos htrue

theorem note_of_not_able (hlt : x < s.able.size) (hx : ¬ s.able.getD x false = true) :
    s.note x = { s with able := s.able.setIfInBounds x true, todo := x :: s.todo } := by
  have hfalse : ¬ s.able.getD x true = true := by simpa [hlt] using hx
  exact if_neg hfalse

@[simp] theorem waiting_note (s : State) (x : Nat) : (s.note x).waiting = s.waiting := by
  unfold State.note
  split <;> rfl

theorem able_note_iff (hlt : x < s.able.size) :
    (s.note x).able.getD y false = true ↔ s.able.getD y false = true ∨ y = x := by
  by_cases hx : s.able.getD x false = true
  · rw [note_of_able hx]
    constructor
    · exact Or.inl
    · rintro (hy | rfl)
      · exact hy
      · exact hx
  · rw [note_of_not_able hlt hx]
    by_cases hy : y = x
    · subst hy
      simp [hlt]
    · have hne : ¬ x = y := fun e => hy e.symm
      simp [hy, hne]

/-- Whoever is noted has yet to be heard of. -/
theorem heard_note (hlt : x < s.able.size) (y : Nat) : (s.note x).heard y = s.heard y := by
  by_cases hx : s.able.getD x false = true
  · rw [note_of_able hx]
  · rw [note_of_not_able hlt hx]
    by_cases hy : y = x
    · subst hy
      have hfalse := (Bool.not_eq_true _).mp hx
      rw [State.heard, State.heard, hfalse]
      simp
    · have hne : ¬ x = y := fun e => hy e.symm
      simp [State.heard, hy, hne]

theorem missing_note (hlt : x < s.able.size) (p : Pair) : (s.note x).missing p = s.missing p := by
  rw [State.missing, heard_note hlt, heard_note hlt]
  rfl

theorem Counts.note (h : Counts count pairs terminals s rest) (hx : x < count)
    (hsound : ∃ w, Derives pairs terminals x w) :
    Counts count pairs terminals (s.note x) rest := by
  have hlt : x < s.able.size := by rwa [h.size_able]
  by_cases hable : s.able.getD x false = true
  · rwa [note_of_able hable]
  · have hnote := note_of_not_able hlt hable
    refine ⟨by rw [waiting_note, h.size_waiting], ?_, ?_, ?_, ?_, ?_, ?_⟩
    · rw [hnote, Array.size_setIfInBounds, h.size_able]
    · rw [hnote]
      exact List.nodup_cons.2 ⟨fun hmem => hable (h.able_of_mem_todo x hmem), h.nodup_todo⟩
    · intro y hy
      rw [hnote, List.mem_cons] at hy
      rw [able_note_iff hlt]
      rcases hy with rfl | hy
      · exact .inr rfl
      · exact .inl (h.able_of_mem_todo y hy)
    · intro i p hp
      rw [waiting_note, missing_note hlt]
      exact h.waiting_eq i p hp
    · intro i p hp hzero
      rw [waiting_note] at hzero
      exact (able_note_iff hlt).2 (.inl (h.able_head i p hp hzero))
    · intro y hy
      rcases (able_note_iff hlt).1 hy with hy | rfl
      · exact h.sound y hy
      · exact hsound

theorem able_of_heard (h : s.heard x = true) : s.able.getD x false = true := by
  rw [State.heard, Bool.and_eq_true] at h
  exact h.1

theorem heard_of_able (htodo : s.todo = []) (h : s.able.getD x false = true) :
    s.heard x = true := by
  rw [State.heard, h, htodo]
  rfl

theorem missing_eq_zero_iff {p : Pair} :
    s.missing p = 0 ↔ s.heard p.2.1 = true ∧ s.heard p.2.2 = true := by
  unfold State.missing
  cases s.heard p.2.1 <;> cases s.heard p.2.2 <;> simp

def InRange (count : Nat) (pairs : Array Pair) : Prop :=
  ∀ p ∈ pairs, p.1 < count ∧ p.2.1 < count ∧ p.2.2 < count

theorem InRange.of_getElem? {p : Pair} (h : InRange count pairs) (hp : pairs[i]? = some p) :
    p.1 < count ∧ p.2.1 < count ∧ p.2.2 < count :=
  h p (Array.mem_of_getElem? hp)

theorem Counts.setWaiting {p : Pair} (h : Counts count pairs terminals s (i :: rest))
    (hp : pairs[i]? = some p) (hleft : s.waiting.getD i 0 - 1 ≠ 0 ∨ s.able.getD p.1 false = true) :
    Counts count pairs terminals
      { s with waiting := s.waiting.setIfInBounds i (s.waiting.getD i 0 - 1) } rest := by
  have hlt : i < s.waiting.size := by
    rw [h.size_waiting]
    exact (Array.getElem?_eq_some_iff.1 hp).1
  refine ⟨by simpa using h.size_waiting, h.size_able, h.nodup_todo, h.able_of_mem_todo, ?_, ?_,
    h.sound⟩
  · intro j p' hp'
    have hwaiting := h.waiting_eq j p' hp'
    change _ = s.missing p' + _
    by_cases hj : j = i
    · subst hj
      rw [List.count_cons_self] at hwaiting
      simp [hlt] at hwaiting ⊢
      omega
    · have hne : ¬ i = j := fun e => hj e.symm
      rw [List.count_cons_of_ne hne] at hwaiting
      simpa [hne] using hwaiting
  · intro j p' hp' hzero
    by_cases hj : j = i
    · subst hj
      obtain rfl : p = p' := Option.some.inj (hp.symm.trans hp')
      refine hleft.resolve_left (not_not.2 ?_)
      simpa [hlt] using hzero
    · have hne : ¬ i = j := fun e => hj e.symm
      exact h.able_head j p' hp' (by simpa [hne] using hzero)

theorem note_setWaiting (s : State) (waiting : Array Nat) (x : Nat) :
    State.note { s with waiting } x = { s.note x with waiting } := by
  unfold State.note
  split <;> rfl

theorem countDown_eq {p : Pair} (hp : pairs[i]? = some p) : s.countDown pairs i =
    if s.waiting.getD i 0 - 1 = 0 then
      { s.note p.1 with waiting := s.waiting.setIfInBounds i (s.waiting.getD i 0 - 1) }
    else { s with waiting := s.waiting.setIfInBounds i (s.waiting.getD i 0 - 1) } := by
  simp only [State.countDown, hp, note_setWaiting]

theorem Counts.countDown (hpairs : InRange count pairs)
    (h : Counts count pairs terminals s (i :: rest)) (hi : i < pairs.size) :
    Counts count pairs terminals (s.countDown pairs i) rest := by
  have hp : pairs[i]? = some pairs[i] := Array.getElem?_eq_getElem hi
  rw [countDown_eq hp]
  by_cases hleft : s.waiting.getD i 0 - 1 = 0
  · rw [if_pos hleft]
    have hmissing : s.missing pairs[i] = 0 := by
      have hwaiting := h.waiting_eq i _ hp
      rw [List.count_cons_self] at hwaiting
      omega
    obtain ⟨hy, hz⟩ := missing_eq_zero_iff.1 hmissing
    obtain ⟨v, hv⟩ := h.sound _ (able_of_heard hy)
    obtain ⟨w, hw⟩ := h.sound _ (able_of_heard hz)
    have hhead := (hpairs.of_getElem? hp).1
    have hnote := h.note hhead ⟨v ++ w, .pair (Array.mem_of_getElem? hp) hv hw⟩
    have hable : (s.note pairs[i].1).able.getD pairs[i].1 false = true :=
      (able_note_iff (by rwa [h.size_able])).2 (.inr rfl)
    simpa using hnote.setWaiting hp (.inr hable)
  · rw [if_neg hleft]
    exact h.setWaiting hp (.inl hleft)

theorem heard_countDown (hpairs : InRange count pairs) (hsize : s.able.size = count)
    (hi : i < pairs.size) (y : Nat) : (s.countDown pairs i).heard y = s.heard y := by
  have hp : pairs[i]? = some pairs[i] := Array.getElem?_eq_getElem hi
  rw [countDown_eq hp]
  split
  · have hhead := (hpairs.of_getElem? hp).1
    exact heard_note (by rwa [hsize]) y
  · rfl

theorem able_countDown (hpairs : InRange count pairs) (hsize : s.able.size = count)
    (hi : i < pairs.size) (hy : s.able.getD y false = true) :
    (s.countDown pairs i).able.getD y false = true := by
  have hp : pairs[i]? = some pairs[i] := Array.getElem?_eq_getElem hi
  rw [countDown_eq hp]
  split
  · have hhead := (hpairs.of_getElem? hp).1
    exact (able_note_iff (by rwa [hsize])).2 (.inl hy)
  · exact hy

theorem Counts.foldl_countDown (hpairs : InRange count pairs)
    (h : Counts count pairs terminals s rest) (hrest : ∀ i ∈ rest, i < pairs.size) :
    Counts count pairs terminals (rest.foldl (State.countDown pairs) s) [] ∧
      (∀ y, (rest.foldl (State.countDown pairs) s).heard y = s.heard y) ∧
      ∀ y, s.able.getD y false = true →
        (rest.foldl (State.countDown pairs) s).able.getD y false = true := by
  induction rest generalizing s with
  | nil => exact ⟨h, fun _ => rfl, fun _ hy => hy⟩
  | cons i rest ih =>
    have hi := hrest i (by simp)
    obtain ⟨hcounts, hheard, hable⟩ := ih (h.countDown hpairs hi)
      fun j hj => hrest j (by simp [hj])
    refine ⟨hcounts, fun y => ?_, fun y hy => ?_⟩
    · rw [List.foldl_cons, hheard, heard_countDown hpairs h.size_able hi]
    · exact hable y (able_countDown hpairs h.size_able hi hy)

theorem Counts.lt_of_able (h : Counts count pairs terminals s rest)
    (hx : s.able.getD x false = true) : x < count := by
  by_contra hge
  rw [← h.size_able] at hge
  simp [Array.getD, hge] at hx

section

variable {occurs : Array (List Nat)} (htells : Tells count pairs occurs)

include htells

/-- The next nonterminal counts as heard of; its productions are yet to be told. -/
theorem Counts.pop {todo : List Nat} (h : Counts count pairs terminals s [])
    (htodo : s.todo = y :: todo) :
    Counts count pairs terminals { s with todo } (occurs.getD y []) := by
  have hnodup : y ∉ todo ∧ todo.Nodup := List.nodup_cons.1 (htodo ▸ h.nodup_todo)
  have hable : s.able.getD y false = true := h.able_of_mem_todo y (by simp [htodo])
  have hy : y < count := h.lt_of_able hable
  have hheard : ∀ x, (if s.heard x then 0 else 1) =
      (if State.heard { s with todo } x then 0 else 1) + if x = y then 1 else 0 := by
    intro x
    by_cases hxy : x = y
    · subst hxy
      simp only [State.heard, htodo, hable]
      simpa using hnodup.1
    · simp [State.heard, htodo, hxy]
  refine ⟨h.size_waiting, h.size_able, hnodup.2, ?_, ?_, h.able_head, h.sound⟩
  · intro x hx
    exact h.able_of_mem_todo x (by simp [htodo, hx])
  · intro i p hp
    have hwaiting := h.waiting_eq i p hp
    rw [List.count_nil, Nat.add_zero, State.missing, hheard, hheard] at hwaiting
    rw [htells y i hy, hp, State.missing]
    simp only [Option.map_some, Option.getD_some, Pair.times]
    omega

/-- A step keeps the counts right, forgets no mark, and has one nonterminal more heard of. -/
theorem Counts.step (hpairs : InRange count pairs) {todo : List Nat}
    (h : Counts count pairs terminals s []) (htodo : s.todo = y :: todo) :
    Counts count pairs terminals (s.step pairs occurs) [] ∧
      (∀ x, (s.step pairs occurs).heard x = (s.heard x || x == y)) ∧
      ∀ x, s.able.getD x false = true → (s.step pairs occurs).able.getD x false = true := by
  have hable : s.able.getD y false = true := h.able_of_mem_todo y (by simp [htodo])
  have hy : y < count := h.lt_of_able hable
  have hnodup : y ∉ todo := (List.nodup_cons.1 (htodo ▸ h.nodup_todo)).1
  obtain ⟨hcounts, hheard, hables⟩ := (h.pop htells htodo).foldl_countDown hpairs
    fun i hi => htells.lt_size hy hi
  rw [State.step, htodo]
  refine ⟨hcounts, fun x => ?_, hables⟩
  rw [hheard]
  by_cases hxy : x = y
  · subst hxy
    simp only [State.heard, htodo, hable]
    simpa using hnodup
  · simp [State.heard, htodo, hxy]

end

def unheard (count : Nat) (s : State) : Finset Nat :=
  (Finset.range count).filter (¬ s.heard · = true)

theorem card_unheard_le (count : Nat) (s : State) : (unheard count s).card ≤ count := by
  unfold unheard
  exact (Finset.card_filter_le _ _).trans (Nat.le_of_eq (Finset.card_range count))

theorem Counts.mem_unheard (h : Counts count pairs terminals s rest) (hx : x ∈ s.todo) :
    x ∈ unheard count s := by
  have hlt := h.lt_of_able (h.able_of_mem_todo x hx)
  simp [unheard, hlt, State.heard, hx]

theorem Counts.todo_eq_nil (h : Counts count pairs terminals s rest)
    (hnone : (unheard count s).card = 0) : s.todo = [] := by
  refine List.eq_nil_iff_forall_not_mem.2 fun x hx => ?_
  have hmem := h.mem_unheard hx
  simp [Finset.card_eq_zero.1 hnone] at hmem

section

variable {occurs : Array (List Nat)} (htells : Tells count pairs occurs)

include htells

theorem Counts.card_unheard_step (hpairs : InRange count pairs) {todo : List Nat}
    (h : Counts count pairs terminals s []) (htodo : s.todo = y :: todo) :
    (unheard count (s.step pairs occurs)).card < (unheard count s).card := by
  obtain ⟨-, hheard, -⟩ := h.step htells hpairs htodo
  refine Finset.card_lt_card ((Finset.ssubset_iff_of_subset ?_).2
    ⟨y, h.mem_unheard (by simp [htodo]), by simp [unheard, hheard]⟩)
  refine Finset.monotone_filter_right _ fun x _ hx => ?_
  rw [hheard, Bool.or_eq_true, not_or] at hx
  exact hx.1

/-- With as many steps as there are nonterminals not heard of, all are told in the end. -/
theorem Counts.run (hpairs : InRange count pairs) {steps : Nat}
    (h : Counts count pairs terminals s []) (hsteps : (unheard count s).card ≤ steps) :
    Counts count pairs terminals (s.run pairs occurs steps) [] ∧
      (s.run pairs occurs steps).todo = [] ∧
      ∀ x, s.able.getD x false = true → (s.run pairs occurs steps).able.getD x false = true := by
  induction steps generalizing s with
  | zero => exact ⟨h, h.todo_eq_nil (Nat.le_zero.1 hsteps), fun x hx => hx⟩
  | succ steps ih =>
    unfold State.run
    split
    · next hnil => exact ⟨h, List.isEmpty_iff.1 hnil, fun x hx => hx⟩
    · next hne =>
      obtain ⟨y, todo, htodo⟩ := List.exists_cons_of_ne_nil (mt List.isEmpty_iff.2 hne)
      obtain ⟨hcounts, -, hables⟩ := h.step htells hpairs htodo
      have hcard := h.card_unheard_step htells hpairs htodo
      obtain ⟨hrun, hnil, hkept⟩ := ih hcounts (by omega)
      exact ⟨hrun, hnil, fun x hx => hkept x (hables x hx)⟩

end

theorem counts_blank (count : Nat) (pairs : Array Pair) (terminals : Array (Nat × Nat)) :
    Counts count pairs terminals
      ⟨Array.replicate pairs.size 2, Array.replicate count false, []⟩ [] := by
  have hable : ∀ x, (Array.replicate count false).getD x false = false := by
    intro x
    simp only [Array.getD_eq_getD_getElem?, Array.getElem?_replicate]
    split <;> rfl
  refine ⟨by simp, by simp, by simp, by simp, ?_, ?_, ?_⟩
  · intro i p hp
    have hi := (Array.getElem?_eq_some_iff.1 hp).1
    simp only [State.missing, State.heard, hable]
    simp [hi]
  · intro i p hp hzero
    have hi := (Array.getElem?_eq_some_iff.1 hp).1
    simp [hi] at hzero
  · intro x hx
    rw [hable] at hx
    cases hx

theorem Counts.foldl_note {ts : List (Nat × Nat)} (h : Counts count pairs terminals s [])
    (hts : ∀ p ∈ ts, p ∈ terminals ∧ p.1 < count) :
    Counts count pairs terminals (ts.foldl (fun s p => s.note p.1) s) [] ∧
      (∀ x, s.able.getD x false = true →
        (ts.foldl (fun s p => s.note p.1) s).able.getD x false = true) ∧
      ∀ p ∈ ts, (ts.foldl (fun s p => s.note p.1) s).able.getD p.1 false = true := by
  induction ts generalizing s with
  | nil => simp [h]
  | cons p ts ih =>
    obtain ⟨hmem, hlt⟩ := hts p (by simp)
    have hsize : p.1 < s.able.size := by rwa [h.size_able]
    obtain ⟨hcounts, hables, hts⟩ := ih (h.note hlt ⟨[p.2], .terminal hmem⟩)
      fun p hp => hts p (by simp [hp])
    refine ⟨hcounts, fun x hx => hables x ((able_note_iff hsize).2 (.inl hx)), ?_⟩
    intro q hq
    rcases List.mem_cons.1 hq with rfl | hq
    · exact hables _ ((able_note_iff hsize).2 (.inr rfl))
    · exact hts q hq

theorem counts_start (pairs : Array Pair) (hterminals : ∀ p ∈ terminals, p.1 < count) :
    Counts count pairs terminals (.start count pairs terminals) [] ∧
      ∀ p ∈ terminals, (State.start count pairs terminals).able.getD p.1 false = true := by
  have hmem : ∀ p ∈ terminals.toList, p ∈ terminals ∧ p.1 < count := by
    intro p hp
    have hp' := Array.mem_toList_iff.1 hp
    exact ⟨hp', hterminals p hp'⟩
  obtain ⟨hstart, -, hmarked⟩ := (counts_blank count pairs terminals).foldl_note hmem
  exact ⟨hstart, fun p hp => hmarked p (Array.mem_toList_iff.2 hp)⟩

/-- In whatever order the productions are told, the nonterminals marked in the end are those that
derive a string. -/
theorem able_run_iff {occurs : Array (List Nat)} (htells : Tells count pairs occurs)
    (hpairs : InRange count pairs) (hterminals : ∀ p ∈ terminals, p.1 < count) :
    (State.run pairs occurs count (.start count pairs terminals)).able.getD x false = true ↔
      ∃ w, Derives pairs terminals x w := by
  obtain ⟨hstart, hmarked⟩ := counts_start pairs hterminals
  obtain ⟨hrun, hnil, hkept⟩ := hstart.run htells hpairs (card_unheard_le count _)
  constructor
  · exact hrun.sound x
  · rintro ⟨w, hw⟩
    induction hw with
    | terminal h => exact hkept _ (hmarked _ h)
    | pair h hv hw ihv ihw =>
      obtain ⟨i, hi⟩ := Array.getElem?_of_mem h
      refine hrun.able_head i _ hi ?_
      rw [hrun.waiting_eq i _ hi,
        missing_eq_zero_iff.2 ⟨heard_of_able hnil ihv, heard_of_able hnil ihw⟩]
      rfl

theorem generating_iff (hpairs : InRange count pairs) (hterminals : ∀ p ∈ terminals, p.1 < count) :
    (generating count pairs terminals).getD x false = true ↔
      ∃ w, Derives pairs terminals x w :=
  able_run_iff (tells_occurrences count pairs) hpairs hterminals

/-- `y` is a part of a production of `x` that can be completed. -/
def IsPart (pairs : Array Pair) (terminals : Array (Nat × Nat)) (x y : Nat) : Prop :=
  ∃ p ∈ pairs, p.1 = x ∧ (y = p.2.1 ∨ y = p.2.2) ∧
    (∃ v, Derives pairs terminals p.2.1 v) ∧ ∃ w, Derives pairs terminals p.2.2 w

theorem mem_parts_iff (hpairs : InRange count pairs) (hterminals : ∀ p ∈ terminals, p.1 < count)
    (hx : x < count) :
    y ∈ parts (generating count pairs terminals) (bodies count pairs) x ↔
      IsPart pairs terminals x y := by
  simp only [parts, List.mem_flatMap, Prod.exists, mem_bodies hx]
  constructor
  · rintro ⟨a, b, hmem, hy⟩
    split at hy
    · next hable =>
      rw [Bool.and_eq_true, generating_iff hpairs hterminals,
        generating_iff hpairs hterminals] at hable
      exact ⟨(x, a, b), hmem, rfl, by simpa using hy, hable⟩
    · cases hy
  · rintro ⟨⟨x, a, b⟩, hmem, rfl, hy, ha, hb⟩
    refine ⟨a, b, hmem, ?_⟩
    rw [if_pos]
    · simpa using hy
    · rw [Bool.and_eq_true, generating_iff hpairs hterminals, generating_iff hpairs hterminals]
      exact ⟨ha, hb⟩

theorem IsPart.lt (hpairs : InRange count pairs) (h : IsPart pairs terminals x y) : y < count := by
  obtain ⟨p, hp, -, hy, -, -⟩ := h
  have hlt := hpairs p hp
  rcases hy with rfl | rfl
  · exact hlt.2.1
  · exact hlt.2.2

theorem IsPart.exists_derives (h : IsPart pairs terminals x y) :
    ∃ w, Derives pairs terminals y w := by
  obtain ⟨p, -, -, hy, hv, hw⟩ := h
  rcases hy with rfl | rfl
  · exact hv
  · exact hw

/-- The useful nonterminals are those that some start leads to which derives a string. -/
theorem useful_iff (hpairs : InRange count pairs) (hterminals : ∀ p ∈ terminals, p.1 < count)
    {starts : List Nat} (hstarts : ∀ s ∈ starts, s < count) :
    (useful count starts pairs terminals).getD x false = true ↔
      ∃ s ∈ starts, (∃ w, Derives pairs terminals s w) ∧
        Relation.ReflTransGen (IsPart pairs terminals) s x := by
  have hable : ∀ s ∈ starts.filter fun x => (generating count pairs terminals).getD x false,
      s ∈ List.range count := by
    intro s hs
    exact List.mem_range.2 (hstarts s (List.mem_filter.1 hs).1)
  have hparts : ∀ x ∈ List.range count, ∀ y,
      y ∈ parts (generating count pairs terminals) (bodies count pairs) x ↔
        IsPart pairs terminals x y := by
    intro x hx y
    exact mem_parts_iff hpairs hterminals (List.mem_range.1 hx)
  rw [useful, getD_marks, mem_explore_iff hable hparts
    (fun x _ y hy => List.mem_range.2 (hy.lt hpairs)) (by simp)]
  simp only [List.mem_filter, generating_iff hpairs hterminals]
  constructor
  · rintro ⟨-, s, ⟨hs, hw⟩, hchain⟩
    exact ⟨s, hs, hw, hchain⟩
  · rintro ⟨s, hs, hw, hchain⟩
    refine ⟨?_, s, ⟨hs, hw⟩, hchain⟩
    cases hchain with
    | refl => exact hstarts _ hs
    | tail _ hpart => exact hpart.lt hpairs

end Marking

end GrammarRepair
