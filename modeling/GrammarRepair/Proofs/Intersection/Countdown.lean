import GrammarRepair.Intersection.Countdown
import GrammarRepair.Proofs.Checked
import GrammarRepair.Proofs.Intersection.Marking

/-!
Counting down without falling below zero. A production is told of each of its parts once, as often as
the part occurs in it, and it waits for two; so whenever it is told of one, it still waits for one.
Main statement: with all indices in range no look-up fails and no counter is at zero before it goes
down, and what is marked is what derives a string and can be reached from a start that derives one
through productions that can be completed.
-/

namespace GrammarRepair

namespace Marking

namespace Countdown

variable {count : Nat} {pairs : Array Pair} {terminals : Array (Nat × Nat)} {x y i : Nat}

theorem foldlM_entries {entries : List (Nat × Nat)} (h : ∀ e ∈ entries, e.1 < count)
    {table : Array (List Nat)} (hsize : table.size = count) :
    ∃ table', entries.foldlM (fun table e => do
        Checked.put table e.1 ((← Checked.entry table e.1) ++ [e.2])) table = .ok table' ∧
      table'.size = count ∧ ∀ x < count,
        table'.getD x [] = table.getD x [] ++ (entries.filter (·.1 == x)).map (·.2) := by
  induction entries generalizing table with
  | nil => exact ⟨table, rfl, hsize, fun x _ => by simp⟩
  | cons e entries ih =>
    have he : e.1 < table.size := hsize ▸ h e List.mem_cons_self
    have hset : (table.setIfInBounds e.1 (table.getD e.1 [] ++ [e.2])).size = count := by
      rw [Array.size_setIfInBounds, hsize]
    obtain ⟨table', hfold, hsize', hrows⟩ :=
      ih (fun e he => h e (List.mem_cons_of_mem _ he)) hset
    refine ⟨table', ?_, hsize', fun x hx => ?_⟩
    · rw [List.foldlM_cons, Checked.entry_getD he [], Checked.ok_bind, Checked.put_ok he,
        Checked.ok_bind]
      exact hfold
    · rw [hrows x hx]
      by_cases hex : e.1 = x
      · subst hex
        simp [he]
      · simp [hex, hsize, hx]

theorem indexed_ok {entries : List (Nat × Nat)} (h : ∀ e ∈ entries, e.1 < count) :
    ∃ table, indexed count entries = .ok table ∧ table.size = count ∧ ∀ x < count,
      table.getD x [] = (entries.filter (·.1 == x)).map (·.2) := by
  have hblank : (Array.replicate count ([] : List Nat)).size = count := Array.size_replicate
  obtain ⟨table, hfold, hsize, hrows⟩ := foldlM_entries h hblank
  exact ⟨table, hfold, hsize, fun x hx => by simpa [hx] using hrows x hx⟩

theorem count_entries (entries : List (Nat × Nat)) (x i : Nat) :
    ((entries.filter (·.1 == x)).map (·.2)).count i = entries.count (x, i) := by
  induction entries with
  | nil => rfl
  | cons e entries ih =>
    obtain ⟨y, j⟩ := e
    by_cases hy : y = x
    · by_cases hj : j = i
      · simp [hy, hj, ih]
      · simp [hy, hj, ih]
    · simp [hy, ih]

theorem count_partEntries (ps : List Pair) (x i : Nat) :
    (ps.zipIdx.flatMap fun p => [(p.1.2.1, p.2), (p.1.2.2, p.2)]).count (x, i) =
      (ps[i]?.map (·.times x)).getD 0 := by
  induction ps using List.reverseRecOn with
  | nil => rfl
  | append_singleton ps p ih =>
    rw [List.zipIdx_append, List.flatMap_append, List.count_append, ih, times_concat]
    by_cases hi : ps.length = i
    · simp [hi, Pair.times, List.count_cons, Nat.add_comm]
    · simp [hi]

theorem mem_zipIdx_pairs {p : Pair × Nat} : p ∈ pairs.toList.zipIdx ↔ pairs[p.2]? = some p.1 := by
  rw [List.mem_zipIdx_iff_getElem?, Array.getElem?_toList]

theorem occurrences_ok (hpairs : InRange count pairs) : ∃ occurs,
    occurrences count pairs = .ok occurs ∧ occurs.size = count ∧ Tells count pairs occurs := by
  have hkeys : ∀ e ∈ pairs.toList.zipIdx.flatMap fun p => [(p.1.2.1, p.2), (p.1.2.2, p.2)],
      e.1 < count := by
    intro e he
    obtain ⟨p, hp, he⟩ := List.mem_flatMap.1 he
    obtain ⟨-, hy, hz⟩ := hpairs.of_getElem? (mem_zipIdx_pairs.1 hp)
    rcases List.mem_pair.1 he with rfl | rfl
    · exact hy
    · exact hz
  obtain ⟨occurs, hoccurs, hsize, hrows⟩ := indexed_ok hkeys
  refine ⟨occurs, hoccurs, hsize, fun x i hx => ?_⟩
  rw [hrows x hx, count_entries, count_partEntries, Array.getElem?_toList]

theorem owned_ok (hpairs : InRange count pairs) : ∃ table,
    owned count pairs = .ok table ∧ table.size = count ∧ ∀ x < count, ∀ i,
      i ∈ table.getD x [] ↔ ∃ p, pairs[i]? = some p ∧ p.1 = x := by
  have hkeys : ∀ e ∈ pairs.toList.zipIdx.map fun p => (p.1.1, p.2), e.1 < count := by
    intro e he
    obtain ⟨p, hp, rfl⟩ := List.mem_map.1 he
    exact (hpairs.of_getElem? (mem_zipIdx_pairs.1 hp)).1
  obtain ⟨table, htable, hsize, hrows⟩ := indexed_ok hkeys
  refine ⟨table, htable, hsize, fun x hx i => ?_⟩
  simp only [hrows x hx, List.mem_map, List.mem_filter, beq_iff_eq]
  constructor
  · rintro ⟨_, ⟨⟨p, hp, rfl⟩, rfl⟩, rfl⟩
    exact ⟨p.1, mem_zipIdx_pairs.1 hp, rfl⟩
  · rintro ⟨p, hp, rfl⟩
    exact ⟨(p.1, i), ⟨⟨(p, i), mem_zipIdx_pairs.2 hp, rfl⟩, rfl⟩, rfl⟩

variable {s : State} {rest : List Nat}

theorem note_ok (hx : x < s.able.size) : note s x = .ok (s.note x) := by
  rw [note, Checked.entry_getD hx false, Checked.ok_bind]
  by_cases hable : s.able.getD x false = true
  · rw [if_pos hable, note_of_able hable]
    rfl
  · rw [if_neg hable, note_of_not_able hx hable, Checked.put_ok hx]
    rfl

/-- A production that is told of a part waits for one at least, since this part is still counted. -/
theorem countDown_ok (hpairs : InRange count pairs) (h : Counts count pairs terminals s (i :: rest))
    (hi : i < pairs.size) : countDown pairs s i = .ok (s.countDown pairs i) := by
  have hp : pairs[i]? = some pairs[i] := Array.getElem?_eq_getElem hi
  have hwaits : 1 ≤ s.waiting.getD i 0 := by
    rw [h.waiting_eq i _ hp, List.count_cons_self]
    omega
  have hlt : i < s.waiting.size := h.size_waiting ▸ hi
  have hhead : pairs[i].1 < s.able.size := h.size_able ▸ (hpairs.of_getElem? hp).1
  rw [countDown, Checked.entry_getD hlt 0, Checked.ok_bind, Checked.minus_ok hwaits,
    Checked.ok_bind, Checked.put_ok hlt, Checked.ok_bind, Checked.entry_ok hp, Checked.ok_bind,
    countDown_eq hp]
  by_cases hleft : s.waiting.getD i 0 - 1 = 0
  · rw [if_pos hleft, if_pos hleft, ← note_setWaiting]
    exact note_ok hhead
  · rw [if_neg hleft, if_neg hleft]
    rfl

theorem foldlM_countDown_ok (hpairs : InRange count pairs)
    (h : Counts count pairs terminals s rest) (hrest : ∀ i ∈ rest, i < pairs.size) :
    rest.foldlM (countDown pairs) s = .ok (rest.foldl (State.countDown pairs) s) := by
  induction rest generalizing s with
  | nil => rfl
  | cons i rest ih =>
    have hi := hrest i List.mem_cons_self
    rw [List.foldlM_cons, countDown_ok hpairs h hi, Checked.ok_bind, List.foldl_cons]
    exact ih (h.countDown hpairs hi) fun j hj => hrest j (List.mem_cons_of_mem _ hj)

theorem run_ok {occurs : Array (List Nat)} (hsize : occurs.size = count)
    (htells : Tells count pairs occurs) (hpairs : InRange count pairs) {steps : Nat}
    (h : Counts count pairs terminals s []) (hsteps : (unheard count s).card ≤ steps) :
    run pairs occurs steps s = .ok (s.run pairs occurs steps) := by
  induction steps generalizing s with
  | zero =>
    rw [run, h.todo_eq_nil (Nat.le_zero.1 hsteps)]
    rfl
  | succ steps ih =>
    rw [run, State.run]
    cases htodo : s.todo with
    | nil => rfl
    | cons y todo =>
      have hy : y < count := h.lt_of_able (h.able_of_mem_todo y (by simp [htodo]))
      have hstep : s.step pairs occurs =
          (occurs.getD y []).foldl (State.countDown pairs) { s with todo } := by
        rw [State.step, htodo]
      have hcard := h.card_unheard_step htells hpairs htodo
      obtain ⟨hcounts, -, -⟩ := h.step htells hpairs htodo
      rw [hstep] at hcard hcounts
      simp only [Checked.entry_getD (hsize ▸ hy) [], Checked.ok_bind,
        foldlM_countDown_ok hpairs (h.pop htells htodo) fun i hi => htells.lt_size hy hi,
        ih hcounts (by omega), hstep]
      rfl

theorem foldlM_note_ok {ts : List (Nat × Nat)} (h : Counts count pairs terminals s [])
    (hts : ∀ p ∈ ts, p ∈ terminals ∧ p.1 < count) :
    ts.foldlM (fun s p => note s p.1) s = .ok (ts.foldl (fun s p => s.note p.1) s) := by
  induction ts generalizing s with
  | nil => rfl
  | cons p ts ih =>
    obtain ⟨hmem, hlt⟩ := hts p List.mem_cons_self
    rw [List.foldlM_cons, note_ok (h.size_able ▸ hlt), Checked.ok_bind, List.foldl_cons]
    exact ih (h.note hlt ⟨[p.2], .terminal hmem⟩) fun p hp => hts p (List.mem_cons_of_mem _ hp)

/-- Two tables of marks of one size with the same marks. -/
theorem eq_of_same_marks {m m' : Array Bool} (hsize : m.size = m'.size)
    (h : ∀ x, m.getD x false = true ↔ m'.getD x false = true) : m = m' := by
  refine Array.ext hsize fun x hx hx' => ?_
  simpa [hx, hx', ← Bool.eq_iff_iff] using h x

/-- Counting down marks what derives a string, in whatever order productions are told. -/
theorem generating_ok (hpairs : InRange count pairs) (hterminals : ∀ p ∈ terminals, p.1 < count) :
    generating count pairs terminals = .ok (Marking.generating count pairs terminals) := by
  obtain ⟨occurs, hoccurs, hsize, htells⟩ := occurrences_ok hpairs
  obtain ⟨hstart, -⟩ := counts_start pairs hterminals
  have hmem : ∀ p ∈ terminals.toList, p ∈ terminals ∧ p.1 < count := fun p hp =>
    ⟨Array.mem_toList_iff.1 hp, hterminals p (Array.mem_toList_iff.1 hp)⟩
  have hfold := foldlM_note_ok (counts_blank count pairs terminals) hmem
  have hrun := run_ok hsize htells hpairs hstart (card_unheard_le count _)
  have htold := tells_occurrences count pairs
  have hable : (State.run pairs occurs count (.start count pairs terminals)).able =
      Marking.generating count pairs terminals := by
    refine eq_of_same_marks ?_ fun x => ?_
    · rw [(hstart.run htells hpairs (card_unheard_le count _)).1.size_able, Marking.generating,
        (hstart.run htold hpairs (card_unheard_le count _)).1.size_able]
    · rw [able_run_iff htells hpairs hterminals, Marking.generating,
        able_run_iff htold hpairs hterminals]
  rw [generating, hoccurs, Checked.ok_bind, hfold, Checked.ok_bind]
  rw [State.start] at hrun hable
  rw [hrun, Checked.ok_bind, hable]
  rfl

def listedParts (able : Array Bool) (p : Pair) : List Nat :=
  if able.getD p.2.1 false && able.getD p.2.2 false then [p.2.1, p.2.2] else []

def partsListed (able : Array Bool) (pairs : Array Pair) (table : Array (List Nat)) (x : Nat) :
    List Nat :=
  (table.getD x []).flatMap fun i => listedParts able (pairs.getD i (0, 0, 0))

section

variable {able : Array Bool} {table : Array (List Nat)}
  (howned : ∀ x < count, ∀ i, i ∈ table.getD x [] ↔ ∃ p, pairs[i]? = some p ∧ p.1 = x)

include howned

theorem parts_ok (hpairs : InRange count pairs) (hable : able.size = count)
    (hsize : table.size = count) (hx : x < count) :
    parts able pairs table x = .ok (partsListed able pairs table x) := by
  have hproduction : ∀ i ∈ table.getD x [], (do
      let p ← Checked.entry pairs i
      if ← Checked.entry able p.2.1 then
        if ← Checked.entry able p.2.2 then pure [p.2.1, p.2.2] else pure []
      else pure []) =
        (.ok (listedParts able (pairs.getD i (0, 0, 0))) : Checked (List Nat)) := by
    intro i hi
    obtain ⟨p, hp, -⟩ := (howned x hx i).1 hi
    obtain ⟨-, hy, hz⟩ := hpairs.of_getElem? hp
    have hget : pairs.getD i (0, 0, 0) = p := by simp [hp]
    rw [Checked.entry_ok hp, Checked.ok_bind, Checked.entry_getD (hable ▸ hy) false,
      Checked.ok_bind, Checked.entry_getD (hable ▸ hz) false, Checked.ok_bind, hget, listedParts]
    cases able.getD p.2.1 false <;> cases able.getD p.2.2 false <;> rfl
  rw [parts, Checked.entry_getD (hsize ▸ hx) [], Checked.ok_bind, Checked.mapM_ok hproduction,
    Checked.ok_bind, partsListed, List.flatMap_def]
  rfl

theorem mem_partsListed_iff (hpairs : InRange count pairs)
    (hterminals : ∀ p ∈ terminals, p.1 < count) (hx : x < count) :
    y ∈ partsListed (Marking.generating count pairs terminals) pairs table x ↔
      IsPart pairs terminals x y := by
  have hlisted : ∀ p : Pair, y ∈ listedParts (Marking.generating count pairs terminals) p ↔
      (y = p.2.1 ∨ y = p.2.2) ∧
        (∃ v, Derives pairs terminals p.2.1 v) ∧ ∃ w, Derives pairs terminals p.2.2 w := by
    intro p
    rw [← generating_iff hpairs hterminals, ← generating_iff hpairs hterminals, listedParts,
      ← Bool.and_eq_true]
    split
    · next hable => exact List.mem_pair.trans (and_iff_left hable).symm
    · next hable => exact iff_of_false List.not_mem_nil fun h => hable h.2
  simp only [partsListed, List.mem_flatMap, howned x hx, hlisted]
  constructor
  · rintro ⟨i, ⟨p, hp, rfl⟩, hy⟩
    have hget : pairs.getD i (0, 0, 0) = p := by simp [hp]
    rw [hget] at hy
    exact ⟨p, Array.mem_of_getElem? hp, rfl, hy⟩
  · rintro ⟨p, hp, rfl, hy⟩
    obtain ⟨i, hi⟩ := Array.mem_iff_getElem?.1 hp
    have hget : pairs.getD i (0, 0, 0) = p := by simp [hi]
    exact ⟨i, ⟨p, hi, rfl⟩, hget ▸ hy⟩

end

theorem ableStarts_ok {able : Array Bool} (hable : able.size = count) {starts : List Nat}
    (hstarts : ∀ s ∈ starts, s < count) :
    ableStarts able starts = .ok (starts.filter fun x => able.getD x false) := by
  have hstart : ∀ s ∈ starts,
      (do pure (if ← Checked.entry able s then [s] else [])) =
        (.ok (if able.getD s false then [s] else []) : Checked (List Nat)) := by
    intro s hs
    rw [Checked.entry_getD (hable ▸ hstarts s hs) false]
    rfl
  have hflatten : ∀ starts : List Nat,
      (starts.map fun s => if able.getD s false then [s] else []).flatten =
        starts.filter fun x => able.getD x false := by
    intro starts
    induction starts with
    | nil => rfl
    | cons s starts ih =>
      rw [List.map_cons, List.flatten_cons, ih, List.filter_cons]
      cases able.getD s false <;> rfl
  rw [ableStarts, Checked.mapM_ok hstart, Checked.ok_bind, hflatten]
  rfl

theorem size_generating (hpairs : InRange count pairs) (hterminals : ∀ p ∈ terminals, p.1 < count) :
    (Marking.generating count pairs terminals).size = count :=
  ((counts_start pairs hterminals).1.run (tells_occurrences count pairs) hpairs
    (card_unheard_le count _)).1.size_able

theorem size_marks (count : Nat) (xs : List Nat) : (marks count xs).size = count := by
  induction xs using List.reverseRecOn with
  | nil => exact Array.size_replicate
  | append_singleton xs x ih =>
    rw [marks, List.foldl_append]
    exact (Array.size_setIfInBounds ..).trans ih

theorem useful_ok (hpairs : InRange count pairs) (hterminals : ∀ p ∈ terminals, p.1 < count)
    {starts : List Nat} (hstarts : ∀ s ∈ starts, s < count) :
    useful count starts pairs terminals = .ok (Marking.useful count starts pairs terminals) := by
  obtain ⟨table, htable, hsize, howned⟩ := owned_ok hpairs
  have hable := size_generating hpairs hterminals
  have hitems : ∀ s ∈ starts.filter fun x => (Marking.generating count pairs terminals).getD x false,
      s ∈ List.range count :=
    fun s hs => List.mem_range.2 (hstarts s (List.mem_filter.1 hs).1)
  have hnext : ∀ x ∈ List.range count, ∀ y,
      y ∈ partsListed (Marking.generating count pairs terminals) pairs table x ↔
        IsPart pairs terminals x y :=
    fun x hx y => mem_partsListed_iff howned hpairs hterminals (List.mem_range.1 hx)
  have hclosed : ∀ x ∈ List.range count, ∀ y, IsPart pairs terminals x y → y ∈ List.range count :=
    fun x _ y hy => List.mem_range.2 (hy.lt hpairs)
  have hparts : ∀ x ∈ List.range count,
      parts (Marking.generating count pairs terminals) pairs table x =
        .ok (partsListed (Marking.generating count pairs terminals) pairs table x) :=
    fun x hx => parts_ok howned hpairs hable hsize (List.mem_range.1 hx)
  have hexplore := Checked.explore_ok hparts
    (fun x hx y hy => hclosed x hx y ((hnext x hx y).1 hy)) hitems
    (Nat.le_of_eq (List.length_range (n := count)))
  rw [useful, generating_ok hpairs hterminals, Checked.ok_bind, htable, Checked.ok_bind,
    ableStarts_ok hable hstarts, Checked.ok_bind, hexplore, Checked.ok_bind]
  refine congrArg Except.ok (eq_of_same_marks ?_ fun x => ?_)
  · rw [size_marks, Marking.useful, size_marks]
  · rw [useful_iff hpairs hterminals hstarts, getD_marks,
      mem_explore_iff hitems hnext hclosed (Nat.le_of_eq List.length_range)]
    simp only [List.mem_filter, generating_iff hpairs hterminals, and_assoc]
    refine and_iff_right_of_imp ?_
    rintro ⟨s, hs, -, hchain⟩
    cases hchain with
    | refl => exact hstarts _ hs
    | tail _ hpart => exact hpart.lt hpairs

end Countdown

/-- With all numbers in range no counter is asked to go below zero and no look-up fails, and those
nonterminals are marked that derive a string and that some start leads to which derives one, through
productions that can be completed. -/
theorem countdown_marks_useful (count : Nat) (starts : List Nat) (pairs : Array Pair)
    (terminals : Array (Nat × Nat)) (hpairs : InRange count pairs)
    (hterminals : ∀ p ∈ terminals, p.1 < count) (hstarts : ∀ s ∈ starts, s < count) :
    Countdown.useful count starts pairs terminals = .ok (useful count starts pairs terminals) ∧
      (useful count starts pairs terminals).size = count ∧
      ∀ x, (useful count starts pairs terminals).getD x false = true ↔
        (∃ w, Derives pairs terminals x w) ∧
          ∃ s ∈ starts, (∃ w, Derives pairs terminals s w) ∧
            Relation.ReflTransGen (IsPart pairs terminals) s x := by
  refine ⟨Countdown.useful_ok hpairs hterminals hstarts, Countdown.size_marks _ _, fun x => ?_⟩
  rw [useful_iff hpairs hterminals hstarts]
  refine (and_iff_right_of_imp ?_).symm
  rintro ⟨s, -, hw, hchain⟩
  cases hchain with
  | refl => exact hw
  | tail _ hpart => exact hpart.exists_derives

/-- The first production, twice, has one nonterminal as both of its parts; the third has a part that
derives nothing. -/
theorem countdown_marks_useful_doubled :
    Countdown.useful 4 [0, 3] #[(0, 1, 1), (0, 1, 1), (1, 2, 3)] #[(1, 5), (2, 5)] =
        .ok (useful 4 [0, 3] #[(0, 1, 1), (0, 1, 1), (1, 2, 3)] #[(1, 5), (2, 5)]) ∧
      ∀ x, (useful 4 [0, 3] #[(0, 1, 1), (0, 1, 1), (1, 2, 3)] #[(1, 5), (2, 5)]).getD x false =
          true ↔
        (∃ w, Derives #[(0, 1, 1), (0, 1, 1), (1, 2, 3)] #[(1, 5), (2, 5)] x w) ∧
          ∃ s ∈ [0, 3], (∃ w, Derives #[(0, 1, 1), (0, 1, 1), (1, 2, 3)] #[(1, 5), (2, 5)] s w) ∧
            Relation.ReflTransGen
              (IsPart #[(0, 1, 1), (0, 1, 1), (1, 2, 3)] #[(1, 5), (2, 5)]) s x := by
  obtain ⟨hok, -, hmarks⟩ := countdown_marks_useful 4 [0, 3]
    #[(0, 1, 1), (0, 1, 1), (1, 2, 3)] #[(1, 5), (2, 5)] (by unfold InRange; decide) (by decide)
    (by decide)
  exact ⟨hok, hmarks⟩

end Marking

end GrammarRepair
