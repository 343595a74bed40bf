import GrammarRepair.Forest.Compaction
import GrammarRepair.Proofs.Checked
import GrammarRepair.Proofs.Forest.Counting
import GrammarRepair.Proofs.Forest.Order
import GrammarRepair.Proofs.Sorted

/-!
Putting nodes in order. Whatever a node leads to is over a lesser distance, so once the nodes are
sorted by distance its parts come before it, and they have numbers and counts by the time that it
gets its own. Main statement: nodes whose parts are over lesser distances are put in order without a
failed look-up, and what is kept is what the roots lead to, each node once and in its place.
-/

namespace GrammarRepair

def Node.mapParts (f : Nat → Nat) (node : Node) : Node :=
  { node with branches := node.branches.map fun b => (f b.1, f b.2) }

namespace Compaction

variable {nodes : Array Node} {roots todo order : List Nat} {seen : Array Bool} {x y : Nat}

def LeadsTo (nodes : Array Node) (x y : Nat) : Prop :=
  ∃ node, nodes[x]? = some node ∧ ∃ b ∈ node.branches, y = b.1 ∨ y = b.2

def Reached (nodes : Array Node) (roots : List Nat) (x : Nat) : Prop :=
  ∃ r ∈ roots, Relation.ReflTransGen (LeadsTo nodes) r x

def span (nodes : Array Node) (x : Nat) : Nat :=
  (nodes[x]?).elim 0 fun node => node.label.target - node.label.source

/-- The states of a node are in order, and its parts are there, over lesser distances. -/
structure Graded (nodes : Array Node) : Prop where
  ordered : ∀ (x : Nat) (node : Node), nodes[x]? = some node →
    node.label.source ≤ node.label.target
  lt_size : ∀ x y, LeadsTo nodes x y → y < nodes.size
  span_lt : ∀ x y, LeadsTo nodes x y → span nodes y < span nodes x

theorem leadsTo_iff {node : Node} (h : nodes[x]? = some node) :
    LeadsTo nodes x y ↔ ∃ b ∈ node.branches, y = b.1 ∨ y = b.2 := by
  constructor
  · rintro ⟨node', hnode', hy⟩
    obtain rfl := Option.some.inj (h.symm.trans hnode')
    exact hy
  · exact fun hy => ⟨node, h, hy⟩

theorem Graded.lt_of_reached (h : Graded nodes) (hroots : ∀ r ∈ roots, r < nodes.size)
    (hx : Reached nodes roots x) : x < nodes.size := by
  obtain ⟨r, hr, hchain⟩ := hx
  cases hchain with
  | refl => exact hroots _ hr
  | tail _ hlast => exact h.lt_size _ _ hlast

theorem Reached.part (h : Reached nodes roots x) (hy : LeadsTo nodes x y) :
    Reached nodes roots y := by
  obtain ⟨r, hr, hchain⟩ := h
  exact ⟨r, hr, hchain.tail hy⟩

theorem mem_lineUp {node : Node} :
    y ∈ lineUp node todo ↔ y ∈ todo ∨ ∃ b ∈ node.branches, y = b.1 ∨ y = b.2 := by
  have hfold : ∀ (bs : List (Nat × Nat)) (todo : List Nat),
      y ∈ bs.foldl (fun todo b => b.2 :: b.1 :: todo) todo ↔
        y ∈ todo ∨ ∃ b ∈ bs, y = b.1 ∨ y = b.2 := by
    intro bs
    induction bs with
    | nil => simp
    | cons b bs ih =>
      intro todo
      rw [List.foldl_cons, ih, List.mem_cons, List.mem_cons, List.exists_mem_cons_iff]
      generalize (∃ b ∈ bs, y = b.1 ∨ y = b.2) = later
      tauto
  exact hfold node.branches todo

theorem length_lineUp (node : Node) (todo : List Nat) :
    (lineUp node todo).length = todo.length + 2 * node.branches.length := by
  have hfold : ∀ (bs : List (Nat × Nat)) (todo : List Nat),
      (bs.foldl (fun todo b => b.2 :: b.1 :: todo) todo).length = todo.length + 2 * bs.length := by
    intro bs
    induction bs with
    | nil => exact fun _ => rfl
    | cons b bs ih =>
      intro todo
      rw [List.foldl_cons, ih, List.length_cons, List.length_cons, List.length_cons]
      omega
  exact hfold node.branches todo

theorem getD_mark_iff (hx : x < seen.size) :
    (seen.setIfInBounds x true).getD y false = true ↔ seen.getD y false = true ∨ y = x := by
  by_cases hy : x = y
  · subst hy
    simp [hx]
  · have hy' : ¬ y = x := fun heq => hy heq.symm
    simp [hy, hy', Array.getElem?_setIfInBounds_ne]

/-- What is marked or in line is reached; the roots are among it, and so is all that follows what is
marked. -/
structure Marks (nodes : Array Node) (roots : List Nat) (seen : Array Bool) (todo : List Nat) :
    Prop where
  size_eq : seen.size = nodes.size
  reached : ∀ x, seen.getD x false = true ∨ x ∈ todo → Reached nodes roots x
  root : ∀ r ∈ roots, seen.getD r false = true ∨ r ∈ todo
  closed : ∀ x y, seen.getD x false = true → LeadsTo nodes x y →
    seen.getD y false = true ∨ y ∈ todo

theorem marks_start (nodes : Array Node) (roots : List Nat) :
    Marks nodes roots (Array.replicate nodes.size false) roots.reverse := by
  have hblank : ∀ x, ¬ (Array.replicate nodes.size false).getD x false = true := by
    intro x
    simp only [Array.getD_eq_getD_getElem?, Array.getElem?_replicate]
    split <;> simp
  refine ⟨Array.size_replicate, ?_, fun r hr => .inr (List.mem_reverse.2 hr),
    fun x y hx => absurd hx (hblank x)⟩
  rintro x (hx | hx)
  · exact absurd hx (hblank x)
  · exact ⟨x, List.mem_reverse.1 hx, .refl⟩

/-- A node that is marked already is passed over. -/
theorem Marks.pass (h : Marks nodes roots seen (x :: todo)) (hx : seen.getD x false = true) :
    Marks nodes roots seen todo := by
  have hmet : ∀ y, seen.getD y false = true ∨ y ∈ x :: todo →
      seen.getD y false = true ∨ y ∈ todo := by
    rintro y (hy | hy)
    · exact .inl hy
    · rcases List.mem_cons.1 hy with rfl | hy
      · exact .inl hx
      · exact .inr hy
  exact ⟨h.size_eq, fun y hy => h.reached y (hy.imp id (List.mem_cons_of_mem x)),
    fun r hr => hmet r (h.root r hr), fun y z hy hz => hmet z (h.closed y z hy hz)⟩

theorem Marks.take {node : Node} (h : Marks nodes roots seen (x :: todo))
    (hnode : nodes[x]? = some node) :
    Marks nodes roots (seen.setIfInBounds x true) (lineUp node todo) := by
  have hlt : x < seen.size := h.size_eq ▸ (Array.getElem?_eq_some_iff.1 hnode).1
  have hreached : Reached nodes roots x := h.reached x (.inr List.mem_cons_self)
  have hmet : ∀ y, seen.getD y false = true ∨ y ∈ x :: todo →
      (seen.setIfInBounds x true).getD y false = true ∨ y ∈ lineUp node todo := by
    intro y hy
    rw [getD_mark_iff hlt, mem_lineUp]
    rcases hy with hy | hy
    · exact .inl (.inl hy)
    · rcases List.mem_cons.1 hy with rfl | hy
      · exact .inl (.inr rfl)
      · exact .inr (.inl hy)
  refine ⟨by rw [Array.size_setIfInBounds, h.size_eq], fun y hy => ?_,
    fun r hr => hmet r (h.root r hr), fun y z hy hz => ?_⟩
  · rw [getD_mark_iff hlt, mem_lineUp] at hy
    rcases hy with (hy | rfl) | (hy | hy)
    · exact h.reached y (.inl hy)
    · exact hreached
    · exact h.reached y (.inr (List.mem_cons_of_mem x hy))
    · exact hreached.part ((leadsTo_iff hnode).2 hy)
  · rcases (getD_mark_iff hlt).1 hy with hy | rfl
    · exact hmet z (h.closed y z hy hz)
    · exact .inr (mem_lineUp.2 (.inr ((leadsTo_iff hnode).1 hz)))

theorem Marks.reached_iff (h : Marks nodes roots seen []) :
    seen.getD x false = true ↔ Reached nodes roots x := by
  constructor
  · exact fun hx => h.reached x (.inl hx)
  · rintro ⟨r, hr, hchain⟩
    induction hchain with
    | refl => exact (h.root r hr).resolve_right List.not_mem_nil
    | tail _ hlast ih => exact (h.closed _ _ ih hlast).resolve_right List.not_mem_nil

/-- The branches of the nodes that are not marked. -/
def ahead (nodes : Array Node) (seen : Array Bool) : List (Nat × Nat) :=
  ((List.range nodes.size).filter fun x => !seen.getD x false).flatMap fun x =>
    (nodes[x]?).elim [] (·.branches)

theorem length_ahead_take {node : Node} (hsize : seen.size = nodes.size)
    (hx : ¬ seen.getD x false = true) (hnode : nodes[x]? = some node) :
    (ahead nodes seen).length =
      node.branches.length + (ahead nodes (seen.setIfInBounds x true)).length := by
  have hlt : x < nodes.size := (Array.getElem?_eq_some_iff.1 hnode).1
  have hmem : x ∈ (List.range nodes.size).filter fun x => !seen.getD x false := by
    rw [List.mem_filter, List.mem_range]
    exact ⟨hlt, by rw [Bool.not_eq_true] at hx; rw [hx]; rfl⟩
  have hnodup : ((List.range nodes.size).filter fun x => !seen.getD x false).Nodup :=
    List.nodup_range.filter _
  have hrest : ((List.range nodes.size).filter fun x => !seen.getD x false).erase x =
      (List.range nodes.size).filter fun y => !(seen.setIfInBounds x true).getD y false := by
    rw [hnodup.erase_eq_filter, List.filter_filter]
    refine List.filter_congr fun y _ => ?_
    have hmark := getD_mark_iff (y := y) (hsize ▸ hlt)
    rw [Bool.eq_iff_iff, Bool.and_eq_true, Bool.not_eq_true', Bool.not_eq_true',
      ← Bool.not_eq_true, ← Bool.not_eq_true, hmark, bne_iff_ne]
    tauto
  have hlength := (((List.perm_cons_erase hmem).flatMap_right fun x =>
    (nodes[x]?).elim [] (·.branches))).length_eq
  rw [ahead, hlength, hrest, List.flatMap_cons, List.length_append, hnode]
  rfl

theorem length_ahead_start (nodes : Array Node) :
    (ahead nodes (Array.replicate nodes.size false)).length =
      (nodes.toList.flatMap (·.branches)).length := by
  have hall : ((List.range nodes.size).filter fun x =>
      !(Array.replicate nodes.size false).getD x false) = List.range nodes.size := by
    refine List.filter_eq_self.2 fun x hx => ?_
    simp [List.mem_range.1 hx]
  have hrange := flatMap_range (fun node : Node => node.branches) nodes.toList
  simp only [Array.length_toList, Array.getElem?_toList] at hrange
  rw [ahead, hall, hrange]

/-- Every turn takes one node out of the line, and a node brings its parts into it once. -/
theorem mark_ok (hgraded : Graded nodes) (hroots : ∀ r ∈ roots, r < nodes.size) {steps : Nat}
    (h : Marks nodes roots seen todo)
    (hsteps : todo.length + 2 * (ahead nodes seen).length ≤ steps) :
    ∃ seen', mark nodes steps todo seen = .ok seen' ∧ Marks nodes roots seen' [] := by
  induction steps generalizing seen todo with
  | zero =>
    obtain rfl : todo = [] := List.length_eq_zero_iff.1 (by omega)
    exact ⟨seen, rfl, h⟩
  | succ steps ih =>
    cases todo with
    | nil => exact ⟨seen, rfl, h⟩
    | cons x todo =>
      have hlt := hgraded.lt_of_reached hroots (h.reached x (.inr List.mem_cons_self))
      have hseen : x < seen.size := h.size_eq ▸ hlt
      have hnode : nodes[x]? = some nodes[x] := Array.getElem?_eq_getElem hlt
      rw [List.length_cons] at hsteps
      rw [mark, Checked.entry_getD hseen false, Checked.ok_bind]
      by_cases hx : seen.getD x false = true
      · rw [if_pos hx]
        exact ih (h.pass hx) (by omega)
      · rw [if_neg hx, Checked.entry_ok hnode, Checked.ok_bind, Checked.put_ok hseen,
          Checked.ok_bind]
        have hahead := length_ahead_take h.size_eq hx hnode
        exact ih (h.take hnode) (by rw [length_lineUp]; omega)

theorem mark_all (hgraded : Graded nodes) (hroots : ∀ r ∈ roots, r < nodes.size) :
    ∃ seen, mark nodes (markLimit nodes roots) roots.reverse
        (Array.replicate nodes.size false) = .ok seen ∧
      seen.size = nodes.size ∧ ∀ x, seen.getD x false = true ↔ Reached nodes roots x := by
  have hlimit : roots.reverse.length + 2 * (ahead nodes (Array.replicate nodes.size false)).length ≤
      markLimit nodes roots := by
    rw [List.length_reverse, length_ahead_start, markLimit]
  obtain ⟨seen, hmark, hseen⟩ := mark_ok hgraded hroots (marks_start nodes roots) hlimit
  exact ⟨seen, hmark, hseen.size_eq, fun x => hseen.reached_iff⟩

/-- What the roots lead to, by growing distance, and over one distance in the old order. -/
structure OrderOf (nodes : Array Node) (roots order : List Nat) : Prop where
  mem_iff : ∀ x, x ∈ order ↔ Reached nodes roots x
  sorted : order.Pairwise fun x y =>
    span nodes x < span nodes y ∨ span nodes x = span nodes y ∧ x < y

theorem OrderOf.nodup (h : OrderOf nodes roots order) : order.Nodup := by
  refine h.sorted.imp fun {x y} hxy => ?_
  rintro rfl
  omega

theorem span_of_getElem? {node : Node} (h : nodes[x]? = some node) :
    span nodes x = node.label.target - node.label.source := by
  rw [span, h, Option.elim_some]

theorem distance_ok (h : Graded nodes) (hx : x < nodes.size) :
    distance nodes x = .ok (span nodes x) := by
  have hnode := Array.getElem?_eq_getElem hx
  rw [distance, Checked.entry_ok hnode, Checked.ok_bind, Checked.minus_ok (h.ordered x _ hnode),
    span_of_getElem? hnode]

theorem byDistance_ok (hgraded : Graded nodes) (hsize : seen.size = nodes.size)
    (hroots : ∀ r ∈ roots, r < nodes.size)
    (hseen : ∀ x, seen.getD x false = true ↔ Reached nodes roots x) :
    ∃ order, byDistance nodes seen = .ok order ∧ OrderOf nodes roots order := by
  have hmarks : ((List.range nodes.size).mapM fun x => do
      pure (x, ← Checked.entry seen x) : Checked (List (Nat × Bool))) =
        .ok ((List.range nodes.size).map fun x => (x, seen.getD x false)) := by
    refine Checked.mapM_ok fun x hx => ?_
    rw [Checked.entry_getD (hsize ▸ List.mem_range.1 hx) false]
    rfl
  have hkept : ((((List.range nodes.size).map fun x => (x, seen.getD x false)).filter
      (·.2)).map (·.1)) = (List.range nodes.size).filter fun x => seen.getD x false := by
    rw [List.filter_map, List.map_map]
    exact List.map_id _
  have hkeys : (((List.range nodes.size).filter fun x => seen.getD x false).mapM fun x => do
      pure (← distance nodes x, x) : Checked (List (Nat × Nat))) =
        .ok (((List.range nodes.size).filter fun x => seen.getD x false).map fun x =>
          (span nodes x, x)) := by
    refine Checked.mapM_ok fun x hx => ?_
    rw [distance_ok hgraded (List.mem_range.1 (List.mem_filter.1 hx).1)]
    rfl
  refine ⟨_, by rw [byDistance, hmarks, Checked.ok_bind, hkept, hkeys]; rfl, ?_, ?_⟩
  · intro x
    simp only [List.mem_map, List.mem_mergeSort, List.mem_filter, List.mem_range, hseen]
    constructor
    · rintro ⟨_, ⟨y, ⟨-, hy⟩, rfl⟩, rfl⟩
      exact hy
    · intro hx
      exact ⟨_, ⟨x, ⟨hgraded.lt_of_reached hroots hx, hx⟩, rfl⟩, rfl⟩
  · have hold : (((List.range nodes.size).filter fun x => seen.getD x false).map fun x =>
        (span nodes x, x)).Pairwise fun a b => a.2 < b.2 :=
      List.pairwise_map.2 (List.pairwise_lt_range.filter _)
    have htrans : ∀ a b c : Nat × Nat, decide (a.1 ≤ b.1) = true → decide (b.1 ≤ c.1) = true →
        decide (a.1 ≤ c.1) = true := by
      simpa using fun a b c => Nat.le_trans
    have htotal : ∀ a b : Nat × Nat, (decide (a.1 ≤ b.1) || decide (b.1 ≤ a.1)) = true := by
      simpa using fun a b => Nat.le_total a b
    have hties := pairwise_mergeSort_ties htrans htotal hold
    have hspan : ∀ a ∈ ((List.range nodes.size).filter fun x => seen.getD x false).map fun x =>
        (span nodes x, x), a.1 = span nodes a.2 := by
      intro a ha
      obtain ⟨x, -, rfl⟩ := List.mem_map.1 ha
      rfl
    refine List.pairwise_map.2 (hties.imp_of_mem fun {a b} ha hb hab => ?_)
    rw [← hspan a (List.mem_mergeSort.1 ha), ← hspan b (List.mem_mergeSort.1 hb)]
    have hle := of_decide_eq_true hab.1
    rcases Nat.lt_or_eq_of_le hle with hlt | heq
    · exact .inl hlt
    · exact .inr ⟨heq, hab.2 (decide_eq_true heq.ge)⟩

/-- The new number of a node is its place, and parts are placed before the whole. -/
theorem OrderOf.part_lt (h : OrderOf nodes roots order) (hgraded : Graded nodes) (hx : x ∈ order)
    (hy : LeadsTo nodes x y) : y ∈ order ∧ order.idxOf y < order.idxOf x := by
  have hmem : y ∈ order := (h.mem_iff y).2 (((h.mem_iff x).1 hx).part hy)
  have hspan := hgraded.span_lt x y hy
  refine ⟨hmem, Nat.lt_of_not_le fun hle => ?_⟩
  have hne : order.idxOf x ≠ order.idxOf y := by
    intro heq
    rw [(List.idxOf_inj hx).1 heq] at hspan
    exact Nat.lt_irrefl _ hspan
  have hsorted := List.pairwise_iff_getElem.1 h.sorted (order.idxOf x) (order.idxOf y)
    (List.idxOf_lt_length_iff.2 hx) (List.idxOf_lt_length_iff.2 hmem) (by omega)
  rw [List.getElem_idxOf, List.getElem_idxOf] at hsorted
  omega

theorem foldlM_put_zipIdx {map : Array Nat} {size : Nat} (hnodup : order.Nodup)
    (hlt : ∀ x ∈ order, x < size) (hsize : map.size = size) (k : Nat) :
    ∃ map', (order.zipIdx k).foldlM (fun map p => Checked.put map p.1 p.2) map = .ok map' ∧
      map'.size = size ∧ ∀ x < size,
        map'.getD x 0 = if x ∈ order then k + order.idxOf x else map.getD x 0 := by
  induction order generalizing map k with
  | nil => exact ⟨map, rfl, hsize, fun x _ => by simp⟩
  | cons x order ih =>
    obtain ⟨hnew, hnodup⟩ := List.nodup_cons.1 hnodup
    have hx : x < map.size := hsize ▸ hlt x List.mem_cons_self
    have hset : (map.setIfInBounds x k).size = size := by
      rw [Array.size_setIfInBounds, hsize]
    obtain ⟨map', hfold, hsize', hmap⟩ := ih hnodup (fun y hy => hlt y (List.mem_cons_of_mem x hy))
      hset (k + 1)
    refine ⟨map', ?_, hsize', fun y hy => ?_⟩
    · rw [List.zipIdx_cons, List.foldlM_cons, Checked.put_ok hx, Checked.ok_bind]
      exact hfold
    · rw [hmap y hy]
      by_cases hyx : y = x
      · subst hyx
        simp [hnew, hx]
      · have hxy : x ≠ y := fun heq => hyx heq.symm
        by_cases hmem : y ∈ order
        · simp only [hmem, if_true, List.mem_cons, or_true, List.idxOf_cons_ne _ hxy]
          omega
        · simp [hmem, hyx, Array.getElem?_setIfInBounds_ne hxy]

theorem newNumbers_ok {size : Nat} (hnodup : order.Nodup) (hlt : ∀ x ∈ order, x < size) :
    ∃ map, newNumbers size order = .ok map ∧ ∀ x ∈ order, map[x]? = some (order.idxOf x) := by
  have hzeros : (Array.replicate size 0).size = size := Array.size_replicate
  obtain ⟨map, hfold, hsize, hmap⟩ := foldlM_put_zipIdx hnodup hlt hzeros 0
  refine ⟨map, hfold, fun x hx => ?_⟩
  have hx' : x < map.size := hsize ▸ hlt x hx
  have hget := hmap x (hlt x hx)
  rw [if_pos hx, Nat.zero_add] at hget
  rw [← hget, Array.getElem?_eq_getElem hx']
  simp [hx']

def placed (nodes : Array Node) (order : List Nat) (x : Nat) : Node :=
  (nodes.getD x ⟨⟨0, 0, 0⟩, [], []⟩).mapParts order.idxOf

theorem placed_eq {node : Node} (h : nodes[x]? = some node) :
    placed nodes order x = node.mapParts order.idxOf := by
  rw [placed, Array.getD_eq_getD_getElem?, h, Option.getD_some]

theorem addBranch_ok {counts : Array Nat} {b : Nat × Nat} (h : b.1 < counts.size ∧ b.2 < counts.size)
    (n : Nat) :
    addBranch counts n b = .ok (Saturating.add n (Node.branchCount counts b)) := by
  rw [addBranch, Checked.entry_getD h.1 0, Checked.ok_bind, Checked.entry_getD h.2 0]
  rfl

/-- When a node is taken, its parts are counted already. -/
theorem pack_ok (h : OrderOf nodes roots order) (hgraded : Graded nodes) {map : Array Nat}
    (hmap : ∀ x ∈ order, map[x]? = some (order.idxOf x)) {node : Node} (hx : x ∈ order)
    (hnode : nodes[x]? = some node) {left : Array (Option Node)} (hleft : left[x]? = some (some node))
    {taken : List Node} (htaken : taken.length = order.idxOf x) :
    pack map ⟨left, taken.toArray, Node.counted taken⟩ x =
      .ok ⟨left.setIfInBounds x none, (taken ++ [placed nodes order x]).toArray,
        Node.counted (taken ++ [placed nodes order x])⟩ := by
  have hparts : ∀ b ∈ node.branches, (b.1 ∈ order ∧ order.idxOf b.1 < order.idxOf x) ∧
      b.2 ∈ order ∧ order.idxOf b.2 < order.idxOf x := fun b hb =>
    ⟨h.part_lt hgraded hx ⟨node, hnode, b, hb, .inl rfl⟩,
      h.part_lt hgraded hx ⟨node, hnode, b, hb, .inr rfl⟩⟩
  have hbranches : (node.branches.mapM fun b => do
      pure (← Checked.entry map b.1, ← Checked.entry map b.2) : Checked (List (Nat × Nat))) =
        .ok (placed nodes order x).branches := by
    rw [placed_eq hnode]
    refine Checked.mapM_ok fun b hb => ?_
    obtain ⟨⟨hl, -⟩, hr, -⟩ := hparts b hb
    rw [Checked.entry_ok (hmap _ hl), Checked.ok_bind, Checked.entry_ok (hmap _ hr)]
    rfl
  have hcounted : ∀ b ∈ (placed nodes order x).branches,
      b.1 < (Node.counted taken).size ∧ b.2 < (Node.counted taken).size := by
    intro b hb
    rw [placed_eq hnode] at hb
    obtain ⟨b, hmem, rfl⟩ := List.mem_map.1 hb
    rw [Node.size_counted, htaken]
    exact ⟨(hparts b hmem).1.2, (hparts b hmem).2.2⟩
  have hcount : (placed nodes order x).branches.foldlM (addBranch (Node.counted taken))
      node.leaves.length = .ok ((placed nodes order x).count (Node.counted taken)) := by
    rw [Checked.foldlM_ok fun n b hb => addBranch_ok (hcounted b hb) n, Node.count, placed_eq hnode]
    rfl
  have hlt : x < left.size := (Array.getElem?_eq_some_iff.1 hleft).1
  rw [pack, Checked.entry_ok hleft, Checked.ok_bind]
  simp only [Checked.put_ok hlt, hbranches, hcount, Checked.ok_bind]
  rw [Node.counted_append, placed_eq hnode]
  simp only [Checked.pure_eq_ok, List.push_toArray]
  rfl

theorem foldlM_pack_ok (h : OrderOf nodes roots order) (hgraded : Graded nodes) {map : Array Nat}
    (hmap : ∀ x ∈ order, map[x]? = some (order.idxOf x)) {taken rest : List Nat}
    (hsplit : order = taken ++ rest) {left : Array (Option Node)}
    (hleft : ∀ x ∈ rest, ∃ node, nodes[x]? = some node ∧ left[x]? = some (some node)) :
    ∃ left', rest.foldlM (pack map)
      ⟨left, (taken.map (placed nodes order)).toArray,
        Node.counted (taken.map (placed nodes order))⟩ =
      .ok ⟨left', (order.map (placed nodes order)).toArray,
        Node.counted (order.map (placed nodes order))⟩ := by
  induction rest generalizing taken left with
  | nil =>
    rw [List.append_nil] at hsplit
    exact ⟨left, by rw [hsplit]; rfl⟩
  | cons x rest ih =>
    obtain ⟨node, hnode, hx⟩ := hleft x List.mem_cons_self
    have hmem : x ∈ order := hsplit ▸ List.mem_append_right _ List.mem_cons_self
    have hnodup := h.nodup
    rw [hsplit, List.nodup_append, List.nodup_cons] at hnodup
    have hnew : x ∉ taken := fun hx => hnodup.2.2 x hx x List.mem_cons_self rfl
    have hplace : (taken.map (placed nodes order)).length = order.idxOf x := by
      rw [List.length_map, hsplit, List.idxOf_append_of_notMem hnew, List.idxOf_cons_self,
        Nat.add_zero]
    rw [List.foldlM_cons, pack_ok h hgraded hmap hmem hnode hx hplace, Checked.ok_bind,
      ← List.map_singleton, ← List.map_append]
    refine ih (by rw [hsplit, List.append_assoc]; rfl) fun y hy => ?_
    obtain ⟨node', hnode', hy'⟩ := hleft y (List.mem_cons_of_mem x hy)
    have hne : x ≠ y := by
      rintro rfl
      exact hnodup.2.1.1 hy
    exact ⟨node', hnode', by rw [Array.getElem?_setIfInBounds_ne hne]; exact hy'⟩

/-- Nodes whose parts are over lesser distances can be put in order: every look-up finds what it
looks for. -/
theorem compact_ok (hgraded : Graded nodes) (hroots : ∀ r ∈ roots, r < nodes.size) :
    ∃ order, OrderOf nodes roots order ∧ compact nodes roots = .ok
      ⟨(order.map (placed nodes order)).toArray,
        sortedDistinct (· ≤ ·) (roots.map order.idxOf),
        Node.counted (order.map (placed nodes order))⟩ := by
  obtain ⟨seen, hmark, hsize, hseen⟩ := mark_all hgraded hroots
  obtain ⟨order, horder, h⟩ := byDistance_ok hgraded hsize hroots hseen
  have hlt : ∀ x ∈ order, x < nodes.size := fun x hx =>
    hgraded.lt_of_reached hroots ((h.mem_iff x).1 hx)
  obtain ⟨map, hnumbers, hmap⟩ := newNumbers_ok h.nodup hlt
  have hleft : ∀ x ∈ order, ∃ node, nodes[x]? = some node ∧
      (nodes.map some)[x]? = some (some node) := by
    intro x hx
    have hnode := Array.getElem?_eq_getElem (hlt x hx)
    exact ⟨_, hnode, by rw [Array.getElem?_map, hnode, Option.map_some]⟩
  obtain ⟨left, hpack⟩ := foldlM_pack_ok h hgraded hmap (List.nil_append order).symm hleft
  have hrenamed : roots.mapM (Checked.entry map) = .ok (roots.map order.idxOf) :=
    Checked.mapM_ok fun r hr => Checked.entry_ok (hmap r ((h.mem_iff r).2 ⟨r, hr, .refl⟩))
  refine ⟨order, h, ?_⟩
  rw [compact, hmark, Checked.ok_bind, horder, Checked.ok_bind, hnumbers, Checked.ok_bind]
  have hpack' : order.foldlM (pack map) ⟨nodes.map some, #[], #[]⟩ = _ := hpack
  rw [hpack', Checked.ok_bind, hrenamed]
  rfl

/-- A forest holds what the roots lead to, each node once and as before, but for the numbers of its
parts: `order` lists the old numbers in the order of the new. -/
structure Compacts (nodes : Array Node) (roots : List Nat) (out : RawForest) (order : List Nat) :
    Prop where
  nodup : order.Nodup
  mem_iff : ∀ x, x ∈ order ↔ Reached nodes roots x
  size_eq : out.nodes.size = order.length
  node_eq : ∀ (i x : Nat), order[i]? = some x → ∃ node, nodes[x]? = some node ∧
    out.nodes[i]? = some (node.mapParts order.idxOf)
  part_mem : ∀ x ∈ order, ∀ y, LeadsTo nodes x y → y ∈ order
  child_lt : ∀ (i : Nat) (node : Node), out.nodes[i]? = some node →
    ∀ b ∈ node.branches, b.1 < i ∧ b.2 < i
  roots_ascending : out.roots.Pairwise (· < ·)
  mem_roots : ∀ i, i ∈ out.roots ↔ ∃ r ∈ roots, order.idxOf r = i
  root_lt : ∀ i ∈ out.roots, i < out.nodes.size
  counts_eq : out.counts = Node.countAll out.nodes

theorem compacts_of_order (hgraded : Graded nodes) (hroots : ∀ r ∈ roots, r < nodes.size)
    (h : OrderOf nodes roots order) :
    Compacts nodes roots ⟨(order.map (placed nodes order)).toArray,
      sortedDistinct (· ≤ ·) (roots.map order.idxOf),
      Node.counted (order.map (placed nodes order))⟩ order := by
  have hnode : ∀ (i x : Nat), order[i]? = some x → ∃ node, nodes[x]? = some node ∧
      (order.map (placed nodes order)).toArray[i]? = some (node.mapParts order.idxOf) := by
    intro i x hx
    have hlt := hgraded.lt_of_reached hroots ((h.mem_iff x).1 (List.mem_of_getElem? hx))
    have hget := Array.getElem?_eq_getElem hlt
    refine ⟨nodes[x], hget, ?_⟩
    rw [List.getElem?_toArray, List.getElem?_map, hx, Option.map_some, placed_eq hget]
  refine ⟨h.nodup, h.mem_iff, by simp, hnode, fun x hx y hy => (h.part_lt hgraded hx hy).1,
    fun i node hi b hb => ?_, ascending_sortedDistinct _, fun i => ?_, fun i hi => ?_, ?_⟩
  · have hsize := (Array.getElem?_eq_some_iff.1 hi).1
    rw [List.size_toArray, List.length_map] at hsize
    have hx : order[i]? = some order[i] := List.getElem?_eq_getElem hsize
    obtain ⟨old, hold, hnew⟩ := hnode i _ hx
    obtain rfl := Option.some.inj (hi.symm.trans hnew)
    obtain ⟨b, hmem, rfl⟩ := List.mem_map.1 hb
    have hplace : order.idxOf order[i] = i := h.nodup.idxOf_getElem i hsize
    have hl := (h.part_lt hgraded (List.getElem_mem hsize) ⟨old, hold, b, hmem, .inl rfl⟩).2
    have hr := (h.part_lt hgraded (List.getElem_mem hsize) ⟨old, hold, b, hmem, .inr rfl⟩).2
    rw [hplace] at hl hr
    exact ⟨hl, hr⟩
  · rw [mem_sortedDistinct, List.mem_map]
  · rw [mem_sortedDistinct, List.mem_map] at hi
    obtain ⟨r, hr, rfl⟩ := hi
    rw [List.size_toArray, List.length_map]
    exact List.idxOf_lt_length_iff.2 ((h.mem_iff r).2 ⟨r, hr, .refl⟩)
  · rw [Node.countAll_eq]

end Compaction

end GrammarRepair
