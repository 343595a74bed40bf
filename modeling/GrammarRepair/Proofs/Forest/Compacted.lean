import GrammarRepair.Proofs.Forest.Below
import GrammarRepair.Proofs.Forest.Gathered

/-!
Forests made in the order of gathering. The gathered nodes and those of an arena are the same but for
their numbers, and so is what the roots lead to; sorted by distance it has one order only. Main
statement: whatever template is used, the gathered nodes that the roots lead to are put in order, each
once, with smaller numbers for parts and nothing changed but the numbers, and they are the forest.
-/

namespace GrammarRepair

theorem idxOf_map_of_injOn {α β : Type} [DecidableEq α] [DecidableEq β] {f : α → β} {xs : List α}
    {x : α} (h : ∀ y ∈ xs, f y = f x → y = x) : (xs.map f).idxOf (f x) = xs.idxOf x := by
  induction xs with
  | nil => rfl
  | cons y xs ih =>
    rw [List.map_cons]
    by_cases hy : y = x
    · subst hy
      rw [List.idxOf_cons_self, List.idxOf_cons_self]
    · have hne : f y ≠ f x := fun heq => hy (h y List.mem_cons_self heq)
      rw [List.idxOf_cons_ne _ hne, List.idxOf_cons_ne _ hy,
        ih fun z hz => h z (List.mem_cons_of_mem y hz)]

namespace Constituent

variable {g : Grammar} {aut : Automaton} {allowed inside : Constituent → Bool} {t u : Constituent}

/-- What is made up of tokens and of parts that are made up so, all of them allowed. -/
inductive Made (g : Grammar) (aut : Automaton) (allowed : Constituent → Bool) : Constituent → Prop
  | token {t : Constituent} (ht : t.IsToken g aut) (hallowed : allowed t = true) :
    Made g aut allowed t
  | parts {t : Constituent} {b c m : Nat} (hpair : (t.rule, b, c) ∈ g.pairs)
    (hm : m ∈ aut.reach.midpoints t.source t.target) (hallowed : allowed t = true)
    (hl : Made g aut allowed ⟨t.source, b, m⟩) (hr : Made g aut allowed ⟨m, c, t.target⟩) :
    Made g aut allowed t

open Classical in
noncomputable def isMade (g : Grammar) (aut : Automaton) (allowed : Constituent → Bool)
    (t : Constituent) : Bool :=
  decide (Made g aut allowed t)

theorem isMade_iff : isMade g aut allowed t = true ↔ Made g aut allowed t := by simp [isMade]

theorem partsOf_isMade_ne_nil_iff : partsOf g aut (isMade g aut allowed) t ≠ [] ↔
    ∃ b c m, (t.rule, b, c) ∈ g.pairs ∧ m ∈ aut.reach.midpoints t.source t.target ∧
      Made g aut allowed ⟨t.source, b, m⟩ ∧ Made g aut allowed ⟨m, c, t.target⟩ := by
  constructor
  · intro hne
    obtain ⟨p, hp⟩ := List.exists_mem_of_ne_nil _ hne
    simp only [partsOf, List.mem_flatMap, List.mem_filter, beq_iff_eq] at hp
    obtain ⟨⟨a, b, c⟩, ⟨hpair, rfl⟩, hmem⟩ := hp
    obtain ⟨m, hm, hl, hr, hmadel, hmader⟩ := mem_partsOver.1 (show (p.1, p.2) ∈ _ from hmem)
    rw [hl, isMade_iff] at hmadel
    rw [hr, isMade_iff] at hmader
    exact ⟨b, c, m, hpair, hm, hmadel, hmader⟩
  · rintro ⟨b, c, m, hpair, hm, hl, hr⟩
    have hover : ((⟨t.source, b, m⟩, ⟨m, c, t.target⟩) : Constituent × Constituent) ∈
        partsOver (isMade g aut allowed) (visit aut t) (t.rule, b, c) :=
      mem_partsOver.2 ⟨m, hm, rfl, rfl, isMade_iff.2 hl, isMade_iff.2 hr⟩
    exact List.ne_nil_of_mem (List.mem_flatMap.2
      ⟨(t.rule, b, c), List.mem_filter.2 ⟨hpair, beq_iff_eq.2 rfl⟩, hover⟩)

theorem admits_isMade (g : Grammar) (aut : Automaton) (allowed : Constituent → Bool) :
    Admits g aut (isMade g aut allowed) allowed := by
  intro t
  rw [isMade_iff, partsOf_isMade_ne_nil_iff]
  constructor
  · rintro (⟨ht, hallowed⟩ | ⟨hpair, hm, hallowed, hl, hr⟩)
    · exact ⟨hallowed, .inl ht⟩
    · exact ⟨hallowed, .inr ⟨_, _, _, hpair, hm, hl, hr⟩⟩
  · rintro ⟨hallowed, ht | ⟨b, c, m, hpair, hm, hl, hr⟩⟩
    · exact .token ht hallowed
    · exact .parts hpair hm hallowed hl hr

end Constituent

open Constituent Compaction

variable {g : Grammar} {aut : Automaton} {allowed inside : Constituent → Bool} {nodes : Array Node}
  {ls starts kept : List Constituent} {t u : Constituent} {x : Nat}

namespace Spells

theorem span_eq (h : Spells g aut inside nodes ls) (ht : t ∈ ls) :
    span nodes (ls.idxOf t) = t.target - t.source :=
  span_of_getElem? (h.getElem?_nodes ht)

theorem graded (h : Spells g aut inside nodes ls) (hlt : ∀ t ∈ ls, t.source < t.target) :
    Graded nodes := by
  have hpart : ∀ x y, LeadsTo nodes x y → ∃ t ∈ ls, ∃ u ∈ ls, HasInside g aut inside t u ∧
      x = ls.idxOf t ∧ y = ls.idxOf u := by
    intro x y hxy
    have hx : x < nodes.size := by
      obtain ⟨node, hnode, -⟩ := hxy
      exact (Array.getElem?_eq_some_iff.1 hnode).1
    obtain ⟨t, ht, rfl⟩ := h.exists_idxOf hx
    obtain ⟨u, hu, rfl⟩ := (h.leadsTo_iff ht).1 hxy
    exact ⟨t, ht, u, h.parts_mem t ht u hu, hu, rfl, rfl⟩
  refine ⟨fun x node hnode => ?_, fun x y hxy => ?_, fun x y hxy => ?_⟩
  · obtain ⟨t, ht, rfl⟩ := h.exists_idxOf (Array.getElem?_eq_some_iff.1 hnode).1
    obtain rfl := Option.some.inj ((h.getElem?_nodes ht).symm.trans hnode)
    exact Nat.le_of_lt (hlt t ht)
  · obtain ⟨t, -, u, hu, -, -, rfl⟩ := hpart x y hxy
    rw [h.size_eq]
    exact List.idxOf_lt_length_iff.2 hu
  · obtain ⟨t, ht, u, hu, ⟨p, hp, hor⟩, rfl, rfl⟩ := hpart x y hxy
    rw [h.span_eq ht, h.span_eq hu]
    obtain ⟨⟨hl, -⟩, hr, -⟩ := of_mem_partsOf (show (p.1, p.2) ∈ _ from hp)
    rcases hor with rfl | rfl
    · exact hl
    · exact hr

end Spells

/-- The constituents that the roots lead to, by growing distance and in the order of a list. -/
structure Keeps (g : Grammar) (aut : Automaton) (inside : Constituent → Bool)
    (starts ls kept : List Constituent) : Prop where
  mem_iff : ∀ t, t ∈ kept ↔ Below g aut inside starts t
  sorted : kept.Pairwise (Gathering.Before ls)

theorem Keeps.unique {kept' : List Constituent} (h : Keeps g aut inside starts ls kept)
    (h' : Keeps g aut inside starts ls kept') : kept = kept' := by
  refine eq_of_ascending (fun t u htu hut => ?_) h.sorted h'.sorted fun t =>
    (h.mem_iff t).trans (h'.mem_iff t).symm
  unfold Gathering.Before at htu hut
  omega

def rawOf (g : Grammar) (aut : Automaton) (inside : Constituent → Bool)
    (starts kept : List Constituent) : RawForest :=
  ⟨(kept.map (Arena.nodeOf g aut inside kept)).toArray,
    sortedDistinct (· ≤ ·) (starts.map kept.idxOf),
    Node.counted (kept.map (Arena.nodeOf g aut inside kept))⟩

namespace Spells

theorem exists_keeps (h : Spells g aut inside nodes ls) (hstarts : ∀ s ∈ starts, s ∈ ls)
    (hlt : ∀ t ∈ ls, t.source < t.target) {order : List Nat}
    (horder : OrderOf nodes (starts.map ls.idxOf) order) :
    ∃ kept, Keeps g aut inside starts ls kept ∧ order = kept.map ls.idxOf := by
  have hplace : ∀ x ∈ order, ∃ t ∈ ls, x = ls.idxOf t := fun x hx =>
    h.exists_idxOf ((h.graded hlt).lt_of_reached (h.starts_lt hstarts) ((horder.mem_iff x).1 hx))
  have hget : ∀ t ∈ ls, ls.getD (ls.idxOf t) ⟨0, 0, 0⟩ = t := by
    intro t ht
    rw [List.getD_eq_getElem?_getD, List.getElem?_idxOf ht, Option.getD_some]
  refine ⟨order.map fun x => ls.getD x ⟨0, 0, 0⟩, ⟨fun t => ?_, ?_⟩, ?_⟩
  · rw [List.mem_map]
    constructor
    · rintro ⟨x, hx, rfl⟩
      obtain ⟨t, ht, rfl⟩ := hplace x hx
      rw [hget t ht]
      exact (h.reached_iff hstarts ht).1 ((horder.mem_iff _).1 hx)
    · intro ht
      have hmem := h.below_mem hstarts ht
      exact ⟨ls.idxOf t, (horder.mem_iff _).2 ((h.reached_iff hstarts hmem).2 ht), hget t hmem⟩
  · refine List.pairwise_map.2 (horder.sorted.imp_of_mem fun {x y} hx hy hxy => ?_)
    obtain ⟨t, ht, rfl⟩ := hplace x hx
    obtain ⟨u, hu, rfl⟩ := hplace y hy
    rwa [h.span_eq ht, h.span_eq hu, ← hget t ht, ← hget u hu] at hxy
  · rw [List.map_map]
    refine ((List.map_congr_left fun x hx => ?_).trans (List.map_id order)).symm
    obtain ⟨t, ht, rfl⟩ := hplace x hx
    rw [Function.comp_apply, hget t ht]
    rfl

theorem placed_eq (h : Spells g aut inside nodes ls) (hstarts : ∀ s ∈ starts, s ∈ ls)
    (hkept : Keeps g aut inside starts ls kept) (ht : t ∈ kept) :
    placed nodes (kept.map ls.idxOf) (ls.idxOf t) = Arena.nodeOf g aut inside kept t := by
  have hmem : ∀ u ∈ kept, u ∈ ls := fun u hu => h.below_mem hstarts ((hkept.mem_iff u).1 hu)
  have hplace : ∀ u, (kept.map ls.idxOf).idxOf (ls.idxOf u) = kept.idxOf u := fun u =>
    idxOf_map_of_injOn fun y hy heq => (List.idxOf_inj (hmem y hy)).1 heq
  rw [Compaction.placed_eq (h.getElem?_nodes (hmem t ht)), Node.mapParts, Arena.nodeOf,
    Arena.nodeOf]
  simp only [List.map_map, Function.comp_def, hplace]

/-- Putting nodes in order makes the forest of what is kept. -/
theorem compact_ok (h : Spells g aut inside nodes ls) (hstarts : ∀ s ∈ starts, s ∈ ls)
    (hlt : ∀ t ∈ ls, t.source < t.target) :
    ∃ kept, Keeps g aut inside starts ls kept ∧
      compact nodes (starts.map ls.idxOf) = .ok (rawOf g aut inside starts kept) := by
  obtain ⟨order, horder, hcompact⟩ :=
    Compaction.compact_ok (h.graded hlt) (h.starts_lt hstarts)
  obtain ⟨kept, hkept, rfl⟩ := h.exists_keeps hstarts hlt horder
  have hmem : ∀ u ∈ kept, u ∈ ls := fun u hu => h.below_mem hstarts ((hkept.mem_iff u).1 hu)
  have hnodes : (kept.map ls.idxOf).map (placed nodes (kept.map ls.idxOf)) =
      kept.map (Arena.nodeOf g aut inside kept) := by
    rw [List.map_map]
    exact List.map_congr_left fun t ht => h.placed_eq hstarts hkept ht
  have hstartsplace : (starts.map ls.idxOf).map (kept.map ls.idxOf).idxOf =
      starts.map kept.idxOf := by
    rw [List.map_map]
    exact List.map_congr_left fun s _ =>
      idxOf_map_of_injOn fun y hy heq => (List.idxOf_inj (hmem y hy)).1 heq
  rw [hnodes, hstartsplace] at hcompact
  exact ⟨kept, hkept, hcompact⟩

end Spells

theorem Arena.Lists.raw_ofArena {a : Arena} (h : a.Lists g aut inside ls)
    (hstarts : ∀ s ∈ starts, s ∈ ls) :
    (Forest.ofArena a (starts.map ls.idxOf)).raw =
      rawOf g aut inside starts (Arena.keptOf g aut inside starts ls) := by
  have hnodes := h.nodes_ofArena hstarts
  rw [Forest.raw, rawOf, RawForest.mk.injEq, ← hnodes, Array.toArray_toList, Forest.counts_eq,
    Node.countAll_eq]
  exact ⟨rfl, h.roots_ofArena hstarts, rfl⟩

namespace Gathering

variable {s : Gathering}

theorem Holds.spells (hadmits : Admits g aut inside allowed) (h : s.Holds (findings g aut inside)) :
    Spells g aut inside s.nodes (labels (findings g aut inside)) where
  nodup := nodup_labels _
  nodes_eq := by
    rw [h.nodes_eq]
    exact List.map_congr_left fun t ht =>
      nodeFrom_findings ((mem_labels_findings hadmits).1 ht) _
  parts_mem := by
    rintro t - u ⟨p, hp, hu⟩
    obtain ⟨⟨-, hl⟩, -, hr⟩ := of_mem_partsOf (show (p.1, p.2) ∈ _ from hp)
    rw [mem_labels_findings hadmits]
    rcases hu with rfl | rfl
    · exact hl
    · exact hr

theorem startLabels_subset (hadmits : Admits g aut inside allowed) :
    ∀ t ∈ startLabels g aut inside, t ∈ labels (findings g aut inside) := fun _ ht =>
  (mem_labels_findings hadmits).2 (mem_startLabels.1 ht).1

theorem Holds.starts_eq (hadmits : Admits g aut inside allowed)
    (h : s.Holds (findings g aut inside)) :
    s.starts g aut = (startLabels g aut inside).map (labels (findings g aut inside)).idxOf :=
  numbers_startLabels h.numbers_eq fun _ => mem_labels_findings hadmits

theorem Holds.graded (hadmits : Admits g aut inside allowed) (h : s.Holds (findings g aut inside)) :
    Graded s.nodes :=
  (h.spells hadmits).graded fun _ ht => (hadmits.lt ((mem_labels_findings hadmits).1 ht)).1

theorem Holds.starts_lt (hadmits : Admits g aut inside allowed)
    (h : s.Holds (findings g aut inside)) : ∀ r ∈ s.starts g aut, r < s.nodes.size := by
  rw [h.starts_eq hadmits]
  exact (h.spells hadmits).starts_lt (startLabels_subset hadmits)

theorem Holds.compact_eq (hadmits : Admits g aut inside allowed)
    (h : s.Holds (findings g aut inside)) :
    compact s.nodes (s.starts g aut) = .ok (Forest.ofArena (Arena.grow g aut allowed)
      ((Arena.grow g aut allowed).starts g aut)).raw := by
  have hlists := Arena.lists_grow hadmits
  have hstarts : ∀ t ∈ startLabels g aut inside, t ∈ creationOrder g aut inside := fun t ht =>
    hadmits.mem_creationOrder.2 (mem_startLabels.1 ht).1
  obtain ⟨kept, hkept, hcompact⟩ := (h.spells hadmits).compact_ok
    (startLabels_subset hadmits) fun t ht => (hadmits.lt ((mem_labels_findings hadmits).1 ht)).1
  have harena : Keeps g aut inside (startLabels g aut inside) (labels (findings g aut inside))
      (Arena.keptOf g aut inside (startLabels g aut inside) (creationOrder g aut inside)) :=
    ⟨fun t => hlists.mem_keptOf hstarts, (pairwise_creationOrder hadmits).filter _⟩
  rw [h.starts_eq hadmits, hlists.starts_eq fun t => hadmits.mem_creationOrder,
    hlists.raw_ofArena hstarts, ← hkept.unique harena]
  exact hcompact

end Gathering

open Gathering

/-- Whatever template is used, gathering finds the parts that it looks up, and the gathered nodes can
be put in order: those that the roots lead to are kept, each once, with nothing changed but the
numbers of parts, which are smaller than their own; the roots are ascending, and every node is
counted and has a derivation. What comes out is the forest, where one is found. -/
theorem gathered_nodes_compact (g : Grammar) (aut : Automaton) (template : Option Chart) :
    ∃ s out order, gather g aut (allowedBy template) = .ok s ∧
      compact s.nodes (s.starts g aut) = .ok out ∧
      Compacts s.nodes (s.starts g aut) out order ∧
      (∀ i < out.nodes.size, ∃ n, out.counts[i]? = some n ∧ 1 ≤ n) ∧
      ∀ f, (forest g aut template).value = .ok (some f) → f.raw = out := by
  have hadmits := admits_isMade g aut (allowedBy template)
  obtain ⟨s, hgather, h⟩ := gather_ok hadmits
  have hgraded := h.graded hadmits
  have hroots := h.starts_lt hadmits
  obtain ⟨order, horder, hcompact⟩ := Compaction.compact_ok hgraded hroots
  have hout := Except.ok.inj (hcompact.symm.trans (h.compact_eq hadmits))
  have hcompacts := compacts_of_order hgraded hroots horder
  have hstarts : ∀ r ∈ (Arena.grow g aut (allowedBy template)).starts g aut,
      r < (Arena.grow g aut (allowedBy template)).nodes.size := fun r hr => Arena.starts_lt hr
  have hlive := Forest.live_ofArena (Arena.productive_grow g aut (allowedBy template)) hstarts
  rw [hout] at hcompact hcompacts
  refine ⟨s, _, order, hgather, hcompact, hcompacts, fun i hi => ?_, fun f hf => ?_⟩
  · have hcount := hlive.one_le_counts hi
    have hlt : i < (Forest.ofArena (Arena.grow g aut (allowedBy template))
        ((Arena.grow g aut (allowedBy template)).starts g aut)).counts.size := by
      rw [Forest.size_counts]
      exact hi
    exact ⟨_, Array.getElem?_eq_getElem hlt, by simpa [hlt] using hcount⟩
  · rw [Forest.eq_ofArena_of_forest hf]

end GrammarRepair
