import GrammarRepair.Automaton.Basic
import Mathlib.Data.List.Basic

/-!
What an automaton accepts: the strings along the paths from its initial to its final states. For an
automaton made from labelled transitions the paths between labels may be followed instead.
-/

namespace GrammarRepair

namespace Automaton

variable {aut : Automaton} {p q : Nat} {v w : List Nat}

theorem path_nil_iff : aut.Path p [] q ↔ p = q := by
  constructor
  · rintro ⟨⟩
    rfl
  · rintro rfl
    exact .stop p

theorem path_cons_iff {t : Nat} : aut.Path p (t :: w) q ↔
    ∃ e ∈ aut.edges, e.source = p ∧ e.token = t ∧ aut.Path e.target w q := by
  constructor
  · rintro (_ | ⟨he, h⟩)
    exact ⟨_, he, rfl, rfl, h⟩
  · rintro ⟨e, he, rfl, rfl, h⟩
    exact .step he h

theorem path_append_iff : aut.Path p (v ++ w) q ↔ ∃ r, aut.Path p v r ∧ aut.Path r w q := by
  constructor
  · intro h
    induction v generalizing p with
    | nil => exact ⟨p, .stop p, h⟩
    | cons t v ih =>
      rw [List.cons_append, path_cons_iff] at h
      obtain ⟨e, he, rfl, rfl, h⟩ := h
      obtain ⟨r, hv, hw⟩ := ih h
      exact ⟨r, .step he hv, hw⟩
  · rintro ⟨r, hv, hw⟩
    exact hv.append hw

theorem Path.lt (h : aut.Path p w q) (hw : w ≠ []) : p < q := by
  have hlength := h.add_length_le
  have hpos := List.length_pos_iff.2 hw
  omega

theorem Path.target_lt (h : aut.Path p w q) (hw : w ≠ []) : q < aut.stateCount := by
  induction h with
  | stop p => exact absurd rfl hw
  | @step e w q he h ih =>
    cases w with
    | nil =>
      obtain rfl := path_nil_iff.1 h
      exact aut.target_lt e he
    | cons t w => exact ih (List.cons_ne_nil t w)

theorem has_advance {states : NatSet} {t : Nat} : (aut.advance states t).has q = true ↔
    ∃ e ∈ aut.edges, e.token = t ∧ states.has e.source = true ∧ e.target = q := by
  have hfold : ∀ (es : List Edge) (next : NatSet), (es.foldl (fun next e =>
      if e.token == t && states.has e.source then next.insert e.target else next) next).has q =
        true ↔ next.has q = true ∨
          ∃ e ∈ es, e.token = t ∧ states.has e.source = true ∧ e.target = q := by
    intro es
    induction es with
    | nil => simp
    | cons e es ih =>
      intro next
      rw [List.foldl_cons, ih]
      by_cases h : e.token = t ∧ states.has e.source = true
      · simp [h, or_assoc]
      · have hf : (e.token == t && states.has e.source) = false := by simpa using h
        have hne : ¬ (e.token = t ∧ states.has e.source = true ∧ e.target = q) :=
          fun he => h ⟨he.1, he.2.1⟩
        simp [hf, hne]
  rw [advance, hfold]
  simp

theorem has_foldl_advance {states : NatSet} : (w.foldl aut.advance states).has q = true ↔
    ∃ p, states.has p = true ∧ aut.Path p w q := by
  induction w generalizing states with
  | nil => simp [path_nil_iff]
  | cons t w ih =>
    simp only [List.foldl_cons, ih, has_advance, path_cons_iff]
    constructor
    · rintro ⟨_, ⟨e, he, rfl, hs, rfl⟩, h⟩
      exact ⟨e.source, hs, e, he, rfl, rfl, h⟩
    · rintro ⟨_, hs, e, he, rfl, rfl, h⟩
      exact ⟨e.target, ⟨e, he, rfl, hs, rfl⟩, h⟩

theorem accepts_iff : aut.accepts w = true ↔
    ∃ p ∈ aut.initials, ∃ q ∈ aut.finals, aut.Path p w q := by
  simp only [accepts, List.any_eq_true, has_foldl_advance, NatSet.has_ofList, decide_eq_true_eq]
  constructor
  · rintro ⟨q, hq, p, hp, h⟩
    exact ⟨p, hp, q, hq, h⟩
  · rintro ⟨p, hp, q, hq, h⟩
    exact ⟨q, hq, p, hp, h⟩

end Automaton

/-- `Transition.Path ts l w m`: reading `w` along the transitions can lead from `l` to `m`. -/
inductive Transition.Path (ts : List Transition) : Label → List Nat → Label → Prop
  | stop (l : Label) : Path ts l [] l
  | step {t : Transition} {w : List Nat} {m : Label} (ht : t ∈ ts) (h : Path ts t.target w m) :
      Path ts t.source (t.token :: w) m

namespace Automaton

section OfOrder

variable {order : List Label} {ts : List Transition} {initials finals : List Label}
  (hnodup : order.Nodup) (hforward : Transition.Forward ts order)
  (hinitials : ∀ l ∈ initials, l ∈ order) (hfinals : ∀ l ∈ finals, l ∈ order)

theorem mem_edges_ofOrder {e : Edge} :
    e ∈ (ofOrder order ts initials finals hnodup hforward hinitials hfinals).edges ↔
      ∃ t ∈ ts, ⟨order.idxOf t.source, t.token, order.idxOf t.target⟩ = e := by
  simp [ofOrder]

theorem label_ofOrder {l : Label} (hl : l ∈ order) :
    (ofOrder order ts initials finals hnodup hforward hinitials hfinals).label (order.idxOf l) =
      l := by
  have hlt := List.idxOf_lt_length_iff.2 hl
  simp [label, ofOrder, hlt]

include hforward in
theorem source_mem_of_forward {t : Transition} (ht : t ∈ ts) : t.source ∈ order := by
  obtain ⟨hmem, hlt⟩ := hforward t ht
  have htarget := List.idxOf_lt_length_iff.2 hmem
  exact List.idxOf_lt_length_iff.1 (Nat.lt_trans hlt htarget)

/-- Numbers stand for labels: paths between numbers are paths between labels. -/
theorem path_ofOrder_iff {l m : Label} {w : List Nat} (hl : l ∈ order) (hm : m ∈ order) :
    (ofOrder order ts initials finals hnodup hforward hinitials hfinals).Path (order.idxOf l) w
      (order.idxOf m) ↔ Transition.Path ts l w m := by
  constructor
  · intro h
    induction w generalizing l with
    | nil =>
      obtain rfl := (List.idxOf_inj hl).1 (path_nil_iff.1 h)
      exact .stop l
    | cons t w ih =>
      obtain ⟨e, he, hsource, rfl, hrest⟩ := path_cons_iff.1 h
      obtain ⟨t, ht, rfl⟩ := (mem_edges_ofOrder hnodup hforward hinitials hfinals).1 he
      obtain rfl := (List.idxOf_inj (source_mem_of_forward hforward ht)).1 hsource
      exact .step ht (ih (hforward t ht).1 hrest)
  · intro h
    induction h with
    | stop l => exact .stop _
    | step ht h ih =>
      have he := (mem_edges_ofOrder hnodup hforward hinitials hfinals).2 ⟨_, ht, rfl⟩
      exact .step he (ih (hforward _ ht).1 hm)

theorem accepts_ofOrder_iff {w : List Nat} :
    (ofOrder order ts initials finals hnodup hforward hinitials hfinals).accepts w = true ↔
      ∃ l ∈ initials, ∃ m ∈ finals, Transition.Path ts l w m := by
  rw [accepts_iff]
  simp only [ofOrder, mem_sortedDistinct, List.mem_map]
  constructor
  · rintro ⟨_, ⟨l, hl, rfl⟩, _, ⟨m, hm, rfl⟩, h⟩
    exact ⟨l, hl, m, hm, (path_ofOrder_iff hnodup hforward hinitials hfinals (hinitials l hl)
      (hfinals m hm)).1 h⟩
  · rintro ⟨l, hl, m, hm, h⟩
    exact ⟨_, ⟨l, hl, rfl⟩, _, ⟨m, hm, rfl⟩, (path_ofOrder_iff hnodup hforward hinitials hfinals
      (hinitials l hl) (hfinals m hm)).2 h⟩

theorem isGrid_ofOrder_iff :
    (ofOrder order ts initials finals hnodup hforward hinitials hfinals).isGrid = true ↔
      (∀ l ∈ order, l.isGrid = true) ∧ ∀ t ∈ ts, t.source.dominates t.target = true := by
  have hlabels : (ofOrder order ts initials finals hnodup hforward hinitials hfinals).labels =
      order.toArray := rfl
  rw [isGrid, Bool.and_eq_true, List.all_eq_true, hlabels, List.all_toArray, List.all_eq_true]
  refine and_congr_right fun _ => ⟨fun h t ht => ?_, fun h e he => ?_⟩
  · have he := h _ ((mem_edges_ofOrder hnodup hforward hinitials hfinals).2 ⟨t, ht, rfl⟩)
    rwa [label_ofOrder _ _ _ _ (source_mem_of_forward hforward ht),
      label_ofOrder _ _ _ _ (hforward t ht).1] at he
  · obtain ⟨t, ht, rfl⟩ := (mem_edges_ofOrder hnodup hforward hinitials hfinals).1 he
    rw [label_ofOrder _ _ _ _ (source_mem_of_forward hforward ht),
      label_ofOrder _ _ _ _ (hforward t ht).1]
    exact h t ht

end OfOrder

section OfGrid

open Transition

variable {ts : List Transition} {initials finals : List Label}
  {h : followsGrid ts (mentioned ts initials finals) = true}

theorem accepts_ofGrid_iff {w : List Nat} :
    (ofGrid ts initials finals h).value.accepts w = true ↔
      ∃ l ∈ initials, ∃ m ∈ finals, Transition.Path ts l w m := by
  unfold ofGrid announce
  rw [accepts_ofOrder_iff]

theorem isGrid_ofGrid_iff : (ofGrid ts initials finals h).value.isGrid = true ↔
    ∀ t ∈ ts, t.source.dominates t.target = true := by
  have hlabels : ∀ l ∈ gridOrder (mentioned ts initials finals), l.isGrid = true := by
    rw [followsGrid, Bool.and_eq_true, List.all_eq_true] at h
    intro l hl
    exact h.1 l (mem_gridOrder.1 hl)
  unfold ofGrid announce
  rw [isGrid_ofOrder_iff]
  exact and_iff_right hlabels

end OfGrid

end Automaton

end GrammarRepair
