import GrammarRepair.Automaton.Order
import GrammarRepair.Proofs.Sorted
import Mathlib.Data.Finite.Defs
import Mathlib.Data.Fintype.Card
import Mathlib.Data.List.Perm.Subperm
import Mathlib.Data.Set.Card
import Mathlib.Logic.Relation

/-!
Cycles of transitions. No order leads forward around a cycle. Placing states leaves none behind
whose predecessors are all placed, so whatever is left over has a predecessor that is left over, and
going back from one to the next must come round in a circle. Main statements: the labels that are
placed are those that are neither on a cycle nor behind one, and the others are as many as are
missing.
-/

namespace GrammarRepair

namespace Transition

variable {ts : List Transition} {labels order line placed : List Label} {l m c : Label}

def Leads (ts : List Transition) (l m : Label) : Prop := ∃ t ∈ ts, t.source = l ∧ t.target = m

def OnCycle (ts : List Transition) (c : Label) : Prop := Relation.TransGen (Leads ts) c c

/-- The label is on a cycle, or transitions lead to it from one. -/
def BehindCycle (ts : List Transition) (l : Label) : Prop :=
  ∃ c, OnCycle ts c ∧ Relation.ReflTransGen (Leads ts) c l

theorem OnCycle.behind (h : OnCycle ts c) : BehindCycle ts c := ⟨c, h, .refl⟩

theorem BehindCycle.step (h : BehindCycle ts l) (hlm : Leads ts l m) : BehindCycle ts m := by
  obtain ⟨c, hc, hcl⟩ := h
  exact ⟨c, hc, hcl.tail hlm⟩

theorem BehindCycle.exists_target (h : BehindCycle ts l) : ∃ t ∈ ts, t.target = l := by
  obtain ⟨c, hc, hcl⟩ := h
  obtain ⟨k, -, t, ht, -, htarget⟩ :=
    Relation.TransGen.tail'_iff.1 (Relation.TransGen.trans_left hc hcl)
  exact ⟨t, ht, htarget⟩

/-- Whatever leads to a listed label is listed before it. -/
def Preceded (ts : List Transition) (order : List Label) : Prop :=
  ∀ t ∈ ts, t.target ∈ order → order.idxOf t.source < order.idxOf t.target

theorem Forward.preceded (h : Forward ts order) : Preceded ts order := fun t ht _ => (h t ht).2

theorem Preceded.lt_of_transGen (h : Preceded ts order)
    (hlm : Relation.TransGen (Leads ts) l m) (hm : m ∈ order) :
    order.idxOf l < order.idxOf m := by
  induction hlm with
  | single hstep =>
    obtain ⟨t, ht, rfl, rfl⟩ := hstep
    exact h t ht hm
  | tail _ hstep ih =>
    obtain ⟨t, ht, rfl, rfl⟩ := hstep
    have hlt := h t ht hm
    have hmem := Nat.lt_trans hlt (List.idxOf_lt_length_iff.2 hm)
    exact Nat.lt_trans (ih (List.idxOf_lt_length_iff.1 hmem)) hlt

theorem Preceded.not_behindCycle (h : Preceded ts order) (hl : l ∈ order) :
    ¬ BehindCycle ts l := by
  rintro ⟨c, hc, hcl⟩
  have hmem : c ∈ order := by
    rcases Relation.reflTransGen_iff_eq_or_transGen.1 hcl with rfl | hcl
    · exact hl
    · have hlt := h.lt_of_transGen hcl hl
      exact List.idxOf_lt_length_iff.1 (Nat.lt_trans hlt (List.idxOf_lt_length_iff.2 hl))
  exact Nat.lt_irrefl _ (h.lt_of_transGen hc hmem)

theorem Forward.not_onCycle (h : Forward ts order) (c : Label) : ¬ OnCycle ts c := by
  intro hc
  obtain ⟨t, ht, rfl⟩ := hc.behind.exists_target
  exact h.preceded.not_behindCycle (h t ht).1 hc.behind

/-- A list that holds a label as soon as it holds all that leads to it holds whatever is not behind
a cycle. -/
theorem mem_of_not_behindCycle (hsource : ∀ t ∈ ts, t.source ∈ labels)
    (hclosed : ∀ l ∈ labels, (∀ t ∈ ts, t.target = l → t.source ∈ order) → l ∈ order)
    (hl : l ∈ labels) (hbehind : ¬ BehindCycle ts l) : l ∈ order := by
  -- Among the finitely many labels that are not behind a cycle, to be led to is well-founded.
  let Free := {l : Label // l ∈ labels ∧ ¬ BehindCycle ts l}
  have hfinite : Finite Free :=
    Finite.of_injective (fun l : Free => (⟨l.1, l.2.1⟩ : {l // l ∈ labels}))
      fun l m h => Subtype.ext (Subtype.mk.inj h)
  let before : Free → Free → Prop := fun l m => Relation.TransGen (Leads ts) l.1 m.1
  have htrans : IsTrans Free before := ⟨fun _ _ _ => Relation.TransGen.trans⟩
  have hirrefl : Std.Irrefl before := ⟨fun l hl => l.2.2 (OnCycle.behind hl)⟩
  have hwf : WellFounded before := Finite.wellFounded_of_trans_of_irrefl before
  suffices hall : ∀ l : Free, l.1 ∈ order from hall ⟨l, hl, hbehind⟩
  intro l
  induction l using hwf.induction with
  | _ l ih =>
    refine hclosed l.1 l.2.1 fun t ht htarget => ?_
    have hleads : Leads ts t.source l.1 := ⟨t, ht, rfl, htarget⟩
    have hfree : ¬ BehindCycle ts t.source := fun h => l.2.2 (h.step hleads)
    exact ih ⟨t.source, hsource t ht, hfree⟩ (.single hleads)

/-- Nobody who is ready has been forgotten. -/
def Waiting (ts : List Transition) (labels line placed : List Label) : Prop :=
  ∀ l ∈ labels, ready ts placed l = true → l ∈ line ∨ l ∈ placed

theorem Waiting.start : Waiting ts labels (labels.filter (ready ts [])) [] := by
  intro l hl hready
  exact .inl (List.mem_filter.2 ⟨hl, hready⟩)

theorem Waiting.step (h : Waiting ts labels (l :: line) placed) :
    Waiting ts labels (line ++ released ts (l :: placed) l) (l :: placed) := by
  intro m hm hready
  by_cases hold : ready ts placed m = true
  · rcases h m hm hold with hline | hplaced
    · rcases List.mem_cons.1 hline with rfl | hline
      · exact .inr List.mem_cons_self
      · exact .inl (List.mem_append_left _ hline)
    · exact .inr (List.mem_cons_of_mem _ hplaced)
  · -- It has become ready just now, so a transition leads to it from the last state placed.
    rw [ready_iff] at hold hready
    push Not at hold
    obtain ⟨t, ht, htarget, hsource⟩ := hold
    have hlast := (List.mem_cons.1 (hready t ht htarget)).resolve_right hsource
    exact .inl (List.mem_append_right _
      (mem_released.2 ⟨⟨t, ht, hlast, htarget⟩, ready_iff.2 hready⟩))

theorem released_subset (htarget : ∀ t ∈ ts, t.target ∈ labels) :
    released ts placed l ⊆ labels := by
  intro m hm
  obtain ⟨⟨t, ht, -, rfl⟩, -⟩ := mem_released.1 hm
  exact htarget t ht

theorem place_subset {steps : Nat} (htarget : ∀ t ∈ ts, t.target ∈ labels)
    (hline : line ⊆ labels) : place ts steps line placed ⊆ labels := by
  induction steps generalizing line placed with
  | zero => simp [place]
  | succ steps ih =>
    cases line with
    | nil => simp [place]
    | cons l line =>
      obtain ⟨hl, hline⟩ := List.cons_subset.1 hline
      exact List.cons_subset.2 ⟨hl, ih (List.append_subset.2 ⟨hline, released_subset htarget⟩)⟩

/-- With a step for every label that is not placed, nobody is left who could still be placed. -/
theorem mem_place_of_ready (steps : Nat) (hinline : InLine ts line placed)
    (hwaiting : Waiting ts labels line placed) (htarget : ∀ t ∈ ts, t.target ∈ labels)
    (hline : line ⊆ labels) (hplaced : placed ⊆ labels) (hnodup : placed.Nodup)
    (hsteps : labels.length ≤ steps + placed.length) (hl : l ∈ labels)
    (hready : ∀ t ∈ ts, t.target = l →
      t.source ∈ place ts steps line placed ∨ t.source ∈ placed) :
    l ∈ place ts steps line placed ∨ l ∈ placed := by
  induction steps generalizing line placed with
  | zero =>
    have hall := (hnodup.subperm hplaced).perm_of_length_le (by omega)
    exact .inr (hall.mem_iff.2 hl)
  | succ steps ih =>
    cases line with
    | nil =>
      have hnow : ready ts placed l = true := by
        refine ready_iff.2 fun t ht htl => ?_
        simpa [place] using hready t ht htl
      exact .inr ((hwaiting l hl hnow).resolve_left (by simp))
    | cons k line =>
      obtain ⟨hk, hline⟩ := List.cons_subset.1 hline
      have hrest := ih hinline.step hwaiting.step
        (List.append_subset.2 ⟨hline, released_subset htarget⟩) (List.cons_subset.2 ⟨hk, hplaced⟩)
        (List.nodup_cons.2 ⟨hinline.fresh k List.mem_cons_self, hnodup⟩)
        (by rw [List.length_cons]; omega) fun t ht htl => ?_
      · rw [place]
        rcases hrest with hrest | hrest
        · exact .inl (List.mem_cons_of_mem _ hrest)
        · rcases List.mem_cons.1 hrest with rfl | hrest
          · exact .inl List.mem_cons_self
          · exact .inr hrest
      · rcases hready t ht htl with hmem | hmem
        · rw [place] at hmem
          rcases List.mem_cons.1 hmem with heq | hmem
          · exact .inr (List.mem_cons.2 (.inl heq))
          · exact .inl hmem
        · exact .inr (List.mem_cons_of_mem _ hmem)

section TopologicalOrder

variable (hnodup : labels.Nodup)

include hnodup in
theorem preceded_topologicalOrder : Preceded ts (topologicalOrder ts labels) := by
  intro t ht htarget
  exact (idxOf_place_lt (inLine_start ts hnodup) ht htarget).resolve_left List.not_mem_nil

variable (hsource : ∀ t ∈ ts, t.source ∈ labels) (htarget : ∀ t ∈ ts, t.target ∈ labels)

include hnodup hsource htarget

theorem mem_topologicalOrder_iff :
    l ∈ topologicalOrder ts labels ↔ l ∈ labels ∧ ¬ BehindCycle ts l := by
  have hstart : labels.filter (ready ts []) ⊆ labels := List.filter_subset_self _
  constructor
  · intro hl
    exact ⟨place_subset htarget hstart hl, (preceded_topologicalOrder hnodup).not_behindCycle hl⟩
  · rintro ⟨hl, hbehind⟩
    refine mem_of_not_behindCycle hsource (fun m hm hready => ?_) hl hbehind
    have hplaced := mem_place_of_ready labels.length (inLine_start ts hnodup)
      Waiting.start htarget hstart (List.nil_subset _) List.nodup_nil (by simp) hm
      fun t ht htm => .inl (hready t ht htm)
    exact hplaced.resolve_right (by simp)

/-- As many labels are left out of the order as there are on cycles and behind them. -/
theorem length_sub_length_topologicalOrder :
    labels.length - (topologicalOrder ts labels).length = {l | BehindCycle ts l}.ncard := by
  classical
  have hbehind : {l | BehindCycle ts l}.ncard =
      (labels.filter fun l => decide (BehindCycle ts l)).length := by
    refine ncard_eq_length (hnodup.filter _) fun l => ?_
    simp only [List.mem_filter, decide_eq_true_eq]
    refine ⟨And.right, fun h => ⟨?_, h⟩⟩
    obtain ⟨t, ht, rfl⟩ := h.exists_target
    exact htarget t ht
  have hperm : (topologicalOrder ts labels).Perm
      (labels.filter fun l => !decide (BehindCycle ts l)) := by
    refine (List.perm_ext_iff_of_nodup (nodup_topologicalOrder ts hnodup) (hnodup.filter _)).2
      fun l => ?_
    rw [mem_topologicalOrder_iff hnodup hsource htarget, List.mem_filter, Bool.not_eq_true',
      decide_eq_false_iff_not]
  have hsplit := List.length_eq_length_filter_add (l := labels) fun l => decide (BehindCycle ts l)
  rw [hbehind, hperm.length_eq]
  omega

end TopologicalOrder

end Transition

end GrammarRepair
