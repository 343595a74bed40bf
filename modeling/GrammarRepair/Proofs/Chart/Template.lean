import GrammarRepair.Chart.Template
import GrammarRepair.Proofs.Chart.Recognition
import GrammarRepair.Proofs.Grammar.Constituents

/-!
What the template of a full chart holds. The cells are marked by falling distance, and the parts of a
constituent are over lesser distances, so a cell is never marked again once its own entries have
been split. Main statement: making the template never fails, and it holds exactly the constituents
that an accepted sentence needs.
-/

namespace GrammarRepair

namespace Chart

variable {g : Grammar} {aut : Automaton} {c t t' : Chart} {n p q : Nat}

def Holds (c : Chart) (y : Constituent) : Prop := c.has y.source y.rule y.target = true

theorem holds_put {y : Constituent} {a : Nat} (h : t.Fits n) (hp : p < n) (hq : q < n)
    (hy : y.target < n) : (t.put p a q).Holds y ↔ t.Holds y ∨ y = ⟨p, a, q⟩ := by
  rw [Holds, has_put h hp hq hy]
  obtain ⟨source, rule, target⟩ := y
  simp [Holds]

/-- A way to mark entries: it never fails, and adds the new constituents to any chart. -/
def Marks (n : Nat) (mark : Chart → Except Fault Chart) (new : Constituent → Prop) : Prop :=
  ∀ t : Chart, t.Fits n → ∃ t', mark t = .ok t' ∧ t'.Fits n ∧ t'.rules = t.rules ∧
    ∀ y : Constituent, y.target < n → (t'.Holds y ↔ t.Holds y ∨ new y)

section Marks

variable {mark mark' : Chart → Except Fault Chart} {new new' : Constituent → Prop}

theorem Marks.congr (h : Marks n mark new) (hnew : ∀ y, new y ↔ new' y) : Marks n mark new' := by
  obtain rfl : new = new' := funext fun y => propext (hnew y)
  exact h

theorem marks_ok (n : Nat) : Marks n .ok fun _ => False := by
  intro t ht
  exact ⟨t, rfl, ht, rfl, by simp⟩

theorem marks_put {a : Nat} (hp : p < n) (hq : q < n) :
    Marks n (fun t => .ok (t.put p a q)) (· = ⟨p, a, q⟩) := by
  intro t ht
  exact ⟨_, rfl, ht.put, rfl, fun y hy => holds_put ht hp hq hy⟩

theorem Marks.bind (h : Marks n mark new) (h' : Marks n mark' new') :
    Marks n (fun t => mark t >>= mark') fun y => new y ∨ new' y := by
  intro t ht
  obtain ⟨t1, hok, hfits, hrules, hholds⟩ := h t ht
  obtain ⟨t2, hok', hfits', hrules', hholds'⟩ := h' t1 hfits
  refine ⟨t2, ?_, hfits', hrules'.trans hrules, fun y hy => ?_⟩
  · simp only [hok]
    exact hok'
  · rw [hholds' y hy, hholds y hy, or_assoc]

theorem Marks.ite {cond : Bool} (h : cond = true → Marks n mark new) :
    Marks n (fun t => if cond = true then mark t else .ok t) fun y => cond = true ∧ new y := by
  cases cond with
  | true => simpa using h rfl
  | false => simpa using marks_ok n

theorem Marks.foldlM {α : Type} {mark : Chart → α → Except Fault Chart}
    {new : α → Constituent → Prop} {xs : List α}
    (h : ∀ x ∈ xs, Marks n (fun t => mark t x) (new x)) :
    Marks n (fun t => xs.foldlM mark t) fun y => ∃ x ∈ xs, new x y := by
  induction xs with
  | nil => exact (marks_ok n).congr (by simp)
  | cons x xs ih =>
    have hxs := ih fun x' hx' => h x' (by simp [hx'])
    exact ((h x (by simp)).bind hxs).congr (by simp)

end Marks

/-- The chart whose template is made: it holds what derives something. -/
structure IsFull (g : Grammar) (aut : Automaton) (c : Chart) : Prop where
  fits : c.Fits aut.stateCount
  rules_eq : c.rules = g.ruleCount
  has_iff : ∀ p a q, q < aut.stateCount → (c.has p a q = true ↔ g.Spans aut p a q)

theorem isFull_fullChart (g : Grammar) (aut : Automaton) : IsFull g aut (fullChart g aut).value :=
  ⟨(filling_fullChart g aut).fits, rules_fullChart g aut, fun _ _ _ hq => has_fullChart_iff hq⟩

theorem IsFull.has?_eq {a : Nat} (hc : IsFull g aut c) (hp : p < aut.stateCount)
    (ha : a < g.ruleCount) (hq : q < aut.stateCount) : c.has? p a q = .ok (c.has p a q) :=
  hc.fits.has?_eq hp (by rwa [hc.rules_eq]) hq

theorem marks_markStarts (hc : IsFull g aut c) :
    Marks aut.stateCount (c.markStarts g aut) fun y =>
      ∃ p ∈ aut.initials, ∃ q ∈ aut.finals, g.Spans aut p g.start q ∧ y = ⟨p, g.start, q⟩ := by
  have hpairs : Marks aut.stateCount (c.markStarts g aut) fun y =>
      ∃ pq ∈ aut.initials.flatMap fun p => aut.finals.map fun q => (p, q),
        c.has pq.1 g.start pq.2 = true ∧ y = ⟨pq.1, g.start, pq.2⟩ := by
    refine Marks.foldlM fun pq hpq => ?_
    obtain ⟨p, q⟩ := pq
    obtain ⟨hp, hq⟩ : p ∈ aut.initials ∧ q ∈ aut.finals := by simpa using hpq
    have hp' := aut.initial_lt p hp
    have hq' := aut.final_lt q hq
    simp only [hc.has?_eq hp' g.start_lt hq']
    exact Marks.ite fun _ => marks_put hp' hq'
  refine hpairs.congr fun y => ?_
  · simp only [List.mem_flatMap, List.mem_map, Prod.exists, Prod.mk.injEq]
    constructor
    · rintro ⟨_, _, ⟨p, hp, q, hq, rfl, rfl⟩, hhas, hy⟩
      exact ⟨p, hp, q, hq, (hc.has_iff _ _ _ (aut.final_lt q hq)).1 hhas, hy⟩
    · rintro ⟨p, hp, q, hq, hspans, hy⟩
      exact ⟨p, q, ⟨p, hp, q, hq, rfl, rfl⟩, (hc.has_iff _ _ _ (aut.final_lt q hq)).2 hspans, hy⟩

theorem marks_markSplit (hc : IsFull g aut c) {b d r : Nat} (hp : p < aut.stateCount)
    (hr : r < aut.stateCount) (hq : q < aut.stateCount) (hb : b < g.ruleCount)
    (hd : d < g.ruleCount) : Marks aut.stateCount (fun t => c.markSplit p q b d t r) fun y =>
      g.Spans aut p b r ∧ g.Spans aut r d q ∧ (y = ⟨p, b, r⟩ ∨ y = ⟨r, d, q⟩) := by
  have heq : (fun t => c.markSplit p q b d t r) = fun t => if c.has p b r = true then
      if c.has r d q = true then .ok (t.put p b r) >>= fun t => .ok (t.put r d q) else .ok t
      else .ok t := by
    funext t
    rw [markSplit, hc.has?_eq hp hb hr, hc.has?_eq hr hd hq]
    cases c.has p b r <;> cases c.has r d q <;> rfl
  rw [heq]
  refine (Marks.ite fun _ => Marks.ite fun _ =>
    (marks_put hp hr).bind (marks_put hr hq)).congr fun y => ?_
  rw [hc.has_iff p b r hr, hc.has_iff r d q hq]

theorem marks_markPair (hc : IsFull g aut c) {marked : NatSet} {a b d : Nat}
    (hp : p < aut.stateCount) (hq : q < aut.stateCount) (ha : (a, b, d) ∈ g.pairs) :
    Marks aut.stateCount
      (fun t => c.markPair (aut.reach.midpoints p q) p q marked t (a, b, d)) fun y =>
        marked.has a = true ∧ ∃ r, g.Spans aut p b r ∧ g.Spans aut r d q ∧
          (y = ⟨p, b, r⟩ ∨ y = ⟨r, d, q⟩) := by
  obtain ⟨ha', hb, hd⟩ := g.inRange _ (Grammar.mem_pairs.1 ha)
  have hlt : a < c.rules := by rwa [hc.rules_eq]
  simp only [markPair, if_pos hlt]
  have hsplits : Marks aut.stateCount
      (fun t => (aut.reach.midpoints p q).foldlM (c.markSplit p q b d) t) fun y =>
        ∃ r ∈ aut.reach.midpoints p q, g.Spans aut p b r ∧ g.Spans aut r d q ∧
          (y = ⟨p, b, r⟩ ∨ y = ⟨r, d, q⟩) := by
    refine Marks.foldlM fun r hr => ?_
    have hlt := (Automaton.lt_of_reaches (Automaton.mem_midpoints_iff.1 hr).1).2
    exact marks_markSplit hc hp hlt hq hb hd
  refine Marks.ite fun _ => hsplits.congr fun y => ?_
  · constructor
    · rintro ⟨r, -, h⟩
      exact ⟨r, h⟩
    · rintro ⟨r, hl, hr, hy⟩
      exact ⟨r, Automaton.mem_midpoints_iff.2 ⟨hl.reaches, hr.reaches⟩, hl, hr, hy⟩

theorem markCell_spec (hc : IsFull g aut c) (ht : t.Fits aut.stateCount)
    (hp : p < aut.stateCount) (hq : q < aut.stateCount) :
    ∃ t', c.markCell g aut.reach t (p, q) = .ok t' ∧ t'.Fits aut.stateCount ∧
      t'.rules = t.rules ∧ ∀ y : Constituent, y.target < aut.stateCount →
        (t'.Holds y ↔ t.Holds y ∨ ∃ a, t.has p a q = true ∧
          Constituent.HasPart g aut ⟨p, a, q⟩ y) := by
  unfold markCell
  by_cases hempty : (t.cell p q).isEmpty = true
  · refine ⟨t, if_pos hempty, ht, rfl, fun y _ => ?_⟩
    simp [isEmpty_cell_iff.1 hempty]
  · simp only [if_neg hempty]
    have hpairs : ∀ pair ∈ g.pairs, Marks aut.stateCount
        (fun t' => c.markPair (aut.reach.midpoints p q) p q (t.cell p q) t' pair) fun y =>
          (t.cell p q).has pair.1 = true ∧ ∃ r, g.Spans aut p pair.2.1 r ∧
            g.Spans aut r pair.2.2 q ∧ (y = ⟨p, pair.2.1, r⟩ ∨ y = ⟨r, pair.2.2, q⟩) :=
      fun pair hpair => marks_markPair hc hp hq hpair
    obtain ⟨t', hok, hfits, hrules, hholds⟩ := Marks.foldlM hpairs t ht
    refine ⟨t', hok, hfits, hrules, fun y hy => ?_⟩
    rw [hholds y hy]
    refine or_congr_right ?_
    constructor
    · rintro ⟨⟨a, b, d⟩, hpair, hhas, r, hl, hr, hy⟩
      exact ⟨a, hhas, _, _, ⟨b, d, r, Grammar.mem_pairs.1 hpair, rfl, rfl, hl, hr⟩, hy⟩
    · rintro ⟨a, hhas, _, _, ⟨b, d, r, hpair, rfl, rfl, hl, hr⟩, hy⟩
      exact ⟨(a, b, d), Grammar.mem_pairs.2 hpair, hhas, r, hl, hr, hy⟩

/-- What the marking of some cells makes of a chart. All new entries are parts over lesser distances
than that of some cell, and the parts of all entries of the cells are marked. -/
structure MarkedOut (g : Grammar) (aut : Automaton) (cells : List (Nat × Nat)) (t t' : Chart) :
    Prop where
  fits : t'.Fits aut.stateCount
  rules_eq : t'.rules = t.rules
  mono : ∀ y : Constituent, y.target < aut.stateCount → t.Holds y → t'.Holds y
  fresh : ∀ y : Constituent, y.target < aut.stateCount → t'.Holds y → t.Holds y ∨
    ∃ pq ∈ cells, y.target - y.source < pq.2 - pq.1
  sound : (∀ y : Constituent, y.target < aut.stateCount → t.Holds y → y.Needed g aut) →
    ∀ y : Constituent, y.target < aut.stateCount → t'.Holds y → y.Needed g aut
  closed : ∀ pq ∈ cells, ∀ a y, t'.has pq.1 a pq.2 = true →
    Constituent.HasPart g aut ⟨pq.1, a, pq.2⟩ y → t'.Holds y

theorem foldlM_markCell (hc : IsFull g aut c) {cells : List (Nat × Nat)}
    (hsorted : cells.Pairwise fun x y => y.2 - y.1 ≤ x.2 - x.1)
    (hcells : ∀ pq ∈ cells, pq.1 < aut.stateCount ∧ pq.2 < aut.stateCount)
    (ht : t.Fits aut.stateCount) :
    ∃ t', cells.foldlM (c.markCell g aut.reach) t = .ok t' ∧ MarkedOut g aut cells t t' := by
  induction cells generalizing t with
  | nil => exact ⟨t, rfl, ht, rfl, fun _ _ h => h, fun _ _ h => .inl h, fun h => h, by simp⟩
  | cons pq cells ih =>
    obtain ⟨p, q⟩ := pq
    obtain ⟨hp, hq⟩ := hcells (p, q) (by simp)
    obtain ⟨hfirst, hrest⟩ := List.pairwise_cons.1 hsorted
    obtain ⟨t1, hok, hfits, hrules, hholds⟩ := markCell_spec hc ht hp hq
    obtain ⟨t', hok', h⟩ := ih hrest (fun pq hpq => hcells pq (by simp [hpq])) hfits
    refine ⟨t', by rw [List.foldlM_cons, hok]; exact hok', h.fits, h.rules_eq.trans hrules,
      fun y hy hy' => h.mono y hy ((hholds y hy).2 (.inl hy')), ?_, ?_, ?_⟩
    · intro y hy hy'
      rcases h.fresh y hy hy' with hy' | ⟨pq, hpq, hlt⟩
      · rcases (hholds y hy).1 hy' with hy' | ⟨a, -, hpart⟩
        · exact .inl hy'
        · exact .inr ⟨(p, q), by simp, hpart.distance_lt⟩
      · exact .inr ⟨pq, by simp [hpq], hlt⟩
    · intro hsound
      refine h.sound fun y hy hy' => ?_
      rcases (hholds y hy).1 hy' with hy' | ⟨a, ha, hpart⟩
      · exact hsound y hy hy'
      · exact .part (hsound ⟨p, a, q⟩ hq ha) hpart
    · rintro pq hpq a y ha hpart
      rcases List.mem_cons.1 hpq with rfl | hpq
      · have hy := hpart.spanned.lt.2
        -- No later cell has entries of this one as parts: those are over lesser distances.
        have ha1 : t1.has p a q = true := by
          rcases h.fresh ⟨p, a, q⟩ hq ha with ha1 | ⟨pq, hpq, hlt⟩
          · exact ha1
          · exact absurd (hfirst pq hpq) (Nat.not_le.2 hlt)
        have ha0 : t.has p a q = true := by
          rcases (hholds ⟨p, a, q⟩ hq).1 ha1 with ha0 | ⟨a', -, hpart'⟩
          · exact ha0
          · exact absurd hpart'.distance_lt (Nat.lt_irrefl _)
        exact h.mono y hy ((hholds y hy).2 (.inr ⟨a, ha0, hpart⟩))
      · exact h.closed pq hpq a y ha hpart

theorem mem_inward : (p, q) ∈ inward n ↔ p < q ∧ q < n := by
  simp only [inward, List.mem_flatMap, List.mem_reverse, List.mem_range'_1, List.mem_map,
    List.mem_range, Prod.mk.injEq]
  constructor
  · rintro ⟨d, hd, p, hp, rfl, rfl⟩
    omega
  · rintro ⟨hpq, hq⟩
    exact ⟨q - p, by omega, p, by omega, rfl, by omega⟩

theorem pairwise_inward (n : Nat) :
    (inward n).Pairwise fun x y => y.2 - y.1 ≤ x.2 - x.1 := by
  have hdistances : (List.range' 1 (n - 1)).reverse.Pairwise fun d d' => d' ≤ d := by
    rw [List.pairwise_reverse]
    exact List.pairwise_le_range'
  refine List.pairwise_flatMap.2 ⟨fun d _ => ?_, hdistances.imp fun {d d'} hd => ?_⟩
  · rw [List.pairwise_map]
    refine List.pairwise_of_forall fun p p' => ?_
    simp
  · simp only [List.mem_map]
    rintro _ ⟨p, -, rfl⟩ _ ⟨p', -, rfl⟩
    simpa using hd

theorem IsFull.template (hc : IsFull g aut c) :
    ∃ t, c.template g aut = .ok t ∧ t.Fits aut.stateCount ∧ t.rules = g.ruleCount ∧
      ∀ y : Constituent, y.target < aut.stateCount → (t.Holds y ↔ y.Needed g aut) := by
  have hblank : (blank c.states c.rules).Fits aut.stateCount := by
    rw [hc.fits.states_eq]
    exact fits_blank _ _
  obtain ⟨t0, hok, hfits, hrules, hholds⟩ := marks_markStarts hc _ hblank
  have hstart : ∀ y : Constituent, y.target < aut.stateCount → (t0.Holds y ↔
      ∃ p ∈ aut.initials, ∃ q ∈ aut.finals, g.Spans aut p g.start q ∧ y = ⟨p, g.start, q⟩) := by
    intro y hy
    rw [hholds y hy]
    simp [Holds, has_blank]
  have hcells : ∀ pq ∈ inward c.states, pq.1 < aut.stateCount ∧ pq.2 < aut.stateCount := by
    rintro ⟨p, q⟩ hpq
    rw [hc.fits.states_eq, mem_inward] at hpq
    exact ⟨Nat.lt_trans hpq.1 hpq.2, hpq.2⟩
  obtain ⟨t, hok', h⟩ := foldlM_markCell hc (pairwise_inward c.states) hcells hfits
  refine ⟨t, by rw [Chart.template, hok]; exact hok', h.fits, ?_, fun y hy => ⟨?_, ?_⟩⟩
  · rw [h.rules_eq, hrules]
    exact hc.rules_eq
  · refine h.sound (fun y hy hy' => ?_) y hy
    obtain ⟨p, hp, q, hq, hspans, rfl⟩ := (hstart y hy).1 hy'
    exact .start hp hq hspans
  · intro hneeded
    clear hy
    induction hneeded with
    | @start p q hp hq hspans =>
      have hlt := aut.final_lt q hq
      exact h.mono _ hlt ((hstart _ hlt).2 ⟨p, hp, q, hq, hspans, rfl⟩)
    | @part x y hx hpart ih =>
      have hlt := hx.spanned.lt
      have hmem : (x.source, x.target) ∈ inward c.states := by
        rw [hc.fits.states_eq]
        exact mem_inward.2 hlt
      exact h.closed _ hmem x.rule y ih hpart

end Chart

end GrammarRepair
