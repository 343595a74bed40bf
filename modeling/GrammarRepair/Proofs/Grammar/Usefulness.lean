import GrammarRepair.Grammar.Usefulness
import GrammarRepair.Proofs.Exploration
import GrammarRepair.Proofs.Grammar.Tables
import Mathlib.Data.Finset.Card

/-!
What usefulness finds. A pass over the productions that marks nothing new leaves the marks closed
under the productions, and passes that mark something come to an end. Main statements: the
generating rules are those that derive a string, and the reachable ones those that the start rule
leads to through productions that can be completed.
-/

namespace GrammarRepair

def NatSet.members (n : Nat) (s : NatSet) : Finset Nat := (Finset.range n).filter (s.has · = true)

theorem card_members_le (n : Nat) (s : NatSet) : (s.members n).card ≤ n := by
  have hcard := Finset.card_le_card (Finset.filter_subset (s.has · = true) (Finset.range n))
  rwa [Finset.card_range] at hcard

section

variable {f : NatSet → NatSet} {n : Nat}
  (hgrow : ∀ s i, s.has i = true → (f s).has i = true)
  (hlt : ∀ s i, (f s).has i = true → s.has i = true ∨ i < n)

include hgrow hlt

/-- A pass that only adds numbers below `n` adds one, unless it changes nothing. -/
theorem card_members_lt {s : NatSet} (hne : f s ≠ s) :
    (s.members n).card < ((f s).members n).card := by
  have hnew : ∃ i, (f s).has i = true ∧ ¬ s.has i = true := by
    by_contra hnone
    have hback : ∀ i, (f s).has i = true → s.has i = true := by
      intro i hi
      by_contra hnot
      exact hnone ⟨i, hi, hnot⟩
    exact hne (NatSet.ext_has fun i => Bool.eq_iff_iff.2 ⟨hback i, hgrow s i⟩)
  obtain ⟨i, hi, hnot⟩ := hnew
  refine Finset.card_lt_card ((Finset.ssubset_iff_of_subset ?_).2 ⟨i, ?_, ?_⟩)
  · exact Finset.monotone_filter_right _ fun x _ hx => hgrow s x hx
  · exact Finset.mem_filter.2 ⟨Finset.mem_range.2 ((hlt s i hi).resolve_left hnot), hi⟩
  · exact fun hmem => hnot (Finset.mem_filter.1 hmem).2

theorem settle_fixed {steps : Nat} {s : NatSet} (hsteps : n < steps + (s.members n).card) :
    f (settle f steps s) = settle f steps s := by
  induction steps generalizing s with
  | zero =>
    have hcard := card_members_le n s
    omega
  | succ steps ih =>
    unfold settle
    by_cases hfix : f s = s
    · rw [if_pos hfix]
      exact hfix
    · rw [if_neg hfix]
      have hcard := card_members_lt hgrow hlt hfix
      exact ih (by omega)

end

theorem settle_invariant {f : NatSet → NatSet} {P : NatSet → Prop} (hf : ∀ s, P s → P (f s))
    (steps : Nat) {s : NatSet} (hs : P s) : P (settle f steps s) := by
  induction steps generalizing s with
  | zero => exact hs
  | succ steps ih =>
    unfold settle
    by_cases hfix : f s = s
    · rw [if_pos hfix]
      exact hs
    · rw [if_neg hfix]
      exact ih (hf s hs)

namespace Grammar

variable {g : Grammar} {marked : NatSet} {a b : Nat}

def markHead (marked : NatSet) (p : Production) : NatSet :=
  if completes marked p.body then marked.insert p.head else marked

theorem markHeads_eq (g : Grammar) (marked : NatSet) :
    g.markHeads marked = g.productions.toList.foldl markHead marked := rfl

theorem has_markHead {p : Production} : (markHead marked p).has a = true ↔
    marked.has a = true ∨ completes marked p.body = true ∧ p.head = a := by
  unfold markHead
  by_cases hp : completes marked p.body = true
  · simp [hp]
  · simp [hp]

theorem has_foldl_markHead {ps : List Production} (h : marked.has a = true) :
    (ps.foldl markHead marked).has a = true := by
  induction ps generalizing marked with
  | nil => exact h
  | cons p ps ih => exact ih (has_markHead.2 (.inl h))

theorem completes_mono {marked' : NatSet}
    (h : ∀ a, marked.has a = true → marked'.has a = true) {body : Body}
    (hbody : completes marked body = true) : completes marked' body = true := by
  cases body with
  | token t => rfl
  | pair b c =>
    rw [completes, Bool.and_eq_true] at hbody ⊢
    exact ⟨h b hbody.1, h c hbody.2⟩

/-- A pass misses no production that could be completed before it. -/
theorem has_markHeads_of_completes {p : Production} (hp : p ∈ g.productions.toList)
    (hbody : completes marked p.body = true) : (g.markHeads marked).has p.head = true := by
  obtain ⟨before, after, hsplit⟩ := List.append_of_mem hp
  rw [markHeads_eq, hsplit, List.foldl_append, List.foldl_cons]
  have hlater : completes (before.foldl markHead marked) p.body = true :=
    completes_mono (fun a ha => has_foldl_markHead ha) hbody
  exact has_foldl_markHead (has_markHead.2 (.inr ⟨hlater, rfl⟩))

theorem markHeads_invariant {P : NatSet → Prop}
    (hmark : ∀ m, P m → ∀ p ∈ g.productions.toList, P (markHead m p)) (h : P marked) :
    P (g.markHeads marked) :=
  List.foldlRecOn (motive := P) g.productions.toList markHead h hmark

theorem has_of_markHeads : ∀ i, (g.markHeads marked).has i = true →
    marked.has i = true ∨ i < g.ruleCount := by
  refine markHeads_invariant
    (P := fun m => ∀ i, m.has i = true → marked.has i = true ∨ i < g.ruleCount) ?_
    fun i hi => .inl hi
  intro m hm p hp i hi
  rcases has_markHead.1 hi with hi | ⟨-, rfl⟩
  · exact hm i hi
  · exact .inr (g.inRange p hp).1

theorem markHeads_generating (g : Grammar) : g.markHeads g.generating = g.generating :=
  settle_fixed (n := g.ruleCount) (fun _ _ hi => has_foldl_markHead hi)
    (fun _ => has_of_markHeads) (by omega)

/-- Marks are sound if every marked rule derives a string. -/
def Sound (g : Grammar) (marked : NatSet) : Prop :=
  ∀ a, marked.has a = true → ∃ w, g.Derives a w

theorem Sound.markHead (h : g.Sound marked) {p : Production} (hp : p ∈ g.productions.toList) :
    g.Sound (markHead marked p) := by
  intro a ha
  rcases has_markHead.1 ha with ha | ⟨hcompletes, rfl⟩
  · exact h a ha
  · obtain ⟨head, body⟩ := p
    cases body with
    | token t => exact ⟨[t], .token hp⟩
    | pair b c =>
      rw [completes, Bool.and_eq_true] at hcompletes
      obtain ⟨v, hv⟩ := h b hcompletes.1
      obtain ⟨w, hw⟩ := h c hcompletes.2
      exact ⟨v ++ w, .pair hp hv hw⟩

theorem sound_generating (g : Grammar) : g.Sound g.generating :=
  settle_invariant (fun _ h => markHeads_invariant (fun _ hm _ hp => hm.markHead hp) h) _
    fun a ha => by simp at ha

theorem has_generating_iff : g.generating.has a = true ↔ ∃ w, g.Derives a w := by
  constructor
  · exact g.sound_generating a
  · rintro ⟨w, hw⟩
    induction hw with
    | token h =>
      rw [← markHeads_generating]
      exact has_markHeads_of_completes h rfl
    | pair h _ _ ihv ihw =>
      rw [← markHeads_generating]
      exact has_markHeads_of_completes h (by rw [completes, ihv, ihw]; rfl)

/-- `g.Leads a b`: rule `b` is a part of a production of rule `a` that can be completed. -/
def Leads (g : Grammar) (a b : Nat) : Prop :=
  ∃ l r, ⟨a, .pair l r⟩ ∈ g.productions.toList ∧ (b = l ∨ b = r) ∧
    (∃ v, g.Derives l v) ∧ ∃ w, g.Derives r w

theorem mem_neighbours_iff : b ∈ g.neighbours g.generating a ↔ g.Leads a b := by
  simp only [neighbours, List.mem_flatMap, Prod.exists, mem_pairsOf]
  constructor
  · rintro ⟨l, r, hmem, hb⟩
    split at hb
    · next hable =>
      rw [Bool.and_eq_true, has_generating_iff, has_generating_iff] at hable
      exact ⟨l, r, hmem, by simpa using hb, hable⟩
    · cases hb
  · rintro ⟨l, r, hmem, hb, hl, hr⟩
    refine ⟨l, r, hmem, ?_⟩
    rw [if_pos]
    · simpa using hb
    · rw [Bool.and_eq_true, has_generating_iff, has_generating_iff]
      exact ⟨hl, hr⟩

theorem Leads.lt (h : g.Leads a b) : b < g.ruleCount := by
  obtain ⟨l, r, hmem, hb, -, -⟩ := h
  have hrange := (g.inRange _ hmem).2
  rcases hb with rfl | rfl
  · exact hrange.1
  · exact hrange.2

theorem has_reachable_iff :
    g.usefulness.reachable.has a = true ↔ Relation.ReflTransGen g.Leads g.start a := by
  have hstarts : ∀ s ∈ [g.start], s ∈ List.range g.ruleCount := by
    intro s hs
    obtain rfl := List.mem_singleton.1 hs
    exact List.mem_range.2 g.start_lt
  have hreachable : g.usefulness.reachable =
      .ofList (explore (g.neighbours g.generating) g.ruleCount [g.start]) := rfl
  rw [hreachable, NatSet.has_ofList, decide_eq_true_iff, mem_explore_iff hstarts
    (fun x _ y => mem_neighbours_iff) (fun x _ y hy => List.mem_range.2 hy.lt) (by simp)]
  simp only [List.mem_singleton, exists_eq_left]

theorem isUseful_iff : g.usefulness.isUseful a = true ↔
    (∃ w, g.Derives a w) ∧ Relation.ReflTransGen g.Leads g.start a := by
  have hgenerating : g.usefulness.generating = g.generating := rfl
  rw [Usefulness.isUseful, Bool.and_eq_true, hgenerating, has_generating_iff, has_reachable_iff]

end Grammar

end GrammarRepair
