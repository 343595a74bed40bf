import GrammarRepair.Proofs.Forest.Kept
import GrammarRepair.Proofs.Intersection.Language
import Mathlib.Data.List.Perm.Basic

/-!
What an intersection keeps of a draft. A constituent is kept exactly if an accepted sentence needs it,
and a production exactly if all its constituents are kept. Main statements: the nonterminals of an
intersection are what is needed, and each has the tokens and the pairs of parts that make it up, as
often as the grammar and the automaton give them.
-/

namespace GrammarRepair

theorem filterMap_eq_of_forall₂ {α β γ : Type} {R : α → β → Prop} {f : α → Option γ}
    {f' : β → Option γ} {xs : List α} {ys : List β} (h : List.Forall₂ R xs ys)
    (hR : ∀ x y, R x y → f x = f' y) : xs.filterMap f = ys.filterMap f' := by
  induction h with
  | nil => rfl
  | cons hr h ih => rw [List.filterMap_cons, List.filterMap_cons, hR _ _ hr, ih]

theorem flatMap_comm_perm {α β γ : Type} (xs : List α) (ys : List β) (f : α → β → List γ) :
    (xs.flatMap fun x => ys.flatMap (f x)).Perm (ys.flatMap fun y => xs.flatMap fun x => f x y) := by
  induction xs with
  | nil => simp
  | cons x xs ih =>
    rw [List.flatMap_cons]
    exact (ih.append_left _).trans (List.flatMap_append_perm ys (f x) _)

namespace Intersection

open Constituent

variable {g : Grammar} {aut : Automaton} {follows : Nat → Nat → Bool} {t : Constituent} {x : Nat}

def tokensOf (ig : Intersection) (t : Constituent) : List Nat :=
  (ig.terminals.toList.filter fun p => ig.nonterminals[p.1]? == some t).map (·.2)

def bodiesOf (ig : Intersection) (t : Constituent) : List (Option Constituent × Option Constituent) :=
  (ig.pairs.toList.filter fun p => ig.nonterminals[p.1]? == some t).map fun p =>
    (ig.nonterminals[p.2.1]?, ig.nonterminals[p.2.2]?)

def labelledTerminals (ig : Intersection) : List (Option Constituent × Nat) :=
  ig.terminals.toList.map fun p => (ig.nonterminals[p.1]?, p.2)

def labelledPairs (ig : Intersection) :
    List (Option Constituent × Option Constituent × Option Constituent) :=
  ig.pairs.toList.map fun p =>
    (ig.nonterminals[p.1]?, ig.nonterminals[p.2.1]?, ig.nonterminals[p.2.2]?)

theorem tokensOf_eq_labelled (ig : Intersection) (t : Constituent) :
    ig.tokensOf t = (ig.labelledTerminals.filter fun p => p.1 == some t).map (·.2) := by
  rw [labelledTerminals, List.filter_map, List.map_map]
  rfl

theorem bodiesOf_eq_labelled (ig : Intersection) (t : Constituent) :
    ig.bodiesOf t = (ig.labelledPairs.filter fun p => p.1 == some t).map (·.2) := by
  rw [labelledPairs, List.filter_map, List.map_map]
  rfl

def tokenFor? (t : Constituent) (p : Constituent × Nat) : Option Nat :=
  if p.1 = t then some p.2 else none

def bodyFor? (keep : Constituent → Bool) (t : Constituent)
    (p : Constituent × Constituent × Constituent) : Option (Constituent × Constituent) :=
  if p.1 = t ∧ keep p.2.1 = true ∧ keep p.2.2 = true then some p.2 else none

section Pruning

variable {d : Draft} {starts : List Nat} {labels : Array Label} {keep : Nat → Bool}
  {kept : Constituent → Bool} {terminals : List (Constituent × Nat)}
  {pairs : List (Constituent × Constituent × Constituent)}

/-- Whether a constituent of a draft is kept can be told from the constituent. -/
def KeepsBy (d : Draft) (keep : Nat → Bool) (kept : Constituent → Bool) : Prop :=
  ∀ x c, d.roster.items[x]? = some c → keep x = kept c

theorem KeepsBy.cases (h : KeepsBy d keep kept) (starts : List Nat) (labels : Array Label)
    {c : Constituent} (hc : d.roster.items[x]? = some c) :
    (kept c = false ∧ newNumber? d keep x = none) ∨
      (kept c = true ∧ ∃ i, newNumber? d keep x = some i ∧
        (prune d starts labels keep).nonterminals[i]? = some c) := by
  have hlt : x < d.count := (Array.getElem?_eq_some_iff.1 hc).1
  have hkeep := h x c hc
  cases hnumber : newNumber? d keep x with
  | none =>
    refine .inl ⟨Bool.eq_false_iff.2 fun hkept => ?_, rfl⟩
    obtain ⟨i, hi⟩ := exists_newNumber?_iff.2 ⟨hlt, hkeep.trans hkept⟩
    rw [hnumber] at hi
    cases hi
  | some i =>
    refine .inr ⟨?_, i, rfl, getElem?_nonterminals.2 ⟨x, hnumber, hc⟩⟩
    rw [← hkeep]
    exact (exists_newNumber?_iff.1 ⟨i, hnumber⟩).2

theorem KeepsBy.labelledTerminals_eq (h : KeepsBy d keep kept) (hrecords : d.Records terminals pairs) :
    (prune d starts labels keep).labelledTerminals =
      (terminals.filter fun p => kept p.1).map fun p => (some p.1, p.2) := by
  have hterminals : (prune d starts labels keep).terminals.toList = d.terminals.toList.filterMap
      fun p => (newNumber? d keep p.1).map fun i => (i, p.2) := by
    rw [prune, ofDraft, Array.toList_filterMap]
    refine List.filterMap_congr fun p _ => ?_
    cases h : newNumber? d keep p.1 <;> rw [newNumber?] at h <;> simp [h]
  rw [labelledTerminals, hterminals, List.map_filterMap, ← List.filterMap_eq_map,
    List.filterMap_filter]
  refine filterMap_eq_of_forall₂ hrecords.terminals ?_
  rintro ⟨x, token⟩ ⟨c, token'⟩ ⟨hc, htoken⟩
  obtain rfl : token = token' := htoken
  rcases h.cases starts labels hc with ⟨hkept, hnone⟩ | ⟨hkept, i, hsome, hitem⟩
  · simp [hkept, hnone]
  · simp [hkept, hsome, hitem]

theorem KeepsBy.labelledPairs_eq (h : KeepsBy d keep kept) (hrecords : d.Records terminals pairs) :
    (prune d starts labels keep).labelledPairs =
      (pairs.filter fun p => kept p.1 && kept p.2.1 && kept p.2.2).map fun p =>
        (some p.1, some p.2.1, some p.2.2) := by
  have hpairs : (prune d starts labels keep).pairs.toList = d.pairs.toList.filterMap fun p =>
      (newNumber? d keep p.1).bind fun i => (newNumber? d keep p.2.1).bind fun j =>
        (newNumber? d keep p.2.2).map fun k => (i, j, k) := by
    rw [prune, ofDraft, Array.toList_filterMap]
    refine List.filterMap_congr fun p _ => ?_
    simp only [newNumber?, Option.bind_eq_bind, Option.pure_def, Option.map_eq_bind]
    rfl
  rw [labelledPairs, hpairs, List.map_filterMap, ← List.filterMap_eq_map, List.filterMap_filter]
  refine filterMap_eq_of_forall₂ hrecords.pairs ?_
  rintro ⟨x, y, z⟩ ⟨c, l, r⟩ ⟨hc, hl, hr⟩
  have hcases := fun {x c} => h.cases starts labels (x := x) (c := c)
  rcases hcases hc with ⟨hkeptc, hi⟩ | ⟨hkeptc, i, hi, hitemi⟩
  · simp [hkeptc, hi]
  · rcases hcases hl with ⟨hkeptl, hj⟩ | ⟨hkeptl, j, hj, hitemj⟩
    · simp [hkeptl, hi, hj]
    · rcases hcases hr with ⟨hkeptr, hk⟩ | ⟨hkeptr, k, hk, hitemk⟩
      · simp [hkeptr, hi, hj, hk]
      · simp [hkeptc, hkeptl, hkeptr, hi, hj, hk, hitemi, hitemj, hitemk]

theorem KeepsBy.tokensOf_eq (h : KeepsBy d keep kept) (hrecords : d.Records terminals pairs)
    (ht : kept t = true) :
    (prune d starts labels keep).tokensOf t = terminals.filterMap (tokenFor? t) := by
  rw [tokensOf_eq_labelled, h.labelledTerminals_eq hrecords, List.filter_map, List.map_map,
    List.filter_filter, ← List.filterMap_eq_map, List.filterMap_filter]
  refine List.filterMap_congr fun p _ => ?_
  by_cases hp : p.1 = t <;> simp [tokenFor?, hp, ht]

theorem KeepsBy.bodiesOf_eq (h : KeepsBy d keep kept) (hrecords : d.Records terminals pairs)
    (ht : kept t = true) : (prune d starts labels keep).bodiesOf t =
      (pairs.filterMap (bodyFor? kept t)).map fun p => (some p.1, some p.2) := by
  rw [bodiesOf_eq_labelled, h.labelledPairs_eq hrecords, List.filter_map, List.map_map,
    List.filter_filter, ← List.filterMap_eq_map, List.filterMap_filter, List.map_filterMap]
  refine List.filterMap_congr fun p _ => ?_
  by_cases hp : p.1 = t
  · by_cases hl : kept p.2.1 = true <;> by_cases hr : kept p.2.2 = true <;>
      simp [bodyFor?, hp, ht, hl, hr]
  · simp [bodyFor?, hp]

end Pruning

theorem records_of_mem_pairs {p : Nat × Nat × Nat} (hp : p ∈ (draft g aut follows).pairs) :
    ∃ c l r, ReadsPair (draft g aut follows).roster p (c, l, r) ∧
      ∃ b b' m, ⟨c.rule, .pair b b'⟩ ∈ g.productions.toList ∧
        l = ⟨c.source, b, m⟩ ∧ r = ⟨m, b', c.target⟩ := by
  obtain ⟨⟨c, l, r⟩, hmem, hreads⟩ := exists_of_mem_left (records_draft g aut follows).pairs
    (Array.mem_toList_iff.2 hp)
  obtain ⟨⟨p, m, q⟩, -, hmem⟩ := List.mem_flatMap.1 hmem
  obtain ⟨a, b, b', ha, rfl, rfl, rfl⟩ := mem_pairsOver.1 hmem
  exact ⟨_, _, _, hreads, b, b', m, ha, rfl, rfl⟩

section

variable (hfollows : ∀ p w q, w ≠ [] → aut.Path p w q → follows p q = true)

include hfollows

/-- What derives something has a number in the draft. -/
theorem exists_item_of_spanned (h : t.Spanned g aut) :
    ∃ x, (draft g aut follows).roster.items[x]? = some t ∧
      ∃ w, Marking.Derives (draft g aut follows).pairs (draft g aut follows).terminals x w := by
  obtain ⟨w, hw, hpath⟩ := h
  obtain ⟨x, hx, hderives⟩ := draft_of_derives hfollows hw hpath
  exact ⟨x, hx, w, hderives⟩

theorem follows_of_spans {p a q : Nat} (h : g.Spans aut p a q) : follows p q = true := by
  obtain ⟨w, hw, hpath⟩ := h
  exact hfollows p w q hw.ne_nil hpath

theorem mem_stateTriples_of_spans {p m q a b : Nat} (hl : g.Spans aut p a m)
    (hr : g.Spans aut m b q) : (p, m, q) ∈ stateTriples aut.stateCount follows :=
  mem_stateTriples.2 ⟨hl.lt.1, hr.lt.1, hr.lt.2, follows_of_spans hfollows hl,
    follows_of_spans hfollows hr⟩

theorem spanned_iff_exists_derives (hx : (draft g aut follows).roster.items[x]? = some t) :
    t.Spanned g aut ↔
      ∃ w, Marking.Derives (draft g aut follows).pairs (draft g aut follows).terminals x w :=
  exists_congr fun _ => (derives_draft_iff hfollows hx).symm

theorem isPart_iff (hx : (draft g aut follows).roster.items[x]? = some t) {y : Nat}
    {u : Constituent} (hy : (draft g aut follows).roster.items[y]? = some u) :
    Marking.IsPart (draft g aut follows).pairs (draft g aut follows).terminals x y ↔
      t.HasPart g aut u := by
  constructor
  · rintro ⟨p, hp, rfl, hpart, hv, hw⟩
    obtain ⟨c, l, r, ⟨hc, hl, hr⟩, b, b', m, ha, hleft, hright⟩ := records_of_mem_pairs hp
    obtain rfl : t = c := Option.some.inj (hx.symm.trans hc)
    refine ⟨l, r, ⟨b, b', m, ha, hleft, hright, (spanned_iff_exists_derives hfollows hl).2 hv,
      (spanned_iff_exists_derives hfollows hr).2 hw⟩, ?_⟩
    rcases hpart with rfl | rfl
    · exact .inl (Option.some.inj (hy.symm.trans hl))
    · exact .inr (Option.some.inj (hy.symm.trans hr))
  · rintro ⟨l, r, ⟨b, b', m, ha, rfl, rfl, hleft, hright⟩, hu⟩
    have hmem := List.mem_flatMap.2 ⟨_, mem_stateTriples_of_spans hfollows hleft hright,
      mem_pairsOver.2 ⟨t.rule, b, b', ha, rfl, rfl, rfl⟩⟩
    obtain ⟨⟨x', y', z'⟩, hp, hx', hy', hz'⟩ :=
      exists_of_mem_right (records_draft g aut follows).pairs hmem
    obtain rfl := Roster.index_unique hx hx'
    refine ⟨_, Array.mem_toList_iff.1 hp, rfl, ?_,
      (spanned_iff_exists_derives hfollows hy').1 hleft,
      (spanned_iff_exists_derives hfollows hz').1 hright⟩
    rcases hu with rfl | rfl
    · exact .inl (Roster.index_unique hy hy')
    · exact .inr (Roster.index_unique hy hz')

theorem keepsBy_isNeeded :
    KeepsBy (draft g aut follows) (keeps g aut (draft g aut follows)) (isNeeded g aut) := by
  intro x t hx
  rw [Bool.eq_iff_iff, isNeeded_iff, keeps_iff]
  constructor
  · rintro ⟨s, hs, hderives, hchain⟩
    induction hchain generalizing t with
    | refl =>
      obtain ⟨p, hp, q, hq, hitem⟩ := mem_startsOf.1 hs
      obtain rfl : t = ⟨p, g.start, q⟩ := Option.some.inj (hx.symm.trans hitem)
      exact .start hp hq ((spanned_iff_exists_derives hfollows hx).2 hderives)
    | @tail y z _ hpart ih =>
      have hy : ∃ u, (draft g aut follows).roster.items[y]? = some u := by
        obtain ⟨p, hp, rfl, -⟩ := hpart
        obtain ⟨c, l, r, ⟨hc, -⟩, -⟩ := records_of_mem_pairs hp
        exact ⟨c, hc⟩
      obtain ⟨u, hu⟩ := hy
      exact (ih u hu).part ((isPart_iff hfollows hu hx).1 hpart)
  · intro hneeded
    induction hneeded generalizing x with
    | @start p q hp hq hspans =>
      exact ⟨x, mem_startsOf.2 ⟨p, hp, q, hq, hx⟩,
        (spanned_iff_exists_derives hfollows hx).1 hspans, .refl⟩
    | @part u y hu hpart ih =>
      obtain ⟨x', hx', -⟩ := exists_item_of_spanned hfollows hu.spanned
      obtain ⟨s, hs, hderives, hchain⟩ := ih x' hx'
      exact ⟨s, hs, hderives, hchain.tail ((isPart_iff hfollows hx' hx).2 hpart)⟩

theorem mem_nonterminals_pruned :
    t ∈ (pruned g aut follows).nonterminals ↔ t.Needed g aut := by
  have hkeeps := keepsBy_isNeeded (g := g) hfollows
  rw [Array.mem_iff_getElem?]
  constructor
  · rintro ⟨i, hi⟩
    obtain ⟨x, hx, hitem⟩ := getElem?_nonterminals.1 hi
    obtain ⟨-, hkeep⟩ := exists_newNumber?_iff.1 ⟨i, hx⟩
    rwa [hkeeps x t hitem, isNeeded_iff] at hkeep
  · intro hneeded
    obtain ⟨x, hx, -⟩ := exists_item_of_spanned hfollows hneeded.spanned
    have hkept := isNeeded_iff.2 hneeded
    obtain ⟨-, i, -, hi⟩ := (hkeeps.cases _ _ hx).resolve_left fun hnot => by simp [hkept] at hnot
    exact ⟨i, hi⟩

end

theorem nodup_stateTriples (n : Nat) (follows : Nat → Nat → Bool) :
    (stateTriples n follows).Nodup := by
  refine List.nodup_flatMap.2 ⟨fun p _ => List.nodup_flatMap.2 ⟨fun q _ => ?_, ?_⟩, ?_⟩
  · refine (List.Nodup.filter _ List.nodup_range').map fun r r' heq => ?_
    simpa using heq
  · refine (List.Nodup.filter _ List.nodup_range').imp fun {q q'} hne s hs hs' => hne ?_
    simp only [List.mem_map] at hs hs'
    obtain ⟨r, -, rfl⟩ := hs
    obtain ⟨r', -, heq⟩ := hs'
    simp only [Prod.mk.injEq] at heq
    exact heq.2.1.symm
  · refine List.nodup_range.imp fun {p p'} hne s hs hs' => hne ?_
    simp only [List.mem_flatMap, List.mem_map] at hs hs'
    obtain ⟨q, -, r, -, rfl⟩ := hs
    obtain ⟨q', -, r', -, heq⟩ := hs'
    simp only [Prod.mk.injEq] at heq
    exact heq.1.symm

theorem nodup_midpoints (r : Reach) (p q : Nat) : (r.midpoints p q).Nodup :=
  (Automaton.ascending_midpoints r p q).imp Nat.ne_of_lt

theorem filterMap_eq_of_nodup {α β : Type} [DecidableEq α] {xs : List α} (h : xs.Nodup) (a : α)
    (y : β) : xs.filterMap (fun x => if x = a then some y else none) =
      if a ∈ xs then [y] else [] := by
  induction xs with
  | nil => rfl
  | cons x xs ih =>
    obtain ⟨hx, hxs⟩ := List.nodup_cons.1 h
    rw [List.filterMap_cons, ih hxs]
    by_cases hxa : x = a
    · subst hxa
      simp [hx]
    · have hax : a ≠ x := fun heq => hxa heq.symm
      simp [hxa, hax]

theorem filterMap_tokenFor? (t : Constituent) :
    (aut.edges.flatMap (terminalsOf g)).filterMap (tokenFor? t) = Arena.leavesOf g aut t := by
  rw [List.filterMap_flatMap, Arena.leavesOf, ← List.filterMap_eq_map, List.filterMap_filter,
    List.filterMap_eq_flatMap_toList]
  refine List.flatMap_congr fun e _ => ?_
  obtain ⟨source, rule, target⟩ := t
  by_cases hends : e.source = source ∧ e.target = target
  · obtain ⟨rfl, rfl⟩ := hends
    have hrules := filterMap_eq_of_nodup (g.nodup_rulesOf e.token) rule e.token
    simp only [terminalsOf, List.filterMap_map, Function.comp_def, tokenFor?, Constituent.mk.injEq,
      true_and, and_true, hrules]
    by_cases hrule : rule ∈ g.rulesOf e.token <;> simp [hrule]
  · have hnone : (terminalsOf g e).filterMap (tokenFor? ⟨source, rule, target⟩) = [] := by
      refine List.filterMap_eq_nil_iff.2 fun p hp => ?_
      obtain ⟨a, -, rfl⟩ := List.mem_map.1 hp
      refine if_neg fun heq => hends ?_
      exact ⟨congrArg Constituent.source heq, congrArg Constituent.target heq⟩
    rw [hnone]
    by_cases hsource : e.source = source
    · have htarget : e.target ≠ target := fun htarget => hends ⟨hsource, htarget⟩
      simp [htarget]
    · simp [hsource]

def pairOver (pair : Nat × Nat × Nat) (s : Nat × Nat × Nat) :
    Constituent × Constituent × Constituent :=
  (⟨s.1, pair.1, s.2.2⟩, ⟨s.1, pair.2.1, s.2.1⟩, ⟨s.2.1, pair.2.2, s.2.2⟩)

theorem mem_bodyFor?_iff {keep : Constituent → Bool} {pair s : Nat × Nat × Nat} {l r : Constituent} :
    bodyFor? keep t (pairOver pair s) = some (l, r) ↔ (s = (t.source, l.target, t.target) ∧
      pair.1 = t.rule ∧ l = ⟨t.source, pair.2.1, l.target⟩ ∧
        r = ⟨l.target, pair.2.2, t.target⟩ ∧ keep l = true ∧ keep r = true) := by
  obtain ⟨p, m, q⟩ := s
  obtain ⟨source, rule, target⟩ := t
  simp only [bodyFor?, pairOver, Option.ite_none_right_eq_some, Option.some.injEq, Prod.mk.injEq,
    Constituent.mk.injEq]
  constructor
  · rintro ⟨⟨⟨rfl, rfl, rfl⟩, hl, hr⟩, rfl, rfl⟩
    exact ⟨⟨rfl, rfl, rfl⟩, rfl, rfl, rfl, hl, hr⟩
  · rintro ⟨⟨rfl, hm, rfl⟩, rfl, hl, hr, hkeepl, hkeepr⟩
    subst hm
    rw [← hl, ← hr]
    exact ⟨⟨⟨rfl, rfl, rfl⟩, hkeepl, hkeepr⟩, rfl, rfl⟩

section

variable {keep : Constituent → Bool} (hkeep : PartClosed g aut keep)
  (hfollows : ∀ p w q, w ≠ [] → aut.Path p w q → follows p q = true)

include hkeep hfollows

/-- A production is split at the same states, whether triples are gone through or midpoints. -/
theorem perm_splits (pair : Nat × Nat × Nat) :
    ((stateTriples aut.stateCount follows).filterMap fun s =>
        bodyFor? keep t (pairOver pair s)).Perm
      (if pair.1 == t.rule then partsOver keep (visit aut t) pair else []) := by
  have hleft := (nodup_stateTriples aut.stateCount follows).filterMap
    (f := fun s => bodyFor? keep t (pairOver pair s)) fun s s' p hp hp' => by
      rw [(mem_bodyFor?_iff.1 hp).1, (mem_bodyFor?_iff.1 hp').1]
  have hright : (if pair.1 == t.rule then partsOver keep (visit aut t) pair else []).Nodup := by
    split
    · refine List.Nodup.filter _ ((nodup_midpoints _ _ _).map fun m m' heq => ?_)
      exact congrArg (fun p : Constituent × Constituent => p.1.target) heq
    · exact List.nodup_nil
  refine (List.perm_ext_iff_of_nodup hleft hright).2 fun p => ?_
  obtain ⟨l, r⟩ := p
  simp only [List.mem_filterMap, mem_bodyFor?_iff]
  constructor
  · rintro ⟨s, hs, rfl, hrule, hl, hr, hkeepl, hkeepr⟩
    have hspanl := hkeep.spanned l hkeepl
    have hspanr := hkeep.spanned r hkeepr
    rw [if_pos (by simpa using hrule)]
    refine mem_partsOver.2 ⟨l.target, Automaton.mem_midpoints_iff.2 ⟨?_, ?_⟩, hl, hr, hkeepl, hkeepr⟩
    · rw [hl] at hspanl
      exact hspanl.reaches
    · rw [hr] at hspanr
      exact hspanr.reaches
  · intro hmem
    split at hmem
    · next hrule =>
      obtain ⟨m, -, rfl, rfl, hkeepl, hkeepr⟩ := mem_partsOver.1 hmem
      have htriple := mem_stateTriples_of_spans hfollows (hkeep.spanned _ hkeepl)
        (hkeep.spanned _ hkeepr)
      exact ⟨_, htriple, rfl, by simpa using hrule, rfl, rfl, hkeepl, hkeepr⟩
    · cases hmem

theorem perm_bodies :
    (((stateTriples aut.stateCount follows).flatMap (pairsOver g)).filterMap
      (bodyFor? keep t)).Perm (partsOf g aut keep t) := by
  have hover : ∀ s, (pairsOver g s).filterMap (bodyFor? keep t) = g.pairs.flatMap fun pair =>
      (bodyFor? keep t (pairOver pair s)).toList := by
    intro s
    rw [pairsOver, List.filterMap_map, List.filterMap_eq_flatMap_toList]
    rfl
  -- The draft goes through the states and then the productions, the parts are found the other way.
  rw [List.filterMap_flatMap, partsOf, flatMap_filter]
  simp only [hover]
  refine (flatMap_comm_perm _ _ _).trans (List.Perm.flatMap_left _ fun pair _ => ?_)
  rw [← List.filterMap_eq_flatMap_toList]
  exact perm_splits hkeep hfollows pair

end

end Intersection

end GrammarRepair
