import GrammarRepair.Proofs.EditDistance.Ball
import GrammarRepair.Proofs.Grammar.Spans
import GrammarRepair.Proofs.Intersection.Draft
import GrammarRepair.Proofs.Intersection.Marking

/-!
What an intersection derives. Pruning drops no constituent that takes part in a sentence, and
renumbering keeps all productions between the constituents that stay. Main statement: every
constituent that stays derives what its rule derives along a path between its states, and the start
alternatives together derive the sentences that the automaton accepts.
-/

namespace GrammarRepair

namespace Intersection

def Leads (ig : Intersection) (x y : Nat) : Prop :=
  ∃ p ∈ ig.pairs, p.1 = x ∧ (y = p.2.1 ∨ y = p.2.2)

/-- The nonterminals are constituents with the strings that they stand for, none of them is
superfluous, and the start alternatives are those of the grammar's start rule. -/
structure Represents (ig : Intersection) (g : Grammar) (aut : Automaton) : Prop where
  derives_iff : ∀ x t, ig.nonterminals[x]? = some t → ∀ w,
    ig.Derives x w ↔ g.Derives t.rule w ∧ aut.Path t.source w t.target
  productive : ∀ x < ig.nonterminals.size, ∃ w, ig.Derives x w
  reachable : ∀ x < ig.nonterminals.size, ∃ s ∈ ig.starts, Relation.ReflTransGen ig.Leads s x
  mem_starts_iff : ∀ x, x ∈ ig.starts ↔
    ∃ p ∈ aut.initials, ∃ q ∈ aut.finals, ig.nonterminals[x]? = some ⟨p, g.start, q⟩
  isSentence_iff : ∀ w, ig.IsSentence w ↔ g.IsSentence w ∧ aut.accepts w = true

theorem getElem?_filterMap {α β : Type} {f : α → Option β} {xs : List α}
    (h : ∀ x ∈ xs, (f x).isSome = true) (i : Nat) : (xs.filterMap f)[i]? = xs[i]?.bind f := by
  induction xs generalizing i with
  | nil => simp
  | cons x xs ih =>
    obtain ⟨y, hy⟩ := Option.isSome_iff_exists.1 (h x (by simp))
    rw [List.filterMap_cons_some hy]
    cases i with
    | zero => simp [hy]
    | succ i =>
      rw [List.getElem?_cons_succ, List.getElem?_cons_succ]
      exact ih (fun x hx => h x (by simp [hx])) i

section Pruning

variable {d : Draft} {starts : List Nat} {labels : Array Label} {keep : Nat → Bool}
  {x y z i j k t : Nat} {w : List Nat}

def newNumber? (d : Draft) (keep : Nat → Bool) (x : Nat) : Option Nat :=
  (Renumbering.ofKeep d.count keep).new? x

def prune (d : Draft) (starts : List Nat) (labels : Array Label) (keep : Nat → Bool) :
    Intersection :=
  ofDraft d starts labels (.ofKeep d.count keep)

theorem newNumber?_injective (hx : newNumber? d keep x = some i)
    (hy : newNumber? d keep y = some i) : x = y := by
  have hkept := (Renumbering.new?_eq_some_iff keep _ _ _).1 hx
  exact Option.some.inj (hkept.symm.trans ((Renumbering.new?_eq_some_iff keep _ _ _).1 hy))

theorem exists_newNumber?_iff : (∃ i, newNumber? d keep x = some i) ↔
    x < d.count ∧ keep x = true := by
  rw [← Option.isSome_iff_exists]
  exact Renumbering.new?_isSome_iff keep _ _

theorem getElem?_nonterminals {c : Constituent} :
    (prune d starts labels keep).nonterminals[i]? = some c ↔
      ∃ x, newNumber? d keep x = some i ∧ d.roster.items[x]? = some c := by
  have hsome : ∀ x ∈ (Renumbering.ofKeep d.count keep).kept.toList,
      (d.roster.items[x]?).isSome = true := by
    intro x hx
    rw [Renumbering.kept_eq, List.mem_filter, List.mem_range] at hx
    simpa [Draft.count] using hx.1
  rw [prune, ofDraft, ← Array.getElem?_toList, Array.toList_filterMap, getElem?_filterMap hsome,
    Array.getElem?_toList, Option.bind_eq_some_iff]
  simp only [newNumber?, Renumbering.new?_eq_some_iff]

theorem lt_of_newNumber? (h : newNumber? d keep x = some i) :
    i < (prune d starts labels keep).nonterminals.size := by
  obtain ⟨hx, -⟩ := exists_newNumber?_iff.1 ⟨i, h⟩
  have hitem : d.roster.items[x]? = some d.roster.items[x] := Array.getElem?_eq_getElem hx
  exact (Array.getElem?_eq_some_iff.1 (getElem?_nonterminals.2 ⟨x, h, hitem⟩)).1

theorem mem_starts_prune :
    i ∈ (prune d starts labels keep).starts ↔ ∃ x ∈ starts, newNumber? d keep x = some i :=
  List.mem_filterMap

theorem mem_terminals_prune : (i, t) ∈ (prune d starts labels keep).terminals ↔
    ∃ x, newNumber? d keep x = some i ∧ (x, t) ∈ d.terminals := by
  simp only [prune, ofDraft, Array.mem_filterMap, Prod.exists, newNumber?]
  constructor
  · rintro ⟨x, t', hmem, h⟩
    obtain ⟨i', hi, h⟩ := Option.bind_eq_some_iff.1 h
    cases h
    exact ⟨x, hi, hmem⟩
  · rintro ⟨x, hi, hmem⟩
    exact ⟨x, t, hmem, by simp [hi]⟩

theorem mem_pairs_prune : (i, j, k) ∈ (prune d starts labels keep).pairs ↔
    ∃ x y z, newNumber? d keep x = some i ∧ newNumber? d keep y = some j ∧
      newNumber? d keep z = some k ∧ (x, y, z) ∈ d.pairs := by
  simp only [prune, ofDraft, Array.mem_filterMap, Prod.exists, newNumber?]
  constructor
  · rintro ⟨x, y, z, hmem, h⟩
    obtain ⟨i', hi, h⟩ := Option.bind_eq_some_iff.1 h
    obtain ⟨j', hj, h⟩ := Option.bind_eq_some_iff.1 h
    obtain ⟨k', hk, h⟩ := Option.bind_eq_some_iff.1 h
    cases h
    exact ⟨x, y, z, hi, hj, hk, hmem⟩
  · rintro ⟨x, y, z, hi, hj, hk, hmem⟩
    exact ⟨x, y, z, hmem, by simp [hi, hj, hk]⟩

theorem derives_of_prune (h : (prune d starts labels keep).Derives i w)
    (hx : newNumber? d keep x = some i) : Marking.Derives d.pairs d.terminals x w := by
  unfold Derives at h
  induction h generalizing x with
  | terminal h =>
    obtain ⟨x', hx', hmem⟩ := mem_terminals_prune.1 h
    obtain rfl := newNumber?_injective hx hx'
    exact .terminal hmem
  | pair h hv hw ihv ihw =>
    obtain ⟨x', y, z, hx', hy, hz, hmem⟩ := mem_pairs_prune.1 h
    obtain rfl := newNumber?_injective hx hx'
    exact .pair hmem (ihv hy) (ihw hz)

variable (hpairs : Marking.InRange d.count d.pairs)
  (hkeep : ∀ x, keep x = true ↔ ∃ s ∈ starts, (∃ w, Marking.Derives d.pairs d.terminals s w) ∧
    Relation.ReflTransGen (Marking.IsPart d.pairs d.terminals) s x)

include hpairs hkeep

/-- The parts of a production that can be completed stay with its head. -/
theorem newNumber?_of_isPart (hx : newNumber? d keep x = some i)
    (hpart : Marking.IsPart d.pairs d.terminals x y) : ∃ j, newNumber? d keep y = some j := by
  obtain ⟨-, hkept⟩ := exists_newNumber?_iff.1 ⟨i, hx⟩
  obtain ⟨s, hs, hable, hchain⟩ := (hkeep x).1 hkept
  exact exists_newNumber?_iff.2
    ⟨hpart.lt hpairs, (hkeep y).2 ⟨s, hs, hable, hchain.tail hpart⟩⟩

theorem prune_of_derives (h : Marking.Derives d.pairs d.terminals x w)
    (hx : newNumber? d keep x = some i) : (prune d starts labels keep).Derives i w := by
  induction h generalizing i with
  | terminal h => exact .terminal (mem_terminals_prune.2 ⟨_, hx, h⟩)
  | pair h hv hw ihv ihw =>
    obtain ⟨j, hj⟩ := newNumber?_of_isPart hpairs hkeep hx
      ⟨_, h, rfl, .inl rfl, ⟨_, hv⟩, ⟨_, hw⟩⟩
    obtain ⟨k, hk⟩ := newNumber?_of_isPart hpairs hkeep hx
      ⟨_, h, rfl, .inr rfl, ⟨_, hv⟩, ⟨_, hw⟩⟩
    exact .pair (mem_pairs_prune.2 ⟨_, _, _, hx, hj, hk, h⟩) (ihv hj) (ihw hk)

theorem derives_prune_iff (hx : newNumber? d keep x = some i) :
    (prune d starts labels keep).Derives i w ↔ Marking.Derives d.pairs d.terminals x w :=
  ⟨fun h => derives_of_prune h hx, fun h => prune_of_derives hpairs hkeep h hx⟩

/-- Every nonterminal that stays is led to by a start alternative that stays. -/
theorem exists_leads_prune (hstarts : ∀ s ∈ starts, s < d.count)
    (hx : newNumber? d keep x = some i) :
    ∃ s ∈ (prune d starts labels keep).starts,
      Relation.ReflTransGen (prune d starts labels keep).Leads s i := by
  have hchain : ∀ s s' x, newNumber? d keep s = some s' →
      Relation.ReflTransGen (Marking.IsPart d.pairs d.terminals) s x →
        ∃ i, newNumber? d keep x = some i ∧
          Relation.ReflTransGen (prune d starts labels keep).Leads s' i := by
    intro s s' x hs h
    induction h with
    | refl => exact ⟨s', hs, .refl⟩
    | @tail x y h hpart ih =>
      obtain ⟨i, hx, hleads⟩ := ih
      obtain ⟨⟨a, b, c⟩, hmem, rfl, hy, hb, hc⟩ := hpart
      obtain ⟨j, hj⟩ := newNumber?_of_isPart hpairs hkeep hx ⟨_, hmem, rfl, .inl rfl, hb, hc⟩
      obtain ⟨k, hk⟩ := newNumber?_of_isPart hpairs hkeep hx ⟨_, hmem, rfl, .inr rfl, hb, hc⟩
      have hpair : (i, j, k) ∈ (prune d starts labels keep).pairs :=
        mem_pairs_prune.2 ⟨a, b, c, hx, hj, hk, hmem⟩
      rcases hy with rfl | rfl
      · exact ⟨j, hj, hleads.tail ⟨_, hpair, rfl, .inl rfl⟩⟩
      · exact ⟨k, hk, hleads.tail ⟨_, hpair, rfl, .inr rfl⟩⟩
  obtain ⟨-, hkept⟩ := exists_newNumber?_iff.1 ⟨i, hx⟩
  obtain ⟨s, hs, hable, h⟩ := (hkeep x).1 hkept
  obtain ⟨s', hs'⟩ := exists_newNumber?_iff.2 ⟨hstarts s hs, (hkeep s).2 ⟨s, hs, hable, .refl⟩⟩
  obtain ⟨i', hi', hleads⟩ := hchain s s' x hs' h
  obtain rfl : i = i' := Option.some.inj (hx.symm.trans hi')
  exact ⟨s', mem_starts_prune.2 ⟨s, hs, hs'⟩, hleads⟩

theorem exists_derives_prune (hx : newNumber? d keep x = some i) :
    ∃ w, (prune d starts labels keep).Derives i w := by
  obtain ⟨-, hkept⟩ := exists_newNumber?_iff.1 ⟨i, hx⟩
  obtain ⟨s, hs, hable, h⟩ := (hkeep x).1 hkept
  have hderives : ∃ w, Marking.Derives d.pairs d.terminals x w := by
    cases h with
    | refl => exact hable
    | tail h hpart => exact hpart.exists_derives
  obtain ⟨w, hw⟩ := hderives
  exact ⟨w, prune_of_derives hpairs hkeep hw hx⟩

end Pruning

variable {g : Grammar} {aut : Automaton} {follows : Nat → Nat → Bool} {x : Nat} {w : List Nat}

theorem inRange_draft (g : Grammar) (aut : Automaton) (follows : Nat → Nat → Bool) :
    Marking.InRange (draft g aut follows).count (draft g aut follows).pairs := by
  intro p hp
  obtain ⟨p', -, hx, hy, hz⟩ := exists_of_mem_left (records_draft g aut follows).pairs
    (Array.mem_toList_iff.2 hp)
  exact ⟨(Array.getElem?_eq_some_iff.1 hx).1, (Array.getElem?_eq_some_iff.1 hy).1,
    (Array.getElem?_eq_some_iff.1 hz).1⟩

theorem lt_count_of_mem_terminals :
    ∀ p ∈ (draft g aut follows).terminals, p.1 < (draft g aut follows).count := by
  intro p hp
  obtain ⟨p', -, hx, -⟩ := exists_of_mem_left (records_draft g aut follows).terminals
    (Array.mem_toList_iff.2 hp)
  exact (Array.getElem?_eq_some_iff.1 hx).1

theorem mem_startsOf {d : Draft} : x ∈ startsOf g aut d ↔
    ∃ p ∈ aut.initials, ∃ q ∈ aut.finals, d.roster.items[x]? = some ⟨p, g.start, q⟩ := by
  simp only [startsOf, List.mem_flatMap, List.mem_filterMap, Roster.position?_eq_some_iff]

theorem lt_count_of_mem_startsOf {d : Draft} : ∀ x ∈ startsOf g aut d, x < d.count := by
  intro x hx
  obtain ⟨p, -, q, -, hitem⟩ := mem_startsOf.1 hx
  exact (Array.getElem?_eq_some_iff.1 hitem).1

theorem derives_draft_iff
    (hfollows : ∀ p w q, w ≠ [] → aut.Path p w q → follows p q = true) {c : Constituent}
    (hx : (draft g aut follows).roster.items[x]? = some c) :
    Marking.Derives (draft g aut follows).pairs (draft g aut follows).terminals x w ↔
      g.Derives c.rule w ∧ aut.Path c.source w c.target := by
  constructor
  · intro h
    exact derives_of_draft h hx
  · rintro ⟨h, hpath⟩
    obtain ⟨y, hy, hw⟩ := draft_of_derives hfollows h hpath
    obtain rfl := Roster.index_unique hx hy
    exact hw

def keeps (g : Grammar) (aut : Automaton) (d : Draft) (x : Nat) : Bool :=
  (Marking.useful d.count (startsOf g aut d) d.pairs d.terminals).getD x false

theorem keeps_iff (g : Grammar) (aut : Automaton) (follows : Nat → Nat → Bool) (x : Nat) :
    keeps g aut (draft g aut follows) x = true ↔
    ∃ s ∈ startsOf g aut (draft g aut follows),
      (∃ w, Marking.Derives (draft g aut follows).pairs (draft g aut follows).terminals s w) ∧
        Relation.ReflTransGen
          (Marking.IsPart (draft g aut follows).pairs (draft g aut follows).terminals) s x :=
  Marking.useful_iff (inRange_draft g aut follows) lt_count_of_mem_terminals
    lt_count_of_mem_startsOf

/-- The intersection before it is known whether it is empty. -/
def pruned (g : Grammar) (aut : Automaton) (follows : Nat → Nat → Bool) : Intersection :=
  prune (draft g aut follows) (startsOf g aut (draft g aut follows)) aut.labels
    (keeps g aut (draft g aut follows))

theorem value_build : (build g aut follows).value =
    if (pruned g aut follows).starts.isEmpty then
      .error ⟨(startsOf g aut (draft g aut follows)).length + (draft g aut follows).pairs.size +
        (draft g aut follows).terminals.size⟩
    else .ok (pruned g aut follows) := rfl

theorem eq_pruned_of_build {ig : Intersection} (h : (build g aut follows).value = .ok ig) :
    ig = pruned g aut follows := by
  rw [value_build] at h
  split at h
  · cases h
  · exact (Except.ok.inj h).symm

theorem eq_pruned_of_intersect {ig : Intersection} (h : (intersect g aut).value = .ok ig) :
    ig = pruned g aut (Intersection.follows aut aut.reach) :=
  eq_pruned_of_build h

theorem nodup_nonterminals_pruned (g : Grammar) (aut : Automaton) (follows : Nat → Nat → Bool) :
    (pruned g aut follows).nonterminals.toList.Nodup := by
  rw [pruned, prune, ofDraft, Array.toList_filterMap, Renumbering.kept_eq]
  refine (List.nodup_range.filter _).filterMap ?_
  exact fun x y c hx hy => Roster.index_unique hx hy

theorem exists_newNumber?_of_mem_startsOf (hx : x ∈ startsOf g aut (draft g aut follows))
    (h : Marking.Derives (draft g aut follows).pairs (draft g aut follows).terminals x w) :
    ∃ i, newNumber? (draft g aut follows) (keeps g aut (draft g aut follows)) x = some i := by
  have hkeep : keeps g aut (draft g aut follows) x = true :=
    (keeps_iff g aut follows x).2 ⟨x, hx, ⟨w, h⟩, .refl⟩
  exact exists_newNumber?_iff.2 ⟨lt_count_of_mem_startsOf x hx, hkeep⟩

theorem mem_starts_pruned {i : Nat} : i ∈ (pruned g aut follows).starts ↔
    ∃ p ∈ aut.initials, ∃ q ∈ aut.finals,
      (pruned g aut follows).nonterminals[i]? = some ⟨p, g.start, q⟩ := by
  simp only [pruned, mem_starts_prune, mem_startsOf, getElem?_nonterminals]
  constructor
  · rintro ⟨x, ⟨p, hp, q, hq, hitem⟩, hx⟩
    exact ⟨p, hp, q, hq, x, hx, hitem⟩
  · rintro ⟨p, hp, q, hq, x, hx, hitem⟩
    exact ⟨x, ⟨p, hp, q, hq, hitem⟩, hx⟩

section

variable (hfollows : ∀ p w q, w ≠ [] → aut.Path p w q → follows p q = true)

include hfollows

theorem derives_pruned_iff {i : Nat} {t : Constituent}
    (hi : (pruned g aut follows).nonterminals[i]? = some t) :
    (pruned g aut follows).Derives i w ↔ g.Derives t.rule w ∧ aut.Path t.source w t.target := by
  obtain ⟨x, hx, hitem⟩ := getElem?_nonterminals.1 hi
  rw [pruned, derives_prune_iff (inRange_draft g aut follows) (keeps_iff g aut follows) hx]
  exact derives_draft_iff hfollows hitem

/-- The start alternatives derive what is both a sentence and accepted. -/
theorem exists_derives_pruned_iff :
    (∃ i ∈ (pruned g aut follows).starts, (pruned g aut follows).Derives i w) ↔
      g.IsSentence w ∧ aut.accepts w = true := by
  constructor
  · rintro ⟨i, hi, hw⟩
    obtain ⟨p, hp, q, hq, hitem⟩ := mem_starts_pruned.1 hi
    obtain ⟨hsentence, hpath⟩ := (derives_pruned_iff hfollows hitem).1 hw
    exact ⟨hsentence, Automaton.accepts_iff.2 ⟨p, hp, q, hq, hpath⟩⟩
  · rintro ⟨hsentence, haccepts⟩
    obtain ⟨p, hp, q, hq, hpath⟩ := Automaton.accepts_iff.1 haccepts
    obtain ⟨x, hitem, hw⟩ := draft_of_derives hfollows hsentence hpath
    have hx := mem_startsOf.2 ⟨p, hp, q, hq, hitem⟩
    obtain ⟨i, hi⟩ := exists_newNumber?_of_mem_startsOf hx hw
    have hderives : (pruned g aut follows).Derives i w :=
      prune_of_derives (inRange_draft g aut follows) (keeps_iff g aut follows) hw hi
    exact ⟨i, mem_starts_prune.2 ⟨x, hx, hi⟩, hderives⟩

theorem represents_pruned : (pruned g aut follows).Represents g aut := by
  have hpairs := inRange_draft g aut follows
  have hkeep := keeps_iff g aut follows
  have hnumber : ∀ i < (pruned g aut follows).nonterminals.size,
      ∃ x, newNumber? (draft g aut follows) (keeps g aut (draft g aut follows)) x = some i := by
    intro i hi
    obtain ⟨x, hx, -⟩ := getElem?_nonterminals.1 (Array.getElem?_eq_getElem hi)
    exact ⟨x, hx⟩
  refine ⟨fun i t hi w => derives_pruned_iff hfollows hi, ?_, ?_, fun _ => mem_starts_pruned,
    fun w => exists_derives_pruned_iff hfollows⟩
  · intro i hi
    obtain ⟨x, hx⟩ := hnumber i hi
    exact exists_derives_prune hpairs hkeep hx
  · intro i hi
    obtain ⟨x, hx⟩ := hnumber i hi
    exact exists_leads_prune hpairs hkeep lt_count_of_mem_startsOf hx

end

theorem Represents.starts_ne_nil_iff {ig : Intersection} (h : ig.Represents g aut) :
    ig.starts ≠ [] ↔ ∃ w, g.IsSentence w ∧ aut.accepts w = true := by
  constructor
  · intro hne
    obtain ⟨i, hi⟩ := List.exists_mem_of_ne_nil _ hne
    obtain ⟨p, -, q, -, hitem⟩ := (h.mem_starts_iff i).1 hi
    obtain ⟨w, hw⟩ := h.productive i (Array.getElem?_eq_some_iff.1 hitem).1
    exact ⟨w, (h.isSentence_iff w).1 ⟨i, hi, hw⟩⟩
  · rintro ⟨w, hw⟩
    obtain ⟨i, hi, -⟩ := (h.isSentence_iff w).2 hw
    exact List.ne_nil_of_mem hi

theorem isOk_build_iff (hfollows : ∀ p w q, w ≠ [] → aut.Path p w q → follows p q = true) :
    (build g aut follows).value.isOk = true ↔ ∃ w, g.IsSentence w ∧ aut.accepts w = true := by
  rw [← (represents_pruned hfollows).starts_ne_nil_iff, value_build]
  split
  · next hempty => simp [Except.isOk, Except.toBool, List.isEmpty_iff.1 hempty]
  · next hempty => simpa [Except.isOk, Except.toBool] using hempty

end Intersection

open Intersection

theorem isOk_intersect_iff (g : Grammar) (aut : Automaton) :
    (intersect g aut).value.isOk = true ↔ ∃ w, g.IsSentence w ∧ aut.accepts w = true :=
  isOk_build_iff fun _ _ _ => follows_of_path

/-- The intersection is there exactly when some string is both a sentence and accepted, and then it
represents the grammar between the states of the automaton. -/
theorem intersect_represents (g : Grammar) (aut : Automaton) :
    ((intersect g aut).value.isOk = true ↔
      ∃ w, w ≠ [] ∧ g.IsSentence w ∧ aut.accepts w = true) ∧
    ∀ ig, (intersect g aut).value = .ok ig → ig.Represents g aut := by
  constructor
  · rw [isOk_intersect_iff]
    constructor
    · rintro ⟨w, hsentence, haccepts⟩
      exact ⟨w, hsentence.ne_nil, hsentence, haccepts⟩
    · rintro ⟨w, -, hsentence, haccepts⟩
      exact ⟨w, hsentence, haccepts⟩
  · intro ig hok
    rw [eq_pruned_of_intersect hok]
    exact represents_pruned fun _ _ _ => follows_of_path

/-- The grammar with the only sentence `'a' 'b'`. -/
def twoTokens : Grammar :=
  .assemble ["S", "A", "B"] 0 ["a", "b"] [⟨0, .pair 1 2⟩, ⟨1, .token 0⟩, ⟨2, .token 1⟩]
    (by decide) (by decide) (by decide) (by simp [Production.InRange])

theorem isSentence_twoTokens_iff {w : List Nat} : twoTokens.IsSentence w ↔ w = [0, 1] := by
  have hproductions : twoTokens.productions.toList =
      [⟨0, .pair 1 2⟩, ⟨1, .token 0⟩, ⟨2, .token 1⟩] := rfl
  have htoken : ∀ a w, a ≠ 0 → twoTokens.Derives a w → w = [a - 1] := by
    intro a w ha h
    cases h with
    | token h =>
      rw [hproductions] at h
      simp at h
      rcases h with ⟨rfl, rfl⟩ | ⟨rfl, rfl⟩ <;> rfl
    | pair h hv hw =>
      rw [hproductions] at h
      simp [ha] at h
  constructor
  · intro h
    cases h with
    | token h =>
      rw [hproductions] at h
      simp [twoTokens, Grammar.assemble] at h
    | pair h hv hw =>
      rw [hproductions] at h
      simp at h
      obtain ⟨-, rfl, rfl⟩ := h
      rw [htoken 1 _ (by decide) hv, htoken 2 _ (by decide) hw]
      rfl
  · rintro rfl
    have ha : twoTokens.Derives 1 [0] := .token (by decide)
    have hb : twoTokens.Derives 2 [1] := .token (by decide)
    exact .pair (by decide) ha hb

theorem intersect_represents_twoTokens :
    ∃ ig, (intersect twoTokens (ball [0] 1 [0, 1]).value).value = .ok ig ∧
      ig.IsSentence [0, 1] := by
  obtain ⟨hok, hrepresents⟩ := intersect_represents twoTokens (ball [0] 1 [0, 1]).value
  have haccepts : (ball [0] 1 [0, 1]).value.accepts [0, 1] = true :=
    (accepts_ball_iff_editDistance_le (by decide)).2 (by decide)
  have hsentence : twoTokens.IsSentence [0, 1] := isSentence_twoTokens_iff.2 rfl
  have hvalue := hok.2 ⟨[0, 1], by simp, hsentence, haccepts⟩
  cases h : (intersect twoTokens (ball [0] 1 [0, 1]).value).value with
  | error e =>
    rw [h] at hvalue
    cases hvalue
  | ok ig =>
    exact ⟨ig, rfl, ((hrepresents ig h).isSentence_iff [0, 1]).2 ⟨hsentence, haccepts⟩⟩

end GrammarRepair
