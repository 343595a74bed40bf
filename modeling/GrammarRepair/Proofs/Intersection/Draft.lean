import GrammarRepair.Intersection.Language
import GrammarRepair.Proofs.Automaton.Reach
import GrammarRepair.Proofs.Grammar.Tables
import GrammarRepair.Proofs.MapState

/-!
What the draft of an intersection says. A constituent keeps the number it is given first, so the
productions of a draft can be read back as productions between constituents. Main statement: in a
draft, a constituent derives what its rule derives along a path from its source to its target.
-/

namespace GrammarRepair

namespace Roster

variable {α : Type} [BEq α] [Hashable α] {r : Roster α} {x y : α} {i j : Nat}

theorem index_unique (hi : r.items[i]? = some x) (hj : r.items[j]? = some x) : i = j := by
  have hx := (r.position?_eq_some_iff x i).2 hi
  rw [(r.position?_eq_some_iff x j).2 hj] at hx
  exact (Option.some.inj hx).symm

theorem getElem?_position? (h : x ∈ r.toList) : r.items[(r.position? x).getD 0]? = some x := by
  obtain ⟨i, hi, hget⟩ := List.getElem_of_mem h
  have hitem : r.items[i]? = some x := by
    rw [← Array.getElem?_toList]
    exact List.getElem?_eq_some_iff.2 ⟨hi, hget⟩
  rw [(r.position?_eq_some_iff x i).2 hitem]
  exact hitem

variable [LawfulBEq α]

theorem getElem?_add (h : r.items[i]? = some x) : (r.add y).items[i]? = some x := by
  unfold add
  split
  · exact h
  · have hi := (Array.getElem?_eq_some_iff.1 h).1
    rw [Array.getElem?_push_lt hi, ← Array.getElem?_eq_getElem hi, h]

theorem mem_add_self : x ∈ (r.add x).toList := (mem_add r x x).2 (.inr rfl)

theorem mem_add_of_mem (h : x ∈ r.toList) : x ∈ (r.add y).toList := (mem_add r y x).2 (.inl h)

end Roster

namespace Intersection

def ReadsTerminal (r : Roster Constituent) (p : Nat × Nat) (p' : Constituent × Nat) : Prop :=
  r.items[p.1]? = some p'.1 ∧ p.2 = p'.2

def ReadsPair (r : Roster Constituent) (p : Nat × Nat × Nat)
    (p' : Constituent × Constituent × Constituent) : Prop :=
  r.items[p.1]? = some p'.1 ∧ r.items[p.2.1]? = some p'.2.1 ∧ r.items[p.2.2]? = some p'.2.2

theorem readsTerminal_positions {r : Roster Constituent} {t : Constituent} (token : Nat)
    (ht : t ∈ r.toList) : ReadsTerminal r ((r.position? t).getD 0, token) (t, token) :=
  ⟨Roster.getElem?_position? ht, rfl⟩

theorem readsPair_positions {r : Roster Constituent} {x y z : Constituent} (hx : x ∈ r.toList)
    (hy : y ∈ r.toList) (hz : z ∈ r.toList) :
    ReadsPair r ((r.position? x).getD 0, (r.position? y).getD 0, (r.position? z).getD 0)
      (x, y, z) :=
  ⟨Roster.getElem?_position? hx, Roster.getElem?_position? hy, Roster.getElem?_position? hz⟩

namespace Draft

/-- The numbered productions are those of the lists, written with constituents. -/
structure Records (d : Draft) (terminals : List (Constituent × Nat))
    (pairs : List (Constituent × Constituent × Constituent)) : Prop where
  terminals : List.Forall₂ (ReadsTerminal d.roster) d.terminals.toList terminals
  pairs : List.Forall₂ (ReadsPair d.roster) d.pairs.toList pairs

variable {d : Draft} {terminals : List (Constituent × Nat)}
  {pairs : List (Constituent × Constituent × Constituent)} {t : Constituent}

theorem records_empty : empty.Records [] [] := ⟨.nil, .nil⟩

theorem Records.addRoster (h : d.Records terminals pairs) (t : Constituent) :
    Records { d with roster := d.roster.add t } terminals pairs where
  terminals := h.terminals.imp fun _ _ hp => ⟨Roster.getElem?_add hp.1, hp.2⟩
  pairs := h.pairs.imp fun _ _ hp =>
    ⟨Roster.getElem?_add hp.1, Roster.getElem?_add hp.2.1, Roster.getElem?_add hp.2.2⟩

theorem Records.addTerminal (h : d.Records terminals pairs) (t : Constituent) (token : Nat) :
    (d.addTerminal t token).Records (terminals ++ [(t, token)]) pairs := by
  have hadd := h.addRoster t
  refine ⟨?_, hadd.pairs⟩
  have hlast := readsTerminal_positions token (Roster.mem_add_self (r := d.roster) (x := t))
  rw [Draft.addTerminal, Array.toList_push]
  exact List.rel_append hadd.terminals (.cons hlast .nil)

theorem Records.addPair (h : d.Records terminals pairs) (x y z : Constituent) :
    (d.addPair x y z).Records terminals (pairs ++ [(x, y, z)]) := by
  have hadd := ((h.addRoster x).addRoster y).addRoster z
  have hx : x ∈ (((d.roster.add x).add y).add z).toList :=
    Roster.mem_add_of_mem (Roster.mem_add_of_mem Roster.mem_add_self)
  have hy : y ∈ (((d.roster.add x).add y).add z).toList :=
    Roster.mem_add_of_mem Roster.mem_add_self
  have hlast := readsPair_positions hx hy Roster.mem_add_self
  refine ⟨hadd.terminals, ?_⟩
  rw [Draft.addPair, Array.toList_push]
  exact List.rel_append hadd.pairs (.cons hlast .nil)

theorem Records.foldl_addTerminal (h : d.Records terminals pairs)
    (ts : List (Constituent × Nat)) :
    (ts.foldl (fun d p => d.addTerminal p.1 p.2) d).Records (terminals ++ ts) pairs := by
  induction ts generalizing d terminals with
  | nil => simpa using h
  | cons p ts ih => simpa using ih (h.addTerminal p.1 p.2)

theorem Records.foldl_addPair (h : d.Records terminals pairs)
    (ps : List (Constituent × Constituent × Constituent)) :
    (ps.foldl (fun d p => d.addPair p.1 p.2.1 p.2.2) d).Records terminals (pairs ++ ps) := by
  induction ps generalizing d pairs with
  | nil => simpa using h
  | cons p ps ih => simpa using ih (h.addPair p.1 p.2.1 p.2.2)

end Draft

variable {g : Grammar} {aut : Automaton} {follows : Nat → Nat → Bool}

def terminalsOf (g : Grammar) (e : Edge) : List (Constituent × Nat) :=
  (g.rulesOf e.token).map fun a => (⟨e.source, a, e.target⟩, e.token)

def pairsOver (g : Grammar) (s : Nat × Nat × Nat) :
    List (Constituent × Constituent × Constituent) :=
  g.pairs.map fun p => (⟨s.1, p.1, s.2.2⟩, ⟨s.1, p.2.1, s.2.1⟩, ⟨s.2.1, p.2.2, s.2.2⟩)

theorem addEdge_eq : addEdge g =
    fun d e => (terminalsOf g e).foldl (fun d p => d.addTerminal p.1 p.2) d := by
  funext d e
  rw [terminalsOf, List.foldl_map, addEdge]

theorem addStates_eq : addStates g =
    fun d s => (pairsOver g s).foldl (fun d p => d.addPair p.1 p.2.1 p.2.2) d := by
  funext d s
  rw [pairsOver, List.foldl_map, addStates]

theorem records_draft (g : Grammar) (aut : Automaton) (follows : Nat → Nat → Bool) :
    (draft g aut follows).Records (aut.edges.flatMap (terminalsOf g))
      ((stateTriples aut.stateCount follows).flatMap (pairsOver g)) := by
  have hedges : (aut.edges.foldl (addEdge g) .empty).Records
      (aut.edges.flatMap (terminalsOf g)) [] := by
    rw [addEdge_eq, ← List.foldl_flatMap]
    exact Draft.records_empty.foldl_addTerminal _
  rw [draft]
  by_cases hpairs : g.pairs = []
  · have hnone : (stateTriples aut.stateCount follows).flatMap (pairsOver g) = [] := by
      simp [pairsOver, hpairs]
    rw [if_pos (List.isEmpty_iff.2 hpairs), hnone]
    exact hedges
  · rw [if_neg (mt List.isEmpty_iff.1 hpairs), addStates_eq, ← List.foldl_flatMap]
    exact hedges.foldl_addPair _

theorem mem_terminalsOf {e : Edge} {c : Constituent} {t : Nat} : (c, t) ∈ terminalsOf g e ↔
    ∃ a, ⟨a, .token t⟩ ∈ g.productions.toList ∧ c = ⟨e.source, a, e.target⟩ ∧ t = e.token := by
  simp only [terminalsOf, List.mem_map, Grammar.mem_rulesOf, Prod.mk.injEq]
  constructor
  · rintro ⟨a, ha, rfl, rfl⟩
    exact ⟨a, ha, rfl, rfl⟩
  · rintro ⟨a, ha, rfl, rfl⟩
    exact ⟨a, ha, rfl, rfl⟩

theorem mem_pairsOver {p q r : Nat} {x y z : Constituent} :
    (x, y, z) ∈ pairsOver g (p, q, r) ↔ ∃ a b c, ⟨a, .pair b c⟩ ∈ g.productions.toList ∧
      x = ⟨p, a, r⟩ ∧ y = ⟨p, b, q⟩ ∧ z = ⟨q, c, r⟩ := by
  simp only [pairsOver, List.mem_map, Prod.exists, Grammar.mem_pairs, Prod.mk.injEq]
  constructor
  · rintro ⟨a, b, c, h, rfl, rfl, rfl⟩
    exact ⟨a, b, c, h, rfl, rfl, rfl⟩
  · rintro ⟨a, b, c, h, rfl, rfl, rfl⟩
    exact ⟨a, b, c, h, rfl, rfl, rfl⟩

theorem mem_stateTriples {n p q r : Nat} : (p, q, r) ∈ stateTriples n follows ↔
    p < q ∧ q < r ∧ r < n ∧ follows p q = true ∧ follows q r = true := by
  simp only [stateTriples, List.mem_flatMap, List.mem_map, List.mem_filter, List.mem_range,
    List.mem_range'_1, Prod.mk.injEq]
  constructor
  · rintro ⟨p, hp, q, ⟨hq, hpq⟩, r, ⟨hr, hqr⟩, rfl, rfl, rfl⟩
    exact ⟨by omega, by omega, by omega, hpq, hqr⟩
  · rintro ⟨hpq, hqr, hr, hfpq, hfqr⟩
    exact ⟨p, by omega, q, ⟨by omega, hfpq⟩, r, ⟨by omega, hfqr⟩, rfl, rfl, rfl⟩

/-- A numbered constituent derives nothing but what its rule derives along a path. -/
theorem derives_of_draft {x : Nat} {w : List Nat} {c : Constituent}
    (h : Marking.Derives (draft g aut follows).pairs (draft g aut follows).terminals x w)
    (hx : (draft g aut follows).roster.items[x]? = some c) :
    g.Derives c.rule w ∧ aut.Path c.source w c.target := by
  have hrecords := records_draft g aut follows
  induction h generalizing c with
  | terminal h =>
    obtain ⟨⟨c', t⟩, hmem, hc, rfl⟩ := exists_of_mem_left hrecords.terminals
      (Array.mem_toList_iff.2 h)
    obtain rfl : c = c' := Option.some.inj (hx.symm.trans hc)
    obtain ⟨e, he, hmem⟩ := List.mem_flatMap.1 hmem
    obtain ⟨a, ha, rfl, rfl⟩ := mem_terminalsOf.1 hmem
    exact ⟨.token ha, .step he (.stop _)⟩
  | pair h hv hw ihv ihw =>
    obtain ⟨⟨c', l, r⟩, hmem, hc, hl, hr⟩ := exists_of_mem_left hrecords.pairs
      (Array.mem_toList_iff.2 h)
    obtain rfl : c = c' := Option.some.inj (hx.symm.trans hc)
    obtain ⟨⟨p, s, q⟩, -, hmem⟩ := List.mem_flatMap.1 hmem
    obtain ⟨a, b, c, ha, rfl, rfl, rfl⟩ := mem_pairsOver.1 hmem
    obtain ⟨hb, hleft⟩ := ihv hl
    obtain ⟨hc, hright⟩ := ihw hr
    exact ⟨.pair ha hb hc, hleft.append hright⟩

/-- Whatever a rule derives along a path, the numbered constituent derives, if no state that a path
passes is left out. -/
theorem draft_of_derives
    (hfollows : ∀ p w q, w ≠ [] → aut.Path p w q → follows p q = true) {a p q : Nat}
    {w : List Nat} (h : g.Derives a w) (hpath : aut.Path p w q) :
    ∃ x, (draft g aut follows).roster.items[x]? = some ⟨p, a, q⟩ ∧
      Marking.Derives (draft g aut follows).pairs (draft g aut follows).terminals x w := by
  have hrecords := records_draft g aut follows
  induction h generalizing p q with
  | @token a t ha =>
    obtain ⟨e, he, rfl, rfl, hstop⟩ := Automaton.path_cons_iff.1 hpath
    obtain rfl := Automaton.path_nil_iff.1 hstop
    have hmem : ((⟨e.source, a, e.target⟩ : Constituent), e.token) ∈
        aut.edges.flatMap (terminalsOf g) :=
      List.mem_flatMap.2 ⟨e, he, mem_terminalsOf.2 ⟨a, ha, rfl, rfl⟩⟩
    obtain ⟨⟨x, t⟩, hx, hitem, rfl⟩ := exists_of_mem_right hrecords.terminals hmem
    exact ⟨x, hitem, .terminal (Array.mem_toList_iff.1 hx)⟩
  | @pair a b c v w ha hv hw ihv ihw =>
    obtain ⟨s, hleft, hright⟩ := Automaton.path_append_iff.1 hpath
    obtain ⟨y, hy, hyv⟩ := ihv hleft
    obtain ⟨z, hz, hzw⟩ := ihw hright
    have htriple : (p, s, q) ∈ stateTriples aut.stateCount follows :=
      mem_stateTriples.2 ⟨hleft.lt hv.ne_nil, hright.lt hw.ne_nil, hright.target_lt hw.ne_nil,
        hfollows p v s hv.ne_nil hleft, hfollows s w q hw.ne_nil hright⟩
    have hmem : ((⟨p, a, q⟩, ⟨p, b, s⟩, ⟨s, c, q⟩) : Constituent × Constituent × Constituent) ∈
        (stateTriples aut.stateCount follows).flatMap (pairsOver g) :=
      List.mem_flatMap.2 ⟨_, htriple, mem_pairsOver.2 ⟨a, b, c, ha, rfl, rfl, rfl⟩⟩
    obtain ⟨⟨x, y', z'⟩, hx, hitem, hy', hz'⟩ := exists_of_mem_right hrecords.pairs hmem
    obtain rfl := Roster.index_unique hy hy'
    obtain rfl := Roster.index_unique hz hz'
    exact ⟨x, hitem, .pair (Array.mem_toList_iff.1 hx) hyv hzw⟩

theorem dominates_trans {l m n : Label} (h : l.dominates m = true) (h' : m.dominates n = true) :
    l.dominates n = true := by
  cases l with
  | plain i => cases h
  | grid i j =>
    cases m with
    | plain i' => cases h
    | grid i' j' =>
      cases n with
      | plain i'' => cases h'
      | grid i'' j'' =>
        simp only [Label.dominates, Bool.and_eq_true, decide_eq_true_eq] at *
        omega

/-- In a grid, the labels along a path dominate each other. -/
theorem dominates_of_path {p q : Nat} {w : List Nat} (hgrid : aut.isGrid = true)
    (hpath : aut.Path p w q) (hne : w ≠ []) : (aut.label p).dominates (aut.label q) = true := by
  induction hpath with
  | stop p => exact absurd rfl hne
  | @step e w q he h ih =>
    have hedge : (aut.label e.source).dominates (aut.label e.target) = true := by
      rw [Automaton.isGrid, Bool.and_eq_true, List.all_eq_true] at hgrid
      exact hgrid.2 e he
    by_cases hw : w = []
    · subst hw
      obtain rfl := Automaton.path_nil_iff.1 h
      exact hedge
    · exact dominates_trans hedge (ih hw)

/-- No state that a path leads to is thought to lie elsewhere. -/
theorem follows_of_path {p q : Nat} {w : List Nat} (hne : w ≠ []) (hpath : aut.Path p w q) :
    Intersection.follows aut aut.reach p q = true := by
  unfold Intersection.follows
  split
  · next hgrid =>
    rw [Bool.and_eq_true, bne_iff_ne]
    exact ⟨Nat.ne_of_lt (hpath.lt hne), dominates_of_path hgrid hpath hne⟩
  · exact Automaton.reaches_iff.2 ⟨w, hne, hpath⟩

end Intersection

end GrammarRepair
