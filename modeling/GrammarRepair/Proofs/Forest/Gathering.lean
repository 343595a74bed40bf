import GrammarRepair.Forest.Gathering
import GrammarRepair.Proofs.Checked
import GrammarRepair.Proofs.Forest.Arena

/-!
What is gathered over an automaton. Entering findings one by one gives each constituent a node when
it is first found, and all that is found of it later is added to that node. Main statement: gathering
enters the tokens and then all pairs of parts that are let in, so it makes the same nodes as growing
an arena, if with other numbers.
-/

namespace GrammarRepair

theorem distinct_concat {α : Type} [BEq α] [Hashable α] [LawfulBEq α] (xs : List α) (x : α) :
    distinct (xs ++ [x]) = if x ∈ xs then distinct xs else distinct xs ++ [x] := by
  have hstep : distinct (xs ++ [x]) =
      if (distinct xs).contains x then distinct xs else distinct xs ++ [x] := by
    rw [distinct_eq_foldl, List.foldl_append, ← distinct_eq_foldl]
    rfl
  rw [hstep]
  simp only [List.contains_iff_mem, mem_distinct]

namespace Finding

def whole : Finding → Constituent
  | .token t _ => t
  | .parts t _ _ => t

def tokenOf? (t : Constituent) : Finding → Option Nat
  | .token u x => if u = t then some x else none
  | .parts _ _ _ => none

def partsOf? (t : Constituent) : Finding → Option (Constituent × Constituent)
  | .token _ _ => none
  | .parts u l r => if u = t then some (l, r) else none

def addTo (ls : List Constituent) : Finding → Node → Node
  | .token _ x, node => { node with leaves := node.leaves ++ [x] }
  | .parts _ l r, node => { node with branches := node.branches ++ [(ls.idxOf l, ls.idxOf r)] }

def PartsIn (ls : List Constituent) (f : Finding) : Prop :=
  ∀ t p, f.partsOf? t = some p → p.1 ∈ ls ∧ p.2 ∈ ls

end Finding

namespace Gathering

open Constituent Finding

variable {s : Gathering} {fs : List Finding} {f : Finding} {ls : List Constituent} {t : Constituent}

/-- What was found to have a node, in the order in which it was first found. -/
def labels (fs : List Finding) : List Constituent := distinct (fs.map Finding.whole)

theorem nodup_labels (fs : List Finding) : (labels fs).Nodup := nodup_distinct _

theorem mem_labels : t ∈ labels fs ↔ ∃ f ∈ fs, f.whole = t := by
  rw [labels, mem_distinct, List.mem_map]

theorem labels_concat (fs : List Finding) (f : Finding) :
    labels (fs ++ [f]) = if f.whole ∈ labels fs then labels fs else labels fs ++ [f.whole] := by
  rw [labels, List.map_append, List.map_singleton, distinct_concat]
  simp only [labels, mem_distinct]

/-- The node of a constituent after all findings, where `ls` are the labels of the nodes. -/
def nodeFrom (fs : List Finding) (ls : List Constituent) (t : Constituent) : Node :=
  ⟨t, fs.filterMap (tokenOf? t),
    (fs.filterMap (partsOf? t)).map fun p => (ls.idxOf p.1, ls.idxOf p.2)⟩

theorem tokenOf?_ne (h : f.whole ≠ t) : f.tokenOf? t = none := by
  cases f with
  | token u x => exact if_neg h
  | parts u l r => rfl

theorem partsOf?_ne (h : f.whole ≠ t) : f.partsOf? t = none := by
  cases f with
  | token u x => rfl
  | parts u l r => exact if_neg h

theorem nodeFrom_concat_whole (fs : List Finding) (ls : List Constituent) (f : Finding) :
    nodeFrom (fs ++ [f]) ls f.whole = f.addTo ls (nodeFrom fs ls f.whole) := by
  cases f with
  | token u x => simp [nodeFrom, addTo, whole, tokenOf?, partsOf?, List.filterMap_append]
  | parts u l r => simp [nodeFrom, addTo, whole, tokenOf?, partsOf?, List.filterMap_append]

theorem nodeFrom_concat_ne (fs : List Finding) (ls : List Constituent) (h : f.whole ≠ t) :
    nodeFrom (fs ++ [f]) ls t = nodeFrom fs ls t := by
  simp [nodeFrom, List.filterMap_append, tokenOf?_ne h, partsOf?_ne h]

theorem nodeFrom_of_notMem (ls : List Constituent) (h : t ∉ labels fs) :
    nodeFrom fs ls t = ⟨t, [], []⟩ := by
  have hne : ∀ f ∈ fs, f.whole ≠ t := fun f hf heq => h (mem_labels.2 ⟨f, hf, heq⟩)
  have htokens : fs.filterMap (tokenOf? t) = [] :=
    List.filterMap_eq_nil_iff.2 fun f hf => tokenOf?_ne (hne f hf)
  have hparts : fs.filterMap (partsOf? t) = [] :=
    List.filterMap_eq_nil_iff.2 fun f hf => partsOf?_ne (hne f hf)
  rw [nodeFrom, htokens, hparts]
  rfl

/-- Labels that come later leave the numbers of the parts as they are. -/
theorem nodeFrom_append (more : List Constituent) (h : ∀ f ∈ fs, f.PartsIn ls) :
    nodeFrom fs (ls ++ more) t = nodeFrom fs ls t := by
  unfold nodeFrom
  congr 1
  refine List.map_congr_left fun p hp => ?_
  obtain ⟨f, hf, hp⟩ := List.mem_filterMap.1 hp
  obtain ⟨hl, hr⟩ := h f hf t p hp
  rw [List.idxOf_append_of_mem hl, List.idxOf_append_of_mem hr]

/-- The nodes are those that the findings make, with all parts among them. -/
structure Holds (s : Gathering) (fs : List Finding) : Prop where
  numbers_eq : ∀ t, s.numbers[t]? = if t ∈ labels fs then some ((labels fs).idxOf t) else none
  nodes_eq : s.nodes.toList = (labels fs).map (nodeFrom fs (labels fs))
  partsIn : ∀ f ∈ fs, f.PartsIn (labels fs)

theorem holds_empty : empty.Holds [] := by
  refine ⟨fun t => ?_, rfl, fun f hf => absurd hf List.not_mem_nil⟩
  rw [if_neg (by simp [mem_labels]), empty, Std.HashMap.getElem?_empty]

theorem Holds.size_eq (h : s.Holds fs) : s.nodes.size = (labels fs).length := by
  simpa using congrArg List.length h.nodes_eq

theorem Holds.has_iff (h : s.Holds fs) : s.has t = true ↔ t ∈ labels fs := by
  rw [has, Std.HashMap.contains_eq_isSome_getElem?, h.numbers_eq]
  split <;> simp_all

theorem Holds.number_ok (h : s.Holds fs) (ht : t ∈ labels fs) :
    s.number t = .ok ((labels fs).idxOf t) := by
  rw [number, h.numbers_eq, if_pos ht]

theorem set_idxOf_map {α β : Type} [DecidableEq α] {xs : List α} {g g' : α → β} {x : α}
    (hnodup : xs.Nodup) (hsame : ∀ y ∈ xs, y ≠ x → g' y = g y) :
    (xs.map g).set (xs.idxOf x) (g' x) = xs.map g' := by
  refine List.ext_getElem (by simp) fun i hi hi' => ?_
  rw [List.length_map] at hi'
  rw [List.getElem_set, List.getElem_map]
  split
  · next heq =>
    subst heq
    rw [List.getElem_map, List.getElem_idxOf]
  · next hne =>
    rw [List.getElem_map]
    refine (hsame _ (List.getElem_mem hi') fun heq => hne ?_).symm
    rw [← heq, hnodup.idxOf_getElem]

theorem Holds.change (h : s.Holds fs) (hf : f.PartsIn (labels fs)) :
    ∃ s', s.change f.whole (f.addTo (labels fs)) = .ok s' ∧ s'.Holds (fs ++ [f]) := by
  have hparts : ∀ more, ∀ f' ∈ fs ++ [f], f'.PartsIn (labels fs ++ more) := by
    intro more f' hf' t p hp
    have hmem : p.1 ∈ labels fs ∧ p.2 ∈ labels fs := by
      rcases List.mem_append.1 hf' with hf' | hf'
      · exact h.partsIn f' hf' t p hp
      · exact hf t p (List.mem_singleton.1 hf' ▸ hp)
    exact ⟨List.mem_append_left _ hmem.1, List.mem_append_left _ hmem.2⟩
  by_cases hmem : f.whole ∈ labels fs
  · have hlabels : labels (fs ++ [f]) = labels fs := by rw [labels_concat, if_pos hmem]
    have hlt : (labels fs).idxOf f.whole < s.nodes.size := by
      rw [h.size_eq]
      exact List.idxOf_lt_length_iff.2 hmem
    have hnode : s.nodes[(labels fs).idxOf f.whole]? = some (nodeFrom fs (labels fs) f.whole) := by
      rw [← Array.getElem?_toList, h.nodes_eq, List.getElem?_map, List.getElem?_idxOf hmem,
        Option.map_some]
    refine ⟨⟨s.nodes.setIfInBounds _ _, s.numbers⟩, by
      rw [Gathering.change, h.numbers_eq, if_pos hmem]
      simp only [Checked.entry_ok hnode, Checked.ok_bind, Checked.put_ok hlt]
      rfl, ?_, ?_, ?_⟩
    · exact fun t => by rw [hlabels]; exact h.numbers_eq t
    · rw [hlabels, Array.toList_setIfInBounds, h.nodes_eq, ← nodeFrom_concat_whole]
      exact set_idxOf_map (nodup_labels fs) fun t _ hne =>
        nodeFrom_concat_ne fs (labels fs) fun heq => hne heq.symm
    · rw [hlabels]
      simpa using hparts []
  · have hlabels : labels (fs ++ [f]) = labels fs ++ [f.whole] := by rw [labels_concat, if_neg hmem]
    refine ⟨⟨s.nodes.push _, s.numbers.insert f.whole s.nodes.size⟩, by
      rw [Gathering.change, h.numbers_eq, if_neg hmem], fun t => ?_, ?_, ?_⟩
    · rw [Std.HashMap.getElem?_insert, hlabels, h.size_eq]
      by_cases ht : f.whole = t
      · subst ht
        simp [List.idxOf_append_of_notMem hmem]
      · have ht' : t ≠ f.whole := fun heq => ht heq.symm
        simp only [beq_iff_eq, ht, if_false, h.numbers_eq, List.mem_append, List.mem_singleton, ht',
          or_false]
        split
        · next hold => rw [List.idxOf_append_of_mem hold]
        · rfl
    · rw [hlabels, List.map_append, List.map_singleton, Array.toList_push, h.nodes_eq]
      have hnew : nodeFrom (fs ++ [f]) (labels fs ++ [f.whole]) f.whole =
          f.addTo (labels fs) ⟨f.whole, [], []⟩ := by
        rw [nodeFrom_append _ (by simpa using hparts []), nodeFrom_concat_whole,
          nodeFrom_of_notMem _ hmem]
      rw [hnew]
      congr 1
      refine List.map_congr_left fun t ht => ?_
      rw [nodeFrom_append _ (by simpa using hparts []), nodeFrom_concat_ne]
      rintro rfl
      exact hmem ht
    · rw [hlabels]
      exact hparts _

theorem Holds.enter (h : s.Holds fs) (hf : f.PartsIn (labels fs)) :
    ∃ s', s.enter f = .ok s' ∧ s'.Holds (fs ++ [f]) := by
  obtain ⟨s', hchange, hs'⟩ := h.change hf
  refine ⟨s', ?_, hs'⟩
  rw [← hchange]
  cases f with
  | token t x => rfl
  | parts t l r =>
    obtain ⟨hl, hr⟩ := hf t (l, r) (if_pos rfl)
    rw [Gathering.enter, h.number_ok hl, Checked.ok_bind, h.number_ok hr, Checked.ok_bind]
    rfl

/-- A loop that enters what it finds at each item enters what it finds at all of them, as long as
what it relies on stays true. -/
theorem Holds.foldlM {α : Type} {step : Gathering → α → Checked Gathering}
    {found : α → List Finding} {P : List Finding → Prop} {xs : List α}
    (hstep : ∀ x ∈ xs, ∀ s fs, s.Holds fs → P fs →
      ∃ s', step s x = .ok s' ∧ s'.Holds (fs ++ found x) ∧ P (fs ++ found x))
    (h : s.Holds fs) (hP : P fs) :
    ∃ s', xs.foldlM step s = .ok s' ∧ s'.Holds (fs ++ xs.flatMap found) ∧
      P (fs ++ xs.flatMap found) := by
  induction xs generalizing s fs with
  | nil =>
    rw [List.flatMap_nil, List.append_nil]
    exact ⟨s, rfl, h, hP⟩
  | cons x xs ih =>
    obtain ⟨s₁, hfirst, h₁, hP₁⟩ := hstep x List.mem_cons_self s fs h hP
    obtain ⟨s₂, hrest, h₂, hP₂⟩ := ih (fun y hy => hstep y (List.mem_cons_of_mem x hy)) h₁ hP₁
    rw [List.flatMap_cons, ← List.append_assoc]
    exact ⟨s₂, by rw [List.foldlM_cons, hfirst, Checked.ok_bind, hrest], h₂, hP₂⟩

variable {g : Grammar} {aut : Automaton} {allowed inside : Constituent → Bool} {v : Visit} {d : Nat}
  {pair : Nat × Nat × Nat}

def edgeFindings (g : Grammar) (inside : Constituent → Bool) (e : Edge) : List Finding :=
  (g.rulesOf e.token).flatMap fun a =>
    if inside ⟨e.source, a, e.target⟩ then [.token ⟨e.source, a, e.target⟩ e.token] else []

def pairFindings (inside : Constituent → Bool) (v : Visit) (pair : Nat × Nat × Nat) :
    List Finding :=
  if inside (ofVisit v pair.1) then
    (partsOver inside v pair).map fun p => .parts (ofVisit v pair.1) p.1 p.2
  else []

def visitFindings (g : Grammar) (inside : Constituent → Bool) (v : Visit) : List Finding :=
  g.pairs.flatMap (pairFindings inside v)

def visits (aut : Automaton) : List Visit := aut.strata.flatMap (·.visits)

def tokenFindings (g : Grammar) (aut : Automaton) (inside : Constituent → Bool) : List Finding :=
  aut.edges.flatMap (edgeFindings g inside)

def findings (g : Grammar) (aut : Automaton) (inside : Constituent → Bool) : List Finding :=
  tokenFindings g aut inside ++ (visits aut).flatMap (visitFindings g inside)

theorem map_whole_visitFindings :
    (visitFindings g inside v).map Finding.whole = (heads g inside v).map (ofVisit v) := by
  rw [visitFindings, heads, flatMap_filter, List.map_flatMap, List.map_flatMap]
  refine List.flatMap_congr fun pair _ => ?_
  rw [pairFindings]
  split
  · rw [List.map_map, List.map_map]
    rfl
  · rfl

theorem mem_labels_tokenFindings :
    t ∈ labels (tokenFindings g aut inside) ↔ t.IsToken g aut ∧ inside t = true := by
  simp only [mem_labels, tokenFindings, edgeFindings, List.mem_flatMap]
  constructor
  · rintro ⟨f, ⟨e, he, a, ha, hf⟩, rfl⟩
    split at hf
    · next hinside =>
      obtain rfl := List.mem_singleton.1 hf
      exact ⟨⟨e, he, rfl, rfl, Grammar.mem_rulesOf.1 ha⟩, hinside⟩
    · cases hf
  · obtain ⟨source, a, target⟩ := t
    rintro ⟨⟨e, he, rfl, rfl, ha⟩, hinside⟩
    refine ⟨.token ⟨e.source, a, e.target⟩ e.token, ⟨e, he, a, Grammar.mem_rulesOf.2 ha, ?_⟩, rfl⟩
    rw [if_pos hinside]
    exact List.mem_singleton_self _

theorem whole_of_mem_visitFindings (hf : f ∈ visitFindings g inside v) :
    f.whole.source = v.source ∧ f.whole.target = v.target ∧ inside f.whole = true := by
  have hmem : f.whole ∈ (heads g inside v).map (ofVisit v) :=
    map_whole_visitFindings ▸ List.mem_map_of_mem hf
  obtain ⟨a, ha, heq⟩ := List.mem_map.1 hmem
  rw [← heq]
  exact ⟨rfl, rfl, (mem_heads.1 ha).1⟩

/-- What is not a token is found over its states. -/
theorem exists_mem_visitFindings (hadmits : Admits g aut inside allowed) (ht : inside t = true)
    (htoken : ¬ t.IsToken g aut) :
    Chart.IsVisit aut (visit aut t) ∧ ∃ f ∈ visitFindings g inside (visit aut t), f.whole = t := by
  have hvisit := isVisit_of_partsOf_ne_nil (((hadmits t).1 ht).2.resolve_left htoken)
  have hlabel := (hadmits.mem_pairLabels hvisit).2 ⟨rfl, rfl, ht, htoken⟩
  obtain ⟨a, ha, heq⟩ := List.mem_map.1 hlabel
  have hhead : t ∈ (visitFindings g inside (visit aut t)).map Finding.whole := by
    rw [map_whole_visitFindings]
    exact List.mem_map.2 ⟨a, (mem_pairRules.1 ha).1, heq⟩
  exact ⟨hvisit, List.mem_map.1 hhead⟩

theorem settled_append {more : List Finding} (h : Arena.Settled inside (labels fs) d)
    (hmore : ∀ f ∈ more, f.whole.target = f.whole.source + d) :
    Arena.Settled inside (labels (fs ++ more)) d := by
  intro t ht
  rw [← h t ht, mem_labels, mem_labels]
  constructor
  · rintro ⟨f, hf, rfl⟩
    rcases List.mem_append.1 hf with hf | hf
    · exact ⟨f, hf, rfl⟩
    · have hd := hmore f hf
      omega
  · rintro ⟨f, hf, rfl⟩
    exact ⟨f, List.mem_append_left _ hf, rfl⟩

theorem flatMap_midpoints :
    (v.midpoints.flatMap fun m => if inside (halves v pair m).1 && inside (halves v pair m).2 then
      [Finding.parts (ofVisit v pair.1) (halves v pair m).1 (halves v pair m).2] else []) =
        (partsOver inside v pair).map fun p => .parts (ofVisit v pair.1) p.1 p.2 := by
  rw [partsOver]
  induction v.midpoints with
  | nil => rfl
  | cons m ms ih =>
    rw [List.flatMap_cons, ih, List.map_cons, List.filter_cons]
    split <;> rfl

/-- Over lesser distances all that is let in is there already, so both halves are found. -/
theorem Holds.enterMidpoints (h : s.Holds fs) (hs : Arena.Settled inside (labels fs) d)
    (hv : Chart.IsVisit aut v) (hd : v.target = v.source + d) (pair : Nat × Nat × Nat) :
    ∃ s', v.midpoints.foldlM (fun s m =>
        if s.has (halves v pair m).1 && s.has (halves v pair m).2 then
          s.enter (.parts (ofVisit v pair.1) (halves v pair m).1 (halves v pair m).2)
        else pure s) s = .ok s' ∧
      s'.Holds (fs ++ (partsOver inside v pair).map fun p => .parts (ofVisit v pair.1) p.1 p.2) ∧
      Arena.Settled inside (labels (fs ++ (partsOver inside v pair).map fun p =>
        .parts (ofVisit v pair.1) p.1 p.2)) d := by
  rw [← flatMap_midpoints]
  refine Holds.foldlM (P := fun fs => Arena.Settled inside (labels fs) d)
    (fun m hm s fs h hs => ?_) h hs
  obtain ⟨hleft, hright⟩ := hv.midpoint hm
  have hl : s.has (halves v pair m).1 = inside (halves v pair m).1 := by
    rw [Bool.eq_iff_iff, h.has_iff]
    exact hs _ (show m - v.source < d by omega)
  have hr : s.has (halves v pair m).2 = inside (halves v pair m).2 := by
    rw [Bool.eq_iff_iff, h.has_iff]
    exact hs _ (show v.target - m < d by omega)
  rw [hl, hr]
  split
  · next hboth =>
    rw [← hl, ← hr, Bool.and_eq_true, h.has_iff, h.has_iff] at hboth
    obtain ⟨s', hs', hholds⟩ := h.enter (f := .parts (ofVisit v pair.1) (halves v pair m).1
      (halves v pair m).2) (by
        intro t p hp
        rw [partsOf?, Option.ite_none_right_eq_some] at hp
        exact Option.some.inj hp.2 ▸ hboth)
    refine ⟨s', hs', hholds, settled_append hs fun f hf => ?_⟩
    obtain rfl := List.mem_singleton.1 hf
    exact hd
  · exact ⟨s, rfl, by rwa [List.append_nil], by rwa [List.append_nil]⟩

theorem Holds.enterPair (hadmits : Admits g aut inside allowed) (hpair : pair ∈ g.pairs)
    (h : s.Holds fs) (hs : Arena.Settled inside (labels fs) d) (hv : Chart.IsVisit aut v)
    (hd : v.target = v.source + d) :
    ∃ s', enterPair allowed v s pair = .ok s' ∧ s'.Holds (fs ++ pairFindings inside v pair) ∧
      Arena.Settled inside (labels (fs ++ pairFindings inside v pair)) d := by
  obtain ⟨s', hloop, hholds⟩ := h.enterMidpoints hs hv hd pair
  rw [Gathering.enterPair, pairFindings]
  by_cases hallowed : allowed (ofVisit v pair.1) = true
  · have hsame : (if inside (ofVisit v pair.1) then
        (partsOver inside v pair).map fun p => Finding.parts (ofVisit v pair.1) p.1 p.2 else []) =
          (partsOver inside v pair).map fun p => .parts (ofVisit v pair.1) p.1 p.2 := by
      split
      · rfl
      · next hnot =>
        have hnil : partsOver inside v pair = [] := by
          by_contra hne
          rw [← hadmits.eq_of_partsOver_ne_nil hv hpair hne] at hnot
          exact hnot hallowed
        rw [hnil]
        rfl
    rw [hsame]
    exact ⟨s', (if_pos hallowed).trans hloop, hholds⟩
  · have hnot : ¬ inside (ofVisit v pair.1) = true := fun hin => hallowed ((hadmits _).1 hin).1
    rw [if_neg hnot, List.append_nil]
    exact ⟨s, if_neg hallowed, h, hs⟩

theorem Holds.enterVisit (hadmits : Admits g aut inside allowed) (h : s.Holds fs)
    (hs : Arena.Settled inside (labels fs) d) (hv : Chart.IsVisit aut v)
    (hd : v.target = v.source + d) :
    ∃ s', enterVisit g allowed s v = .ok s' ∧ s'.Holds (fs ++ visitFindings g inside v) ∧
      Arena.Settled inside (labels (fs ++ visitFindings g inside v)) d :=
  Holds.foldlM (P := fun fs => Arena.Settled inside (labels fs) d)
    (fun _ hpair _ _ h hs => h.enterPair hadmits hpair hs hv hd) h hs

theorem Holds.enterStratum (hadmits : Admits g aut inside allowed) (h : s.Holds fs)
    (hs : Arena.Settled inside (labels fs) d) :
    ∃ s', enterStratum g allowed s (aut.stratum aut.reach d) = .ok s' ∧
      s'.Holds (fs ++ (aut.stratum aut.reach d).visits.flatMap (visitFindings g inside)) := by
  have hvisits : ∀ v ∈ (aut.stratum aut.reach d).visits, ∀ s fs, s.Holds fs →
      Arena.Settled inside (labels fs) d → ∃ s', Gathering.enterVisit g allowed s v = .ok s' ∧
        s'.Holds (fs ++ visitFindings g inside v) ∧
        Arena.Settled inside (labels (fs ++ visitFindings g inside v)) d := by
    intro v hv s fs h hs
    obtain ⟨hvisit, hd⟩ := Chart.mem_visits_iff.1 hv
    exact h.enterVisit hadmits hs hvisit hd
  obtain ⟨s', hs', hholds, -⟩ := Holds.foldlM hvisits h hs
  exact ⟨s', hs', hholds⟩

theorem Holds.enterEdge (hadmits : Admits g aut inside allowed) (h : s.Holds fs) {e : Edge}
    (he : e ∈ aut.edges) :
    ∃ s', enterEdge g allowed s e = .ok s' ∧ s'.Holds (fs ++ edgeFindings g inside e) ∧ True := by
  refine Holds.foldlM (P := fun _ => True) (fun a ha s fs h _ => ?_) h trivial
  have htoken : IsToken g aut ⟨e.source, a, e.target⟩ :=
    ⟨e, he, rfl, rfl, Grammar.mem_rulesOf.1 ha⟩
  rw [hadmits.eq_of_isToken htoken]
  split
  · obtain ⟨s', hs', hholds⟩ := h.enter (f := .token ⟨e.source, a, e.target⟩ e.token)
      fun t p hp => by cases hp
    exact ⟨s', hs', hholds, trivial⟩
  · exact ⟨s, rfl, by rwa [List.append_nil], trivial⟩

theorem enterEdges_ok (hadmits : Admits g aut inside allowed) :
    ∃ s, aut.edges.foldlM (Gathering.enterEdge g allowed) empty = .ok s ∧
      s.Holds (tokenFindings g aut inside) := by
  have hedges : ∀ e ∈ aut.edges, ∀ s fs, s.Holds fs → True → ∃ s',
      Gathering.enterEdge g allowed s e = .ok s' ∧ s'.Holds (fs ++ edgeFindings g inside e) ∧ True :=
    fun e he _ _ h _ => h.enterEdge hadmits he
  obtain ⟨s, hs, hholds, -⟩ := Holds.foldlM hedges holds_empty trivial
  exact ⟨s, hs, hholds⟩

/-- What was found over the distances up to `k`. -/
def findingsUpTo (g : Grammar) (aut : Automaton) (inside : Constituent → Bool) (k : Nat) :
    List Finding :=
  tokenFindings g aut inside ++ (((List.range' 1 k).map (aut.stratum aut.reach)).flatMap
    (·.visits)).flatMap (visitFindings g inside)

theorem mem_labels_findingsUpTo (hadmits : Admits g aut inside allowed) (k : Nat) :
    t ∈ labels (findingsUpTo g aut inside k) ↔
      inside t = true ∧ (t.IsToken g aut ∨ t.target - t.source ≤ k) := by
  rw [mem_labels]
  simp only [findingsUpTo, List.mem_append, or_and_right, exists_or, ← mem_labels,
    mem_labels_tokenFindings, List.mem_flatMap, List.mem_map, List.mem_range'_1]
  constructor
  · rintro (⟨htoken, hinside⟩ | ⟨f, ⟨v, ⟨_, ⟨d, hd, rfl⟩, hv⟩, hf⟩, rfl⟩)
    · exact ⟨hinside, .inl htoken⟩
    · obtain ⟨hsource, htarget, hinside⟩ := whole_of_mem_visitFindings hf
      have hdist := (Chart.mem_visits_iff.1 hv).2
      exact ⟨hinside, .inr (by omega)⟩
  · rintro ⟨hinside, hor⟩
    by_cases htoken : t.IsToken g aut
    · exact .inl ⟨htoken, hinside⟩
    · obtain ⟨hvisit, f, hf, hwhole⟩ := exists_mem_visitFindings hadmits hinside htoken
      have hlt := (hadmits.lt hinside).1
      have hdist : (visit aut t).target = (visit aut t).source + (t.target - t.source) :=
        show t.target = t.source + (t.target - t.source) by omega
      have hle := hor.resolve_left htoken
      exact .inr ⟨f, ⟨visit aut t, ⟨_, ⟨t.target - t.source, by omega, rfl⟩,
        Chart.mem_visits_iff.2 ⟨hvisit, hdist⟩⟩, hf⟩, hwhole⟩

/-- After `k` strata what is let in over distances up to `k` is there, which settles the next. -/
theorem enterStrata_ok (hadmits : Admits g aut inside allowed) (k : Nat)
    (h : s.Holds (tokenFindings g aut inside)) :
    ∃ s', ((List.range' 1 k).map (aut.stratum aut.reach)).foldlM (Gathering.enterStratum g allowed) s =
        .ok s' ∧ s'.Holds (findingsUpTo g aut inside k) := by
  induction k with
  | zero =>
    have hnone : findingsUpTo g aut inside 0 = tokenFindings g aut inside := List.append_nil _
    exact ⟨s, rfl, hnone.symm ▸ h⟩
  | succ k ih =>
    obtain ⟨s₁, hfirst, h₁⟩ := ih
    have hsettled : Arena.Settled inside (labels (findingsUpTo g aut inside k)) (1 + k) := by
      intro t ht
      rw [mem_labels_findingsUpTo hadmits]
      exact ⟨And.left, fun hinside => ⟨hinside, .inr (by omega)⟩⟩
    obtain ⟨s₂, hlast, h₂⟩ := h₁.enterStratum hadmits hsettled
    refine ⟨s₂, ?_, ?_⟩
    · rw [List.range'_1_concat, List.map_append, List.foldlM_append, hfirst, Checked.ok_bind,
        List.map_singleton, List.foldlM_cons, hlast]
      rfl
    · rw [findingsUpTo, List.range'_1_concat, List.map_append, List.flatMap_append,
        List.flatMap_append, ← List.append_assoc, List.map_singleton, List.flatMap_singleton]
      exact h₂

theorem findings_eq (g : Grammar) (aut : Automaton) (inside : Constituent → Bool) :
    findings g aut inside = findingsUpTo g aut inside (aut.stateCount - 1) := rfl

theorem gather_ok (hadmits : Admits g aut inside allowed) :
    ∃ s, gather g aut allowed = .ok s ∧ s.Holds (findings g aut inside) := by
  obtain ⟨s, hedges, h⟩ := enterEdges_ok hadmits
  obtain ⟨s', hstrata, h'⟩ := enterStrata_ok hadmits (aut.stateCount - 1) h
  exact ⟨s', by rw [gather, hedges, Checked.ok_bind]; exact hstrata, h'⟩

theorem mem_labels_findings (hadmits : Admits g aut inside allowed) :
    t ∈ labels (findings g aut inside) ↔ inside t = true := by
  rw [findings_eq, mem_labels_findingsUpTo hadmits]
  refine and_iff_left_of_imp fun hinside => .inr ?_
  have hlt := hadmits.lt hinside
  omega

end Gathering

end GrammarRepair
