import GrammarRepair.Grammar.Checked
import GrammarRepair.Proofs.Grammar.Kept
import GrammarRepair.Proofs.Grammar.Numbering
import GrammarRepair.Proofs.NormalForm.Checked
import Mathlib.Data.List.ReduceOption

/-!
What numbering and pruning rely on. The names in a normal form all have places, the numbers in a
grammar are those of its rules and tokens, and the useful rules are found in as many passes as there
are rules. Main statements: checked numbering finds nothing wrong with a normal form that mentions
known names only, and checked pruning nothing with any grammar that fits its width.
-/

namespace GrammarRepair

theorem Grammar.Fits.exists_rebuilt {g : Grammar} {w : Width} (h : g.Fits w) :
    ∃ g', ofParts w g.ruleNames.toList g.start g.tokenNames.toList g.productions.toList = .ok g' ∧
      g'.ruleNames = g.ruleNames ∧ g'.tokenNames = g.tokenNames ∧ g'.start = g.start ∧
        g'.productions = g.productions := by
  obtain ⟨g', hg'⟩ := exists_ofParts (by rw [Array.length_toList]; exact h.rules_le)
    (by rw [Array.length_toList]; exact h.tokens_le)
    (by rw [Array.length_toList]; exact h.productions_le) g.nodup_ruleNames g.nodup_tokenNames
    (by simpa using g.start_lt) (by simpa using g.inRange)
  exact ⟨g', hg', names_of_ofParts hg'⟩

namespace Checked

section

variable {nf : NormalForm} {w : Width}

theorem numberBody_ok {b : NormalForm.NamedBody} (h : nf.Known b) :
    numberBody nf b = .ok (nf.numberBody b) := by
  cases b with
  | pair l r =>
    rw [numberBody, place_ok h.1, place_ok h.2]
    rfl
  | token text =>
    rw [numberBody, place_ok h]
    rfl

theorem numberRule_ok {rule : String × List NormalForm.NamedBody} (hrule : rule ∈ nf.rules)
    (hknown : ∀ b ∈ rule.2, nf.Known b) : numberRule nf rule =
      .ok (rule.2.map fun b => ⟨nf.ruleNames.idxOf rule.1, nf.numberBody b⟩) := by
  have hname : rule.1 ∈ nf.ruleNames := List.mem_map_of_mem hrule
  refine mapM_ok fun b hb => ?_
  rw [numberBody_ok (hknown b hb), ok_bind, place_ok hname]
  rfl

/-- The place of a rule among all rules is that of its name among all names. -/
theorem productions_eq (hr : nf.ruleNames.Nodup) : nf.productions =
    nf.rules.flatMap fun rule =>
      rule.2.map fun b => ⟨nf.ruleNames.idxOf rule.1, nf.numberBody b⟩ := by
  have hplaces : nf.rules = nf.rules.zipIdx.map Prod.fst := (List.zipIdx_map_fst 0 nf.rules).symm
  conv_rhs => rw [hplaces, List.flatMap_map]
  refine List.flatMap_congr fun place hplace => ?_
  rw [NormalForm.idxOf_ruleNames hr (List.mem_zipIdx_iff_getElem?.1 hplace)]

theorem withSpans_ok {g : Grammar} {ruleSpans tokenSpans : Array (Option Span)}
    (hr : ruleSpans.size = g.ruleNames.size) (ht : tokenSpans.size = g.tokenNames.size) :
    withSpans g ruleSpans tokenSpans = .ok (g.withSpans ruleSpans tokenSpans hr ht) :=
  dif_pos ⟨hr, ht⟩

theorem number_ok (hr : nf.ruleNames.Nodup) (ht : nf.tokenNames.Nodup)
    (hstart : nf.start ∈ nf.ruleNames) (hknown : ∀ rule ∈ nf.rules, ∀ b ∈ rule.2, nf.Known b) :
    number nf w = .ok (nf.number w) := by
  rw [number]
  cases hover : nf.overfull? w with
  | some what =>
    rw [NormalForm.number, hover]
    rfl
  | none =>
    obtain ⟨hrules, htokens, hproductions⟩ := NormalForm.overfull?_eq_none_iff.1 hover
    obtain ⟨g, hg⟩ := Grammar.exists_ofParts hrules htokens hproductions hr ht
      (List.idxOf_lt_length_iff.2 hstart) (NormalForm.inRange_of_known hknown)
    obtain ⟨hruleNames, htokenNames, -, -⟩ := Grammar.names_of_ofParts hg
    have hsizes : nf.ruleSpans.toArray.size = g.ruleNames.size ∧
        (nf.tokens.map fun t => some t.span).toArray.size = g.tokenNames.size := by
      simp [hruleNames, htokenNames, NormalForm.ruleSpans, NormalForm.ruleNames,
        NormalForm.tokenNames]
    have hnumber : nf.number w = .ok (g.withSpans _ _ hsizes.1 hsizes.2) := by
      rw [NormalForm.number, hover]
      simp only
      split
      · next fault h =>
        rw [hg] at h
        cases h
      · next g' h =>
        rw [hg] at h
        cases h
        rfl
    simp only
    rw [mapM_ok fun rule hrule => numberRule_ok hrule (hknown rule hrule), ok_bind,
      place_ok hstart, ok_bind, ← List.flatMap_def, ← productions_eq hr, hg, accepted, ok_bind,
      withSpans_ok hsizes.1 hsizes.2, ok_bind, hnumber]
    rfl

end

variable {g : Grammar} {marked : NatSet} {a : Nat} {u : Usefulness}

theorem mark_ok (ha : a < g.ruleCount) : mark g marked a = .ok (marked.has a) := if_pos ha

theorem completes_ok {p : Production} (hp : p ∈ g.productions.toList) :
    completes g marked p.body = .ok (Grammar.completes marked p.body) := by
  have hrange := (g.inRange p hp).2
  cases hbody : p.body with
  | token t => rfl
  | pair b c =>
    rw [hbody] at hrange
    rw [completes, mark_ok hrange.1, ok_bind, mark_ok hrange.2]
    rfl

/-- Rules that are marked already need not be looked at. -/
theorem markHead_ok {p : Production} (hp : p ∈ g.productions.toList) :
    markHead g marked p = .ok (Grammar.markHead marked p) := by
  rw [markHead, mark_ok (g.inRange p hp).1, ok_bind]
  by_cases hknown : marked.has p.head = true
  · have hinsert : marked.insert p.head = marked := by
      refine NatSet.ext_has fun i => ?_
      by_cases hi : p.head = i
      · simp [← hi, hknown]
      · simp [hi]
    rw [if_pos hknown, Grammar.markHead, hinsert, ite_self]
    rfl
  · rw [if_neg hknown, completes_ok hp]
    rfl

theorem settle_ok {f : NatSet → NatSet} {f' : NatSet → Checked NatSet} {n : Nat}
    (hf : ∀ s, f' s = .ok (f s)) (hgrow : ∀ s i, s.has i = true → (f s).has i = true)
    (hlt : ∀ s i, (f s).has i = true → s.has i = true ∨ i < n) {steps : Nat} {s : NatSet}
    (hsteps : n < steps + (s.members n).card) :
    Checked.settle f' steps s = .ok (GrammarRepair.settle f steps s) := by
  induction steps generalizing s with
  | zero =>
    have hcard := card_members_le n s
    omega
  | succ steps ih =>
    rw [Checked.settle, GrammarRepair.settle, hf, ok_bind]
    by_cases hfix : f s = s
    · simp only [if_pos hfix]
      rfl
    · have hcard := card_members_lt hgrow hlt hfix
      simp only [if_neg hfix]
      exact ih (by omega)

theorem generating_ok (g : Grammar) : generating g = .ok g.generating := by
  refine settle_ok (n := g.ruleCount) (fun marked => ?_)
    (fun _ _ hi => Grammar.has_foldl_markHead hi) (fun _ => Grammar.has_of_markHeads) (by omega)
  exact foldlM_ok (fun _ p hp => markHead_ok hp) marked

theorem neighbours_ok (ha : a < g.ruleCount) :
    neighbours g marked a = .ok (g.neighbours marked a) := by
  have ha' : a < g.tables.pairsOf.size := by rwa [g.size_tablesPairsOf]
  have hentry : entry g.tables.pairsOf a = .ok (g.tables.pairsOf.getD a #[]) :=
    entry_ok (by simp [Array.getD, ha'])
  have hpairs : ∀ pair ∈ g.pairsOf a, (do
      let able ← completes g marked (.pair pair.1 pair.2)
      pure (if able then [pair.1, pair.2] else [])) =
        (Except.ok (if marked.has pair.1 && marked.has pair.2 then [pair.1, pair.2] else []) :
          Checked (List Nat)) := by
    intro pair hpair
    rw [completes_ok (Grammar.mem_pairsOf.1 hpair)]
    rfl
  rw [neighbours, hentry, ok_bind]
  exact (congrArg (· >>= fun next => pure next.flatten) (mapM_ok hpairs)).trans rfl

theorem usefulness_ok (g : Grammar) : usefulness g = .ok g.usefulness := by
  have hreachable : explore (neighbours g g.generating) g.ruleCount [g.start] =
      .ok (GrammarRepair.explore (g.neighbours g.generating) g.ruleCount [g.start]) := by
    refine explore_ok (fun a ha => neighbours_ok (List.mem_range.1 ha)) (fun a _ b hb => ?_)
      (fun a ha => ?_) List.length_range.le
    · exact List.mem_range.2 (Grammar.mem_neighbours_iff.1 hb).lt
    · rw [List.mem_singleton.1 ha]
      exact List.mem_range.2 g.start_lt
  rw [usefulness, generating_ok, ok_bind, hreachable]
  rfl

theorem isUseful_ok (ha : a < g.ruleCount) : isUseful g u a = .ok (u.isUseful a) := by
  rw [isUseful, mark_ok ha, ok_bind, mark_ok ha]
  rfl

theorem entry_keptRules (ha : a < g.ruleCount) :
    entry (g.keptRules u).table a = .ok ((g.keptRules u).new? a) := by
  have ha' : a < (g.keptRules u).table.size := by
    rwa [Grammar.keptRules, Renumbering.size_table]
  refine entry_ok ?_
  rw [Renumbering.new?, Array.getElem?_eq_getElem ha']
  rfl

theorem pruneProduction_ok {p : Production} (hp : p ∈ g.productions.toList) :
    pruneProduction g u (g.keptRules u) p =
      .ok (Grammar.pruneProduction? u (g.keptRules u) p) := by
  obtain ⟨hhead, hrange⟩ := g.inRange p hp
  rw [pruneProduction, Grammar.pruneProduction?, entry_keptRules hhead, ok_bind]
  cases hbody : p.body with
  | token t => cases (g.keptRules u).new? p.head <;> rfl
  | pair b c =>
    rw [hbody] at hrange
    simp only [isUseful_ok hrange.1, isUseful_ok hrange.2, entry_keptRules hrange.1,
      entry_keptRules hrange.2, ok_bind, pure_eq_ok]
    cases (g.keptRules u).new? p.head with
    | none => split <;> rfl
    | some head => rfl

/-- A grammar that fits its width is accepted from its parts, and its places with it. -/
theorem rebuild_ok {w : Width} (h : g.Fits w) :
    (do
      let g' ← accepted (Grammar.ofParts w g.ruleNames.toList g.start g.tokenNames.toList
        g.productions.toList)
      withSpans g' g.ruleSpans g.tokenSpans) = .ok g := by
  obtain ⟨g', hg', hruleNames, htokenNames, hstart, hsame⟩ := h.exists_rebuilt
  have hr : g.ruleSpans.size = g'.ruleNames.size := by rw [hruleNames, g.size_ruleSpans]
  have ht : g.tokenSpans.size = g'.tokenNames.size := by rw [htokenNames, g.size_tokenSpans]
  rw [hg', accepted, ok_bind, withSpans_ok hr ht]
  exact congrArg Except.ok (Grammar.eq_of_parts hruleNames rfl hstart htokenNames rfl hsame)

theorem entry_ruleNames (ha : a < g.ruleCount) : entry g.ruleNames a = .ok (g.ruleName a) := by
  have ha' : a < g.ruleNames.size := ha
  exact entry_ok (by simp [Grammar.ruleName, Array.getD, ha'])

theorem entry_ruleSpans (ha : a < g.ruleCount) : entry g.ruleSpans a = .ok (g.ruleSpan? a) := by
  have ha' : a < g.ruleSpans.size := by rwa [g.size_ruleSpans]
  exact entry_ok (by simp [Grammar.ruleSpan?, Array.getD, ha'])

theorem prune_ok {w : Width} (h : g.Fits w) : prune w g = .ok g.prune := by
  rw [prune, usefulness_ok, ok_bind]
  by_cases hall : g.usefulness.all g.ruleCount = true
  · rw [if_pos hall, Grammar.prune_of_all hall]
    rfl
  · have hkept : (g.keptRules g.usefulness).kept.toList = g.keptList := Renumbering.kept_eq _ _
    have hlt : ∀ a ∈ g.keptList, a < g.ruleCount := fun a ha => (Grammar.mem_keptList.1 ha).1
    have hpruned : (g.productions.toList.map (Grammar.pruneProduction? g.usefulness
        (g.keptRules g.usefulness))).reduceOption = g.prune.productions.toList := by
      rw [Grammar.productions_prune, List.reduceOption, List.filterMap_map]
      rfl
    have hstart : ((g.keptRules g.usefulness).new? g.start).getD 0 = g.prune.start := by
      rw [(Grammar.prune_of_not_all hall).2, Grammar.prunedRule?]
    have hrebuild := rebuild_ok h.prune
    rw [if_neg hall]
    simp only [hkept, mapM_ok fun a ha => entry_ruleNames (hlt a ha),
      mapM_ok fun a ha => entry_ruleSpans (hlt a ha),
      mapM_ok fun p hp => pruneProduction_ok (u := g.usefulness) hp, entry_keptRules g.start_lt,
      ok_bind, hpruned, hstart, ← Grammar.ruleNames_prune, ← Grammar.ruleSpans_prune,
      Array.toArray_toList]
    rw [← Grammar.tokenNames_prune, ← Grammar.tokenSpans_prune]
    exact hrebuild

end Checked

end GrammarRepair
