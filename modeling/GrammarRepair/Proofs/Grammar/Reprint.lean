import GrammarRepair.Proofs.Grammar.Origins
import GrammarRepair.Proofs.Grammar.Printing
import GrammarRepair.Proofs.NormalForm.Fixed
import GrammarRepair.Proofs.Source.Outline
import GrammarRepair.Proofs.Widths
import Mathlib.Algebra.Order.BigOperators.Group.List

/-!
Reading a printed grammar. Its rules come back in normal form, so they are neither split nor joined,
and they have new numbers but keep their names. Every derivation moves along with the numbers, so no
rule is pruned. Main statement: the text of a grammar of useful rules is the source of the same grammar
by names, with the rules in the order in which they are printed and no production twice.
-/

namespace GrammarRepair

open NormalForm Written

namespace Grammar

variable {g g' : Grammar} {σ τ : Nat → Nat} {a b : Nat} {v : List Nat}

/-- Every production is one of the other grammar under the new numbers of its rules and tokens. -/
structure Renumbers (g g' : Grammar) (σ τ : Nat → Nat) : Prop where
  token : ∀ {a t}, ⟨a, .token t⟩ ∈ g.productions.toList →
    ⟨σ a, .token (τ t)⟩ ∈ g'.productions.toList
  pair : ∀ {a b c}, ⟨a, .pair b c⟩ ∈ g.productions.toList →
    ⟨σ a, .pair (σ b) (σ c)⟩ ∈ g'.productions.toList

theorem Renumbers.derives (h : g.Renumbers g' σ τ) (hv : g.Derives a v) :
    g'.Derives (σ a) (v.map τ) := by
  induction hv with
  | token hp => exact .token (h.token hp)
  | pair hp _ _ ihv ihw =>
    rw [List.map_append]
    exact .pair (h.pair hp) ihv ihw

theorem Renumbers.leads (h : g.Renumbers g' σ τ) (hab : g.Leads a b) : g'.Leads (σ a) (σ b) := by
  obtain ⟨l, r, hp, hb, ⟨v, hv⟩, w, hw⟩ := hab
  have hparts : σ b = σ l ∨ σ b = σ r := hb.imp (congrArg σ) (congrArg σ)
  exact ⟨σ l, σ r, h.pair hp, hparts, ⟨_, h.derives hv⟩, _, h.derives hw⟩

theorem Renumbers.isUseful (h : g.Renumbers g' σ τ) (hstart : g'.start = σ g.start)
    (ha : g.usefulness.isUseful a = true) : g'.usefulness.isUseful (σ a) = true := by
  obtain ⟨⟨v, hv⟩, hreach⟩ := isUseful_iff.1 ha
  refine isUseful_iff.2 ⟨⟨_, h.derives hv⟩, ?_⟩
  rw [hstart]
  exact hreach.lift σ fun _ _ hab => h.leads hab

end Grammar

namespace NormalForm

variable {nf : NormalForm} {g : Grammar} {i : Nat} {rule : String × List NamedBody} {b : NamedBody}

theorem filter_flatMap_key {α β κ : Type} [BEq κ] {block : α → List β} {key : α → κ}
    {key' : β → κ} (h : ∀ x, ∀ y ∈ block x, key' y = key x) (xs : List α) (k : κ) :
    (xs.flatMap block).filter (key' · == k) = (xs.filter (key · == k)).flatMap block := by
  rw [List.filter_flatMap]
  induction xs with
  | nil => rfl
  | cons x xs ih =>
    rw [List.flatMap_cons, List.filter_cons, ih]
    by_cases hkey : (key x == k) = true
    · have hall : (block x).filter (key' · == k) = block x :=
        List.filter_eq_self.2 fun y hy => by rw [h x y hy, hkey]
      rw [if_pos hkey, hall, List.flatMap_cons]
    · have hnone : (block x).filter (key' · == k) = [] :=
        List.filter_eq_nil_iff.2 fun y hy => by rwa [h x y hy]
      rw [if_neg hkey, hnone, List.nil_append]

theorem filter_productions (hrule : nf.rules[i]? = some rule) :
    nf.productions.filter (·.head == i) = rule.2.map fun b => ⟨i, nf.numberBody b⟩ := by
  have hplace : (rule, i) ∈ nf.rules.zipIdx := List.mem_zipIdx_iff_getElem?.2 hrule
  have hnodup : (nf.rules.zipIdx.map Prod.snd).Nodup := by
    rw [List.zipIdx_map_snd]
    exact List.nodup_range'
  have hone : nf.rules.zipIdx.filter (·.2 == i) = [(rule, i)] := filter_eq_singleton hnodup hplace
  have hhead : ∀ x : (String × List NamedBody) × Nat,
      ∀ p ∈ x.1.2.map (fun b => (⟨x.2, nf.numberBody b⟩ : Production)), p.head = x.2 := by
    intro x p hp
    obtain ⟨b, -, rfl⟩ := List.mem_map.1 hp
    rfl
  rw [productions, filter_flatMap_key hhead, hone, List.flatMap_singleton]

theorem Numbers.bodiesOf_eq (h : nf.Numbers g) (hrule : nf.rules[i]? = some rule) :
    g.bodiesOf i = rule.2.map nf.numberBody := by
  rw [Grammar.bodiesOf_eq, h.productions_eq, filter_productions hrule, List.map_map]
  rfl

theorem Numbers.ruleName_eq (h : nf.Numbers g) (hrule : nf.rules[i]? = some rule) :
    g.ruleName i = rule.1 := by
  have hname : g.ruleNames[i]? = some rule.1 := by
    rw [← Array.getElem?_toList, h.ruleNames_eq, ruleNames, List.getElem?_map, hrule]
    rfl
  rw [Grammar.ruleName, Array.getD_eq_getD_getElem?, hname, Option.getD_some]

theorem Numbers.ruleName_idxOf (h : nf.Numbers g) {name : String} (hname : name ∈ nf.ruleNames) :
    g.ruleName (nf.ruleNames.idxOf name) = name := by
  obtain ⟨rule, hrule, rfl⟩ := List.mem_map.1 hname
  obtain ⟨i, hi⟩ := List.mem_iff_getElem?.1 hrule
  rw [h.idxOf_eq hi, h.ruleName_eq hi]

theorem Numbers.tokenText_idxOf (h : nf.Numbers g) {text : String} (htext : text ∈ nf.tokenNames) :
    g.tokenText (nf.tokenNames.idxOf text) = text := by
  have hname : g.tokenNames[nf.tokenNames.idxOf text]? = some text := by
    rw [← Array.getElem?_toList, ← Grammar.tokenList, h.tokenList_eq]
    exact List.getElem?_idxOf htext
  rw [Grammar.tokenText, hname]

theorem Numbers.bodyName_numberBody (h : nf.Numbers g) (hb : nf.Known b) :
    g.bodyName (nf.numberBody b) = b := by
  cases b with
  | pair left right => exact congrArg₂ NamedBody.pair (h.ruleName_idxOf hb.1) (h.ruleName_idxOf hb.2)
  | token text => exact congrArg NamedBody.token (h.tokenText_idxOf hb)

theorem Numbers.namedRule_eq (h : nf.Numbers g) (hrule : nf.rules[i]? = some rule) :
    g.namedRule i = rule := by
  have hbodies : (rule.2.map nf.numberBody).map g.bodyName = rule.2.map id := by
    rw [List.map_map]
    exact List.map_congr_left fun b hb => h.bodyName_numberBody (h.known hrule hb).2
  rw [Grammar.namedRule, h.ruleName_eq hrule, h.bodiesOf_eq hrule, hbodies, List.map_id]

theorem Numbers.ruleCount_eq (h : nf.Numbers g) : g.ruleCount = nf.rules.length := by
  rw [Grammar.ruleCount, ← Array.length_toList, h.ruleNames_eq, ruleNames, List.length_map]

/-- By names, a grammar whose start rule comes first has the rules of its normal form. -/
theorem Numbers.namedRules_eq (h : nf.Numbers g) (hstart : g.start = 0) :
    g.namedRules = nf.rules := by
  have horder : g.printOrder = List.range g.ruleCount := by
    have hpos : 0 < g.ruleCount := hstart ▸ g.start_lt
    obtain ⟨n, hn⟩ := Nat.exists_eq_add_one_of_ne_zero (Nat.ne_of_gt hpos)
    have hrest : ((List.range n).map Nat.succ).filter (· != 0) = (List.range n).map Nat.succ := by
      refine List.filter_eq_self.2 fun i hi => ?_
      obtain ⟨j, -, rfl⟩ := List.mem_map.1 hi
      exact bne_iff_ne.2 (Nat.succ_ne_zero j)
    rw [Grammar.printOrder, hstart, hn, List.range_succ_eq_map, List.filter_cons_of_neg (by simp),
      hrest]
  rw [Grammar.namedRules, horder, h.ruleCount_eq]
  refine List.ext_getElem? fun i => ?_
  rw [List.getElem?_map]
  cases hrule : nf.rules[i]? with
  | none =>
    rw [List.getElem?_eq_none_iff] at hrule
    rw [List.getElem?_eq_none (by rwa [List.length_range])]
    rfl
  | some rule =>
    have hi := (List.getElem?_eq_some_iff.1 hrule).1
    rw [List.getElem?_range hi, Option.map_some, h.namedRule_eq hrule]

end NormalForm

namespace Grammar

variable {g g' : Grammar} {nf : NormalForm} {written : Written} {w : Width} {a i : Nat}

/-- By names, the rules, the start rule and the tokens are those that are printed. -/
structure Prints (g : Grammar) (written : Written) : Prop where
  table : tableOf written = g.namedRules.map rowOf
  start : written.start.map (·.text) = some (g.ruleName g.start)
  tokens : written.tokens.map (·.text) = distinct g.outline.tokenTexts

theorem names_namedRules (g : Grammar) :
    g.namedRules.map Prod.fst = g.printOrder.map g.ruleName := List.map_map

theorem Prints.hasRule_iff (h : g.Prints written) {name : String} :
    written.hasRule name = true ↔ name ∈ g.namedRules.map Prod.fst := by
  have hnames : (tableOf written).names = g.namedRules.map Prod.fst := by
    rw [h.table]
    exact List.map_map
  rw [Written.hasRule_iff, ← names_tableOf, hnames]

/-- Where a printed body refers to a rule, it is one that is printed. -/
theorem mem_names_of_mem_symbols {rule : String × List NamedBody} {b : NamedBody} {name : String}
    (hrule : rule ∈ g.namedRules) (hb : b ∈ rule.2) (hname : .rule name ∈ b.symbols) :
    name ∈ g.namedRules.map Prod.fst := by
  obtain ⟨a, -, rfl⟩ := List.mem_map.1 hrule
  obtain ⟨body, hbody, rfl⟩ := List.mem_map.1 hb
  have hrange := (g.inRange _ (mem_bodiesOf.1 hbody)).2
  rw [names_namedRules]
  cases body with
  | pair l r =>
    rcases List.mem_pair.1 hname with heq | heq
    · cases heq
      exact List.mem_map_of_mem (mem_printOrder.2 hrange.1)
    · cases heq
      exact List.mem_map_of_mem (mem_printOrder.2 hrange.2)
  | token t => cases List.mem_singleton.1 hname

theorem Prints.errors_eq_nil (h : g.Prints written) : written.errors = [] := by
  obtain ⟨name, hstart, htext⟩ := Option.map_eq_some_iff.1 h.start
  have hrule : written.hasRule name.text = true := by
    rw [h.hasRule_iff, htext, names_namedRules]
    exact List.mem_map_of_mem (mem_printOrder.2 g.start_lt)
  refine Written.errors_eq_nil hstart hrule fun r hr body hbody name hname => ?_
  have hrow : (⟨r.name.text, r.bodies.map (·.map Sym.ofSymbol)⟩ : Row) ∈ tableOf written :=
    List.mem_map_of_mem hr
  rw [h.table] at hrow
  obtain ⟨rule, hmem, heq⟩ := List.mem_map.1 hrow
  have hbodies : rule.2.map (·.symbols) = r.bodies.map (·.map Sym.ofSymbol) :=
    congrArg Row.bodies heq
  have hsymbols : body.map Sym.ofSymbol ∈ rule.2.map (·.symbols) :=
    hbodies ▸ List.mem_map_of_mem hbody
  obtain ⟨b, hb, hbsymbols⟩ := List.mem_map.1 hsymbols
  have hsym : Sym.rule name.text ∈ b.symbols :=
    hbsymbols ▸ List.mem_map_of_mem (f := Sym.ofSymbol) hname
  exact h.hasRule_iff.2 (mem_names_of_mem_symbols hmem hb hsym)

/-- The text of a printable grammar is read without errors. -/
theorem Printable.exists_read (h : g.Printable) :
    ∃ written, Written.read g.print = .ok written ∧ g.Prints written := by
  have hformed := h.wellFormed_outline
  have hspells := spells_of_isRendering h.writable g.isRendering_print
  have hprints : g.Prints (ofSheet (Sheet.read g.print)) :=
    ⟨(table_spells hformed hspells).trans h.table_outline, start_spells hspells,
      tokens_spell hformed hspells⟩
  refine ⟨_, ?_, hprints⟩
  have hform : (Sheet.read g.print).errors.isEmpty = true := by
    rw [errors_spell hformed hspells]
    rfl
  have hreferences : (ofSheet (Sheet.read g.print)).errors.isEmpty = true := by
    rw [hprints.errors_eq_nil]
    rfl
  simp only [Written.read, hform, hreferences, if_true]

/-- The normal form that a grammar already is in: it has the rules as they are printed. -/
structure Restates (g : Grammar) (nf : NormalForm) : Prop where
  rules_eq : nf.rules = g.namedRules.map fun rule => (rule.1, distinct rule.2)
  start_eq : nf.start = g.ruleName g.start
  tokens_subset : nf.tokenNames ⊆ g.tokenNames.toList
  nodup_tokens : nf.tokenNames.Nodup
  written : ∀ name ∈ nf.ruleNames, ∃ x ∈ nf.written, x.text = name

theorem Restates.ruleNames_eq (h : g.Restates nf) : nf.ruleNames = g.printOrder.map g.ruleName := by
  rw [NormalForm.ruleNames, h.rules_eq, List.map_map, ← names_namedRules]
  rfl

theorem Prints.restates (h : g.Prints written) : g.Restates (ofWritten written) := by
  have hrules := rules_ofWritten_of_rowOf h.table g.nodup_namedRules
  have htokens : (ofWritten written).tokenNames = distinct g.outline.tokenTexts := h.tokens
  refine ⟨hrules, ?_, ?_, ?_, ?_⟩
  · show (written.start.map (·.text)).getD "" = _
    rw [h.start, Option.getD_some]
  · intro text htext
    rw [htokens, mem_distinct] at htext
    exact tokenTexts_outline_subset g htext
  · rw [htokens]
    exact nodup_distinct _
  · intro name hname
    have hprinted : name ∈ g.namedRules.map Prod.fst := by
      rw [NormalForm.ruleNames, hrules, List.map_map] at hname
      exact hname
    obtain ⟨r, hr, rfl⟩ := List.mem_map.1 (Written.hasRule_iff.1 (h.hasRule_iff.2 hprinted))
    exact ⟨r.name, List.mem_map_of_mem hr, rfl⟩

/-- No production is counted for two rules. -/
theorem length_flatMap_filter_le {heads : List Nat} (h : heads.Nodup) (ps : List Production) :
    (heads.flatMap fun a => ps.filter (·.head == a)).length ≤ ps.length := by
  induction heads generalizing ps with
  | nil => exact Nat.zero_le _
  | cons a heads ih =>
    obtain ⟨hnew, hheads⟩ := List.nodup_cons.1 h
    have hothers : (heads.flatMap fun b => ps.filter (·.head == b)) =
        heads.flatMap fun b => (ps.filter fun p => !(p.head == a)).filter (·.head == b) := by
      refine List.flatMap_congr fun b hb => ?_
      rw [List.filter_filter]
      refine List.filter_congr fun p _ => ?_
      by_cases hp : p.head = b
      · have hne : p.head ≠ a := by
          rintro rfl
          exact hnew (hp ▸ hb)
        simp [hp, hp ▸ hne]
      · simp [hp]
    have hsplit := List.length_eq_length_filter_add (l := ps) (·.head == a)
    have hrest := ih hheads (ps.filter fun p => !(p.head == a))
    rw [List.flatMap_cons, List.length_append, hothers]
    omega

theorem length_distinct_le {α : Type} [BEq α] [Hashable α] [LawfulBEq α] (xs : List α) :
    (distinct xs).length ≤ xs.length :=
  ((nodup_distinct xs).subperm fun x hx => (mem_distinct xs x).1 hx).length_le

/-- No production is added on the way. -/
theorem Restates.length_productions_le (h : g.Restates nf) :
    nf.productions.length ≤ g.productions.size := by
  have hcount : nf.productions.length = (nf.rules.map (·.2.length)).sum := by
    rw [NormalForm.productions, List.length_flatMap]
    conv_rhs => rw [← List.zipIdx_map_fst 0 nf.rules, List.map_map]
    simp only [List.length_map]
    rfl
  have hle : ∀ a ∈ g.printOrder, (distinct ((g.bodiesOf a).map g.bodyName)).length ≤
      (g.productions.toList.filter (·.head == a)).length := by
    intro a _
    refine Nat.le_trans (length_distinct_le _) ?_
    rw [List.length_map, bodiesOf_eq, List.length_map]
  have hnodup : g.printOrder.Nodup := g.perm_printOrder.nodup_iff.2 List.nodup_range
  calc nf.productions.length
      = (g.printOrder.map fun a => (distinct ((g.bodiesOf a).map g.bodyName)).length).sum := by
        rw [hcount, h.rules_eq, namedRules, List.map_map, List.map_map]
        rfl
    _ ≤ (g.printOrder.map fun a => (g.productions.toList.filter (·.head == a)).length).sum :=
        List.sum_le_sum hle
    _ = (g.printOrder.flatMap fun a => g.productions.toList.filter (·.head == a)).length :=
        List.length_flatMap.symm
    _ ≤ g.productions.toList.length := length_flatMap_filter_le hnodup _
    _ = g.productions.size := Array.length_toList

theorem Restates.not_exceeds (h : g.Restates nf) (hfits : g.Fits w) : ¬ nf.Exceeds w.maxIndex := by
  have hrules : nf.rules.length = g.ruleCount := by
    rw [h.rules_eq, List.length_map, namedRules, List.length_map, g.perm_printOrder.length_eq,
      List.length_range]
  have htokens : nf.tokens.length ≤ g.tokenCount := by
    have hle := (h.nodup_tokens.subperm h.tokens_subset).length_le
    rwa [NormalForm.tokenNames, List.length_map, Array.length_toList] at hle
  have hproductions := h.length_productions_le
  rintro (hover | hover | hover)
  · exact absurd hfits.rules_le (by omega)
  · exact absurd hfits.tokens_le (by omega)
  · exact absurd hfits.productions_le (by omega)

def newRule (g : Grammar) (nf : NormalForm) (a : Nat) : Nat := nf.ruleNames.idxOf (g.ruleName a)

def newToken (g : Grammar) (nf : NormalForm) (t : Nat) : Nat := nf.tokenNames.idxOf (g.tokenText t)

theorem Restates.renumbers (h : g.Restates nf) (hnumbers : nf.Numbers g') :
    g.Renumbers g' (g.newRule nf) (g.newToken nf) := by
  have hmem : ∀ {a body}, ⟨a, body⟩ ∈ g.productions.toList →
      ⟨g.newRule nf a, nf.numberBody (g.bodyName body)⟩ ∈ g'.productions.toList := by
    intro a body hp
    have hrule : (g.ruleName a, distinct ((g.bodiesOf a).map g.bodyName)) ∈ nf.rules := by
      rw [h.rules_eq]
      exact List.mem_map.2 ⟨g.namedRule a,
        List.mem_map_of_mem (mem_printOrder.2 (g.inRange _ hp).1), rfl⟩
    obtain ⟨i, hi⟩ := List.mem_iff_getElem?.1 hrule
    have hbody : g.bodyName body ∈ distinct ((g.bodiesOf a).map g.bodyName) :=
      (mem_distinct _ _).2 (List.mem_map_of_mem (mem_bodiesOf.2 hp))
    rw [newRule, hnumbers.idxOf_eq hi]
    exact (hnumbers.known hi hbody).1
  exact ⟨fun hp => hmem hp, fun hp => hmem hp⟩

theorem Restates.exists_newRule (h : g.Restates nf) (hnumbers : nf.Numbers g')
    (hi : i < g'.ruleCount) : ∃ a < g.ruleCount, g.newRule nf a = i := by
  rw [hnumbers.ruleCount_eq] at hi
  have hget : nf.ruleNames[i]? = some nf.rules[i].1 := by
    rw [NormalForm.ruleNames, List.getElem?_map, List.getElem?_eq_getElem hi]
    rfl
  have hmem := List.mem_of_getElem? hget
  rw [h.ruleNames_eq] at hmem
  obtain ⟨a, ha, hname⟩ := List.mem_map.1 hmem
  refine ⟨a, mem_printOrder.1 ha, ?_⟩
  rw [newRule, hname]
  exact hnumbers.idxOf_eq (List.getElem?_eq_getElem hi)

theorem Restates.start_eq_newRule (h : g.Restates nf) (hnumbers : nf.Numbers g') :
    g'.start = g.newRule nf g.start ∧ g'.start = 0 := by
  have hstart : g'.start = g.newRule nf g.start := by
    rw [hnumbers.start_eq, h.start_eq, newRule]
  refine ⟨hstart, ?_⟩
  rw [hstart, newRule, h.ruleNames_eq, printOrder, List.map_cons, List.idxOf_cons_self]

theorem Restates.prune_eq (h : g.Restates nf) (hprintable : g.Printable)
    (hnumbers : nf.Numbers g') : g'.prune = g' := by
  refine prune_of_all (List.all_eq_true.2 fun i hi => ?_)
  obtain ⟨a, ha, rfl⟩ := h.exists_newRule hnumbers (List.mem_range.1 hi)
  exact (h.renumbers hnumbers).isUseful (h.start_eq_newRule hnumbers).1 (hprintable.useful a ha)

theorem Restates.isSome_ruleSpan? (h : g.Restates nf) (hnumber : nf.number w = .ok g')
    (ha : a < g'.ruleCount) : (g'.ruleSpan? a).isSome = true := by
  have hnumbers := numbers_of_number hnumber
  have hname : g'.ruleName a ∈ nf.ruleNames := by
    rw [← hnumbers.ruleNames_eq]
    exact ruleName_mem ha
  obtain ⟨x, hx, htext⟩ := h.written _ hname
  rw [ruleSpan?_of_number hnumber ha, Option.isSome_map, List.find?_isSome]
  exact ⟨x, hx, beq_iff_eq.2 htext⟩

/-- A grammar of useful rules can be read back from its text. Every rule was written there, and by
names the start rule and the productions are what they were: the start rule comes first, the other
rules keep their order, and each has its productions once, in the order in which it had them first. -/
theorem ofSource_print {g : Grammar} {w : Width} (hfits : g.Fits w) (h : g.Printable) :
    ∃ g', ofSource w g.print = .ok g' ∧
      (∀ a < g'.ruleCount, (g'.ruleSpan? a).isSome = true) ∧
      g'.ruleName g'.start = g.ruleName g.start ∧
      g'.ruleNames.toList = g.printOrder.map g.ruleName ∧
      g'.namedRules = g.namedRules.map fun rule => (rule.1, distinct rule.2) := by
  obtain ⟨written, hread, hprints⟩ := h.exists_read
  have hrestates := hprints.restates
  obtain ⟨errors, hrejected, -⟩ | ⟨written', hread', hmade⟩ := ofSource_cases w g.print
  · cases hread.symm.trans hrejected
  · obtain rfl := Except.ok.inj (hread.symm.trans hread')
    obtain ⟨hexceeds, -⟩ | ⟨-, g', hnumber, -, hok⟩ := hmade
    · exact absurd hexceeds (hrestates.not_exceeds hfits)
    · have hnumbers := numbers_of_number hnumber
      obtain ⟨hstart, hzero⟩ := hrestates.start_eq_newRule hnumbers
      have hmem : g.ruleName g.start ∈ (ofWritten written).ruleNames := by
        rw [hrestates.ruleNames_eq]
        exact List.mem_map_of_mem (mem_printOrder.2 g.start_lt)
      rw [hrestates.prune_eq h hnumbers] at hok
      refine ⟨g', hok, fun a ha => hrestates.isSome_ruleSpan? hnumber ha, ?_, ?_, ?_⟩
      · rw [hstart, newRule, hnumbers.ruleName_idxOf hmem]
      · rw [hnumbers.ruleNames_eq, hrestates.ruleNames_eq]
      · rw [hnumbers.namedRules_eq hzero, hrestates.rules_eq]

/-- The start rule is not the first one, and both rules have a production twice. -/
def echoes : Grammar :=
  assemble ["A", "S"] 1 ["%a", "b c"]
    [⟨1, .pair 0 1⟩, ⟨0, .token 1⟩, ⟨1, .token 0⟩, ⟨1, .pair 0 1⟩, ⟨0, .token 1⟩]
    (by decide) (by decide) (by decide) (by simp [Production.InRange])

theorem printable_echoes : echoes.Printable := by
  refine ⟨?_, by decide, by decide, by decide⟩
  have hend : echoes.Derives 1 [0] := .token (by decide)
  have hfirst : echoes.Derives 0 [1] := .token (by decide)
  have hleads : echoes.Leads 1 0 := ⟨0, 1, by decide, .inl rfl, ⟨_, hfirst⟩, _, hend⟩
  intro a ha
  have hcases : a = 0 ∨ a = 1 := by
    have hlt : a < 2 := ha
    omega
  rcases hcases with rfl | rfl
  · exact isUseful_iff.2 ⟨⟨_, hfirst⟩, .single hleads⟩
  · exact isUseful_iff.2 ⟨⟨_, hend⟩, .refl⟩

theorem ofSource_print_echoes : echoes.Fits .w8 ∧ echoes.Printable ∧
    ∃ g', ofSource .w8 echoes.print = .ok g' ∧ g'.ruleNames.toList = ["S", "A"] ∧
      g'.namedRules = [("S", [.pair "A" "S", .token "%a"]), ("A", [.token "b c"])] := by
  have hfits : echoes.Fits .w8 := ⟨by decide, by decide, by decide⟩
  obtain ⟨g', hok, -, -, hnames, hrules⟩ := ofSource_print hfits printable_echoes
  have hdistinct : (echoes.namedRules.map fun rule => (rule.1, distinct rule.2)) =
      [("S", [.pair "A" "S", .token "%a"]), ("A", [.token "b c"])] := by
    simp only [distinct_eq_foldl]
    decide +kernel
  exact ⟨hfits, printable_echoes, g', hok, hnames.trans (by decide +kernel),
    hrules.trans hdistinct⟩

end Grammar

end GrammarRepair
